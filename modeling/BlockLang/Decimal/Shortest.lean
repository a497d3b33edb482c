namespace BlockLang

/-- The number `digits * 10 ^ exponent`. -/
structure Decimal where
  digits : Nat
  exponent : Int
deriving Repr, DecidableEq

namespace Decimal

/-- A binary fraction `mantissa * 2 ^ exponent`, which stands for the reals that round to it. They
reach half a unit up, and half or, where the units below are smaller, a quarter of a unit down. The
ends belong to them if the mantissa is even. -/
structure Target where
  mantissa : Nat
  exponent : Int
  quarterBelow : Bool

/-- Twice two to the units of the exponent: all bounds are whole numbers on this scale. -/
def Target.quarters (t : Target) : Nat × Nat × Nat :=
  (4 * t.mantissa - (if t.quarterBelow then 1 else 2), 4 * t.mantissa, 4 * t.mantissa + 2)

/-- The point of the grid of multiples of `10 ^ grid` that reads back and is nearest, the upper one
on a tie. All comparisons are between whole numbers over a common denominator. -/
def Target.onGrid? (t : Target) (grid : Int) : Option Nat :=
  let up := Nat.pow 10 (-grid).toNat <<< (t.exponent - 2).toNat
  let unit := Nat.pow 10 grid.toNat <<< (2 - t.exponent).toNat
  let (low, middle, high) := t.quarters
  let inside (d : Nat) : Bool :=
    if t.mantissa % 2 = 0 then
      low * up ≤ d * unit && d * unit ≤ high * up
    else
      low * up < d * unit && d * unit < high * up
  let below := middle * up / unit
  match inside below, inside (below + 1) with
  | false, false => none
  | true, false => some below
  | false, true => some (below + 1)
  | true, true =>
    if middle * up - below * unit < (below + 1) * unit - middle * up then some below
    else some (below + 1)

/-- Tries `count` grids from `grid` on, each ten times finer than the one before. -/
def Target.firstHit (t : Target) (grid : Int) : Nat → Decimal
  | 0 => ⟨0, 0⟩
  | count + 1 =>
    match t.onGrid? grid with
    | some digits => ⟨digits, grid⟩
    | none => t.firstHit (grid - 1) count

/-- The shortest decimal that reads back, the nearest of those. The first grid is coarser than the
fraction, and seventeen digits always suffice. -/
def shortest (t : Target) : Decimal :=
  t.firstHit (((t.mantissa.log2 : Int) + t.exponent) * 302 / 1000 + 2) 24

end Decimal

end BlockLang
