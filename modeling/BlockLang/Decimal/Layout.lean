import BlockLang.Decimal.Shortest

namespace BlockLang

namespace Decimal

/-- A number is written in place if the power of ten of its first digit lies between the bounds,
both included. -/
structure Layout where
  leastInPlace : Int
  greatestInPlace : Int

def zeros (n : Nat) : List Char :=
  List.replicate n '0'

/-- Digits with the point after the first `point` of them, and at least one digit on each side. -/
def inPlace (digits : List Char) (point : Int) : List Char :=
  if point ≤ 0 then
    '0' :: '.' :: (zeros (-point).toNat ++ digits)
  else if digits.length ≤ point.toNat then
    digits ++ zeros (point.toNat - digits.length) ++ ['.', '0']
  else
    digits.take point.toNat ++ '.' :: digits.drop point.toNat

/-- Digits with the point after the first, left out if nothing follows it, and the exponent. -/
def withExponent (digits : List Char) (exponent : Int) : List Char :=
  let fraction := match digits.drop 1 with
    | [] => []
    | rest => '.' :: rest
  digits.take 1 ++ fraction ++ 'e' :: (toString exponent).toList

def write (layout : Layout) (d : Decimal) : String :=
  let digits := Nat.toDigits 10 d.digits
  let leading := d.exponent + digits.length - 1
  String.ofList <|
    if layout.leastInPlace ≤ leading ∧ leading ≤ layout.greatestInPlace then
      inPlace digits (leading + 1)
    else
      withExponent digits leading

end Decimal

end BlockLang
