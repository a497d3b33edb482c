namespace BlockLang

/-- A double precision number is its 64 bits, so that two of them are equal exactly if they are
stored alike, whatever sign and payload a not-a-number has. -/
structure Double where
  bits : UInt64
deriving Repr, DecidableEq

namespace Double

/-- What a double stands for, its sign aside. -/
inductive Magnitude where
  | finite (mantissa : Nat) (exponent : Int)
  | infinite
  | notANumber
deriving Repr, DecidableEq

/-- The place value of the sign bit. -/
def signUnit : Nat :=
  0x8000000000000000

/-- The place value of the lowest bit of the exponent. The leading bit of a mantissa, which is not
stored, would stand there. -/
def exponentUnit : Nat :=
  0x10000000000000

def negative (d : Double) : Bool :=
  signUnit ≤ d.bits.toNat

/-- The eleven bits of the exponent as they are stored. -/
def exponentField (d : Double) : Nat :=
  d.bits.toNat / exponentUnit % 2048

def fractionField (d : Double) : Nat :=
  d.bits.toNat % exponentUnit

def magnitude (d : Double) : Magnitude :=
  if d.exponentField = 2047 then
    if d.fractionField = 0 then .infinite else .notANumber
  else if d.exponentField = 0 then
    .finite d.fractionField (-1074)
  else
    .finite (exponentUnit + d.fractionField) ((d.exponentField : Int) - 1075)

def ofFields (negative : Bool) (rest : Nat) : Double :=
  ⟨UInt64.ofNat ((if negative then signUnit else 0) + rest)⟩

def notANumber : Double :=
  ofFields false (2047 * exponentUnit + exponentUnit / 2)

/-- The quotient rounded to the nearest whole number, a tie to the even one. -/
def roundDiv (num den : Nat) : Nat :=
  let floor := num / den
  let rest := num % den
  if den < 2 * rest ∨ (2 * rest = den ∧ floor % 2 = 1) then floor + 1 else floor

/-- The double nearest to a quotient, the even one on a tie. A mantissa that rounds up to the next
power of two carries into the exponent field, and from the greatest one into infinity. -/
def ofRatio (negative : Bool) (num den : Nat) : Double :=
  if num = 0 then ofFields negative 0
  else
    let guess : Int := (num.log2 : Int) - den.log2 - 53
    let fits := num <<< (-(guess + 53)).toNat < den <<< (guess + 53).toNat
    let exponent := max (if fits then guess else guess + 1) (-1074)
    let mantissa := roundDiv (num <<< (-exponent).toNat) (den <<< exponent.toNat)
    let rest := (exponent + 1074).toNat * exponentUnit + mantissa
    ofFields negative (min rest (2047 * exponentUnit))

/-- The double `mantissa * 2 ^ exponent`, rounded if it must be. -/
def ofScaled (negative : Bool) (mantissa : Nat) (exponent : Int) : Double :=
  ofRatio negative (mantissa <<< exponent.toNat) (1 <<< (-exponent).toNat)

def toFloat (d : Double) : Float :=
  Float.ofBits d.bits

def ofFloat (f : Float) : Double :=
  ⟨f.toBits⟩

def add (a b : Double) : Double :=
  ofFloat (a.toFloat + b.toFloat)

def sub (a b : Double) : Double :=
  ofFloat (a.toFloat - b.toFloat)

def mul (a b : Double) : Double :=
  ofFloat (a.toFloat * b.toFloat)

def div (a b : Double) : Double :=
  ofFloat (a.toFloat / b.toFloat)

/-- The remainder of the division toward zero. It is exact and has the sign of the dividend. -/
def rem (a b : Double) : Double :=
  match a.magnitude, b.magnitude with
  | .finite m p, .finite n q =>
    if n = 0 then notANumber
    else
      let e := min p q
      ofScaled a.negative ((m <<< (p - e).toNat) % (n <<< (q - e).toNat)) e
  | .finite _ _, .infinite => a
  | _, _ => notANumber

/-- Flips the sign bit. -/
def neg (d : Double) : Double :=
  ⟨d.bits ^^^ 0x8000000000000000⟩

/-- The order of two doubles, none if one is not a number. The two zeros are equal. -/
def compare? (a b : Double) : Option Ordering :=
  let x := a.toFloat
  let y := b.toFloat
  if x < y then some .lt
  else if y < x then some .gt
  else if x == y then some .eq
  else none

def ofInt (n : Int32) : Double :=
  ofFloat n.toFloat

/-- Rounds toward zero. What is out of range becomes the nearest int, not-a-number becomes zero. -/
def toInt (d : Double) : Int32 :=
  d.toFloat.toInt32

end Double

end BlockLang
