import BlockLang.Decimal.Layout
import BlockLang.Double

namespace BlockLang

namespace Double

/-- Numbers from `0.0001` up to sixteen digits before the point are written in place. -/
def layout : Decimal.Layout :=
  ⟨-4, 15⟩

/-- The reals that round to a double. Below a power of two the doubles lie twice as close. -/
def target (mantissa : Nat) (exponent : Int) : Decimal.Target :=
  ⟨mantissa, exponent, mantissa = exponentUnit && exponent != -1074⟩

def text (d : Double) : String :=
  let sign := if d.negative then "-" else ""
  match d.magnitude with
  | .notANumber => "NaN"
  | .infinite => sign ++ "inf"
  | .finite 0 _ => sign ++ "0.0"
  | .finite mantissa exponent =>
    sign ++ (Decimal.shortest (target mantissa exponent)).write layout

/-- The number that a run of decimal digits stands for. -/
def digitsValue (cs : List Char) : Nat :=
  cs.foldl (fun n c => 10 * n + (c.toNat - '0'.toNat)) 0

/-- Reads digits, a point and digits as the nearest double. -/
def ofDigits (whole fraction : List Char) : Double :=
  ofRatio false (digitsValue (whole ++ fraction)) (Nat.pow 10 fraction.length)

end Double

end BlockLang
