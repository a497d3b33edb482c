import BlockLang.Instruction

namespace BlockLang

inductive Value where
  | int (value : Int32)
  | double (value : Double)
  | string (value : String)
deriving Repr, DecidableEq

namespace Value

def kind : Value → Kind
  | int _ => .int
  | double _ => .double
  | string _ => .string

/-- How a value is printed and joined with text. -/
def text : Value → String
  | int value => toString value.toInt
  | double value => value.text
  | string value => value

end Value

/-- Arithmetic on ints wraps around. Division by zero has no result. -/
def ArithOp.onInts : ArithOp → Int32 → Int32 → Option Int32
  | add, a, b => some (a + b)
  | subtract, a, b => some (a - b)
  | multiply, a, b => some (a * b)
  | divide, a, b => if b = 0 then none else some (a / b)
  | modulo, a, b => if b = 0 then none else some (a % b)

def ArithOp.onDoubles : ArithOp → Double → Double → Double
  | add, a, b => a.add b
  | subtract, a, b => a.sub b
  | multiply, a, b => a.mul b
  | divide, a, b => a.div b
  | modulo, a, b => a.rem b

def BitOp.onInts : BitOp → Int32 → Int32 → Int32
  | or, a, b => a ||| b
  | xor, a, b => a ^^^ b
  | and, a, b => a &&& b

def Relation.onInts : Relation → Int32 → Int32 → Bool
  | less, a, b => a < b
  | lessEqual, a, b => a ≤ b
  | greater, a, b => b < a
  | greaterEqual, a, b => b ≤ a
  | equal, a, b => a = b
  | notEqual, a, b => a ≠ b

/-- The order of two doubles as an int. One that is not a number counts as the greater one if
`high`, otherwise as the less. -/
def Double.sign (high : Bool) (a b : Double) : Int32 :=
  match a.compare? b with
  | some .lt => -1
  | some .eq => 0
  | some .gt => 1
  | none => if high then 1 else -1

end BlockLang
