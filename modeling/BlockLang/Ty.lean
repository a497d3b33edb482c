namespace BlockLang

/-- `void` is the type of what leaves no value behind. `any` marks a mistake that has been reported
and agrees with every type, so that it is reported once. -/
inductive Ty where
  | int
  | double
  | boolean
  | string
  | void
  | any
deriving Repr, DecidableEq

namespace Ty

def name : Ty → String
  | int => "int"
  | double => "double"
  | boolean => "boolean"
  | string => "String"
  | void => "void"
  | any => "any"

def isNumeric : Ty → Bool
  | int | double => true
  | _ => false

/-- Whether a value of type `found` may stand where `expected` is wanted. -/
def agrees (found expected : Ty) : Bool :=
  found = expected || found = any || expected = any

/-- The type of an arithmetic result: that of the left operand. The right one is converted. -/
def promote : Ty → Ty → Option Ty
  | int, int | int, double => some int
  | double, int | double, double => some double
  | _, _ => none

end Ty

end BlockLang
