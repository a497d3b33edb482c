import BlockLang.Expr

namespace BlockLang

inductive Mistake where
  | typeMismatch (expected found : Ty)
  | invalidOperands (op : BinaryOp) (lhs rhs : Ty)
  | invalidOperand (op : UnaryOp) (ty : Ty)
  | unknownVariable (name : String)
  | redeclared (name : String)
  | invalidTarget
  | branchMismatch (whenTrue whenFalse : Ty)
  | noValue
  | tooManyLocals
deriving Repr, DecidableEq

def Mistake.message : Mistake → String
  | typeMismatch expected found =>
    "incompatible types: expected " ++ expected.name ++ ", found " ++ found.name
  | invalidOperands op lhs rhs =>
    "invalid operand types for " ++ op.symbol ++ ": " ++ lhs.name ++ " and " ++ rhs.name
  | invalidOperand op ty => "invalid operand type for unary " ++ op.symbol ++ ": " ++ ty.name
  | unknownVariable name => "cannot find variable `" ++ name ++ "` in this scope"
  | redeclared name => "variable `" ++ name ++ "` is already defined in this scope"
  | invalidTarget => "left side of an assignment must be a variable"
  | branchMismatch whenTrue whenFalse =>
    "branches of the conditional expression have different types: " ++ whenTrue.name ++ " and " ++
      whenFalse.name
  | noValue => "expression doesn't produce a value"
  | tooManyLocals => "too many local variables"

/-- A mistake in a program that is spelt correctly. All of them are collected. -/
structure Diagnostic where
  line : Nat
  mistake : Mistake
deriving Repr, DecidableEq

namespace Diagnostic

def render (d : Diagnostic) : String :=
  toString d.line ++ ": error: " ++ d.mistake.message

/-- Each diagnostic on a line of its own, and their number. -/
def summary (ds : List Diagnostic) : String :=
  String.join (ds.map (·.render ++ "\n")) ++ toString ds.length ++ " error(s)"

/-- The complaint about a type that does not agree with the expected one. -/
def ofMismatch (line : Nat) (found expected : Ty) : List Diagnostic :=
  if found.agrees expected then [] else [⟨line, .typeMismatch expected found⟩]

end Diagnostic

end BlockLang
