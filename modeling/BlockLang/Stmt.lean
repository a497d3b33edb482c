import BlockLang.Expr

namespace BlockLang

/-- One declared name. Its slot is missing until it is checked. -/
structure Declarator where
  line : Nat
  name : String
  ty : Ty
  init : Option Expr
  slot : Option UInt16
deriving Repr, DecidableEq

inductive Stmt where
  | declare (line : Nat) (ty : Ty) (names : List Declarator)
  | eval (expr : Expr)
  | print (line : Nat) (expr : Expr)
  | block (line : Nat) (body : List Stmt)
  | doWhile (line : Nat) (body : Stmt) (condition : Expr)
  | forLoop (line : Nat) (names : List Declarator) (init : List Stmt) (condition : Option Expr)
      (update : List Stmt) (body : Stmt)
deriving Repr

/-- A program is its statements in order. -/
abbrev Program := List Stmt

/-- The line of a statement. An expression statement has that of its expression. -/
def Stmt.line : Stmt → Nat
  | declare line _ _ | print line _ | block line _ | doWhile line _ _
  | forLoop line _ _ _ _ _ => line
  | eval expr => expr.line

end BlockLang
