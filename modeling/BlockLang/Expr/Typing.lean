import BlockLang.Scope

namespace BlockLang

namespace Expr

/-- A conditional expression has the type of both branches. -/
def branchType (typing : BranchTyping) (line : Nat) (whenTrue whenFalse : Ty) :
    Ty × List Diagnostic :=
  if whenTrue = whenFalse then (whenTrue, [])
  else if whenTrue = .any ∨ whenFalse = .any then (.any, [])
  else
    let promoted := match typing with
      | .identical => none
      | .promote => Ty.promote whenTrue whenFalse
    match promoted with
    | some ty => (ty, [])
    | none => (.any, [⟨line, .branchMismatch whenTrue whenFalse⟩])

/-- Joins two checked operands as text. Everything that has a value has a text. -/
def joined (line : Nat) (lhs rhs : Expr) : Expr × List Diagnostic :=
  let missing (e : Expr) : List Diagnostic :=
    if e.ty = .void then [⟨e.line, .noValue⟩] else []
  let mistakes := missing lhs ++ missing rhs
  (concat ⟨line, some (if mistakes.isEmpty then .string else .any)⟩ lhs rhs, mistakes)

/-- Arithmetic on checked operands. A sum with a text in it joins texts. A type that is already
marked as a mistake causes no other. -/
def arithmetic (line : Nat) (op : ArithOp) (lhs rhs : Expr) : Expr × List Diagnostic :=
  if op = .add ∧ (lhs.ty = .string ∨ rhs.ty = .string) then joined line lhs rhs
  else
    match Ty.promote lhs.ty rhs.ty with
    | some ty => (binary ⟨line, some ty⟩ (.arith op) lhs rhs, [])
    | none =>
      let mistakes :=
        if lhs.ty = .any ∨ rhs.ty = .any then []
        else [⟨line, .invalidOperands (.arith op) lhs.ty rhs.ty⟩]
      (binary ⟨line, some .any⟩ (.arith op) lhs rhs, mistakes)

/-- The mistakes of a comparison. Numbers of one type are compared, and booleans for equality. -/
def comparison (line : Nat) (relation : Relation) (lhs rhs : Ty) : List Diagnostic :=
  let comparable := lhs.isNumeric || (relation.isEquality && lhs = .boolean)
  if lhs = .any ∨ rhs = .any ∨ (comparable = true ∧ lhs = rhs) then []
  else [⟨line, .invalidOperands (.compare relation) lhs rhs⟩]

/-- An operator with checked operands. -/
def applied (line : Nat) (op : BinaryOp) (lhs rhs : Expr) : Expr × List Diagnostic :=
  match op with
  | .arith op => arithmetic line op lhs rhs
  | .bit _ =>
    (binary ⟨line, some .int⟩ op lhs rhs,
      Diagnostic.ofMismatch line lhs.ty .int ++ Diagnostic.ofMismatch line rhs.ty .int)
  | .logic _ =>
    (binary ⟨line, some .boolean⟩ op lhs rhs,
      Diagnostic.ofMismatch line lhs.ty .boolean ++ Diagnostic.ofMismatch line rhs.ty .boolean)
  | .compare relation =>
    (binary ⟨line, some .boolean⟩ op lhs rhs, comparison line relation lhs.ty rhs.ty)
  | .assign =>
    if lhs.isVariable then
      (binary ⟨line, some lhs.ty⟩ op lhs rhs, Diagnostic.ofMismatch rhs.line rhs.ty lhs.ty)
    else
      (binary ⟨line, some .any⟩ op lhs rhs, [⟨line, .invalidTarget⟩])

/-- A prefix operator with a checked operand. -/
def prefixed (line : Nat) (op : UnaryOp) (operand : Expr) : Expr × List Diagnostic :=
  match op with
  | .negate =>
    if operand.ty.isNumeric ∨ operand.ty = .any then
      (unary ⟨line, some operand.ty⟩ op operand, [])
    else
      (unary ⟨line, some .any⟩ op operand, [⟨line, .invalidOperand op operand.ty⟩])
  | .not =>
    (unary ⟨line, some .boolean⟩ op operand, Diagnostic.ofMismatch line operand.ty .boolean)

/-- A name as a checked variable. -/
def resolved (line : Nat) (name : String) : Option Binding → Expr × List Diagnostic
  | some binding => (var ⟨line, some binding.ty⟩ name (some binding.slot), [])
  | none => (var ⟨line, some .any⟩ name none, [⟨line, .unknownVariable name⟩])

/-- The expression with its types and slots, and its mistakes, those of the operands first. A node
that has a type is left alone. -/
def annotate (typing : BranchTyping) (names : String → Option Binding) (e : Expr) :
    Expr × List Diagnostic :=
  if e.ty?.isSome then (e, [])
  else
    match e with
    | literal mark value => (literal ⟨mark.line, some value.ty⟩ value, [])
    | var mark name _ => resolved mark.line name (names name)
    | unary mark op operand =>
      let (operand, inner) := annotate typing names operand
      let (e, own) := prefixed mark.line op operand
      (e, inner ++ own)
    | binary mark op lhs rhs =>
      let (lhs, left) := annotate typing names lhs
      let (rhs, right) := annotate typing names rhs
      let (e, own) := applied mark.line op lhs rhs
      (e, left ++ right ++ own)
    | concat mark lhs rhs =>
      let (lhs, left) := annotate typing names lhs
      let (rhs, right) := annotate typing names rhs
      let (e, own) := joined mark.line lhs rhs
      (e, left ++ right ++ own)
    | ternary mark condition whenTrue whenFalse =>
      let (condition, first) := annotate typing names condition
      let test := Diagnostic.ofMismatch condition.line condition.ty .boolean
      let (whenTrue, second) := annotate typing names whenTrue
      let (whenFalse, third) := annotate typing names whenFalse
      let (ty, own) := branchType typing mark.line whenTrue.ty whenFalse.ty
      (ternary ⟨mark.line, some ty⟩ condition whenTrue whenFalse,
        first ++ test ++ second ++ third ++ own)
    | guarded mark condition whenTrue =>
      let (condition, first) := annotate typing names condition
      let test := Diagnostic.ofMismatch condition.line condition.ty .boolean
      let (whenTrue, second) := annotate typing names whenTrue
      (guarded ⟨mark.line, some .void⟩ condition whenTrue, first ++ test ++ second)

end Expr

end BlockLang
