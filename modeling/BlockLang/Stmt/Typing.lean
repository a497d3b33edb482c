import BlockLang.Expr.Typing
import BlockLang.Stmt

namespace BlockLang

/-- A check reads and changes the context. -/
abbrev Check := StateM Context

namespace Check

def report (line : Nat) (mistake : Mistake) : Check Unit :=
  modify (·.report line mistake)

def expr (e : Expr) : Check Expr := fun ctx =>
  let (e, mistakes) := e.annotate ctx.typing ctx.lookup?
  (e, ctx.reportAll mistakes)

/-- An expression whose value must agree with a type. -/
def typed (expected : Ty) (e : Expr) : Check Expr := do
  let e ← expr e
  modify (·.reportAll (Diagnostic.ofMismatch e.line e.ty expected))
  return e

def option {α : Type} (check : α → Check α) : Option α → Check (Option α)
  | some a => some <$> check a
  | none => return none

def declare (name : String) (ty : Ty) (line : Nat) : Check (Option UInt16) :=
  fun ctx => ctx.declare name ty line

/-- The initial value is checked before the name is in view. -/
def declarator (d : Declarator) : Check Declarator := do
  let init ← option (typed d.ty) d.init
  let slot ← declare d.name d.ty d.line
  return ⟨d.line, d.name, d.ty, init, slot⟩

def declarators : List Declarator → Check (List Declarator)
  | [] => return []
  | d :: ds => do
    let d ← declarator d
    return d :: (← declarators ds)

/-- Checks in a new scope, which is closed again. -/
def inScope {α : Type} (check : Check α) : Check α := do
  modify Context.push
  let a ← check
  modify Context.pop
  return a

mutual

def stmt : Stmt → Check Stmt
  | .declare line ty names => return .declare line ty (← declarators names)
  | .eval e => return .eval (← expr e)
  | .print line e => do
    let e ← expr e
    if e.ty = .void then report e.line .noValue
    return .print line e
  | .block line body => inScope do
    return .block line (← stmts body)
  | .doWhile line body condition => do
    let condition ← typed .boolean condition
    let body ← stmt body
    return .doWhile line body condition
  | .forLoop line names init condition update body => inScope do
    let names ← declarators names
    let init ← stmts init
    let condition ← option (typed .boolean) condition
    let body ← stmt body
    let update ← stmts update
    return .forLoop line names init condition update body

def stmts : List Stmt → Check (List Stmt)
  | [] => return []
  | s :: ss => do
    let s ← stmt s
    return s :: (← stmts ss)

end

end Check

/-- A checked program, the slots it needs, and its mistakes in the order they were met. -/
structure Checked where
  program : Program
  maxLocals : Nat
  diagnostics : List Diagnostic

def Program.check (typing : BranchTyping) (program : Program) : Checked :=
  let (program, ctx) := Check.stmts program (.new typing)
  ⟨program, ctx.maxLocals, ctx.diagnostics.toList⟩

end BlockLang
