import BlockLang.Expr.Code
import BlockLang.Stmt

namespace BlockLang

/-- A declared name without initial value needs no code. -/
def Declarator.code (d : Declarator) : Emit Unit :=
  match d.init with
  | none => return ()
  | some init =>
    match d.ty.kind?, d.slot with
    | some kind, some slot => do
      init.emitValue
      Emit.access (.store kind) slot
    | _, _ => Emit.unresolved d.line

/-- A loop whose `body` gets the label to leave it by. -/
def Emit.loop (body : Label → Emit Unit) : Emit Unit := do
  let test ← newLabel
  let out ← newLabel
  bind test
  body out
  jump .goto test
  bind out

namespace Stmt

mutual

def code : Stmt → Emit Unit
  | declare _ _ names => names.forM Declarator.code
  | eval e => do
    e.emitValue
    if (← e.resolvedTy) ≠ .void then Emit.op .pop
  | print _ e => do
    e.emitValue
    Emit.op .print
  | block _ body => codeOfAll body
  | doWhile _ body condition =>
    Emit.loop fun out => do
      body.code
      condition.emitJump out false
  | forLoop _ names init condition update body => do
    names.forM Declarator.code
    codeOfAll init
    Emit.loop fun out => do
      condition.forM fun e => e.emitJump out false
      body.code
      codeOfAll update

def codeOfAll : List Stmt → Emit Unit
  | [] => return ()
  | s :: ss => do
    s.code
    codeOfAll ss

end

end Stmt

/-- The code of a program that needs `maxLocals` slots. It ends with a return. -/
def Program.generate (program : Program) (maxLocals : Nat) : Except CodeError Bytecode :=
  let emit : Emit Unit := do
    Emit.reserve maxLocals
    Stmt.codeOfAll program
    Emit.op .ret
  match emit.run .empty with
  | (.error error, _) => .error error
  | (.ok (), a) => a.finish.mapError .assembly

end BlockLang
