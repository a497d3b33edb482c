import BlockLang.Assembly

namespace BlockLang

inductive CodeError where
  | unresolved (line : Nat)
  | assembly (error : AssemblyError)
deriving Repr, DecidableEq

def CodeError.message : CodeError → String
  | unresolved line => s!"line {line}: expression has no resolved type"
  | assembly error => error.message

/-- An action that adds to an assembly and may fail. What was added before a failure stays. -/
abbrev Emit := ExceptT CodeError (StateM Assembly)

namespace Emit

/-- An action of the assembly, whose error becomes one of the code. -/
def act (action : Assembly → Except AssemblyError Unit × Assembly) : Emit Unit := fun a =>
  match action a with
  | (.ok (), a) => (.ok (), a)
  | (.error error, a) => (.error (.assembly error), a)

def push (i : Instruction Label) : Emit Unit :=
  act fun a => (.ok (), a.push i)

def op (op : Opcode) : Emit Unit :=
  push (.plain op)

def access (op : LocalOp) (slot : UInt16) : Emit Unit :=
  act fun a => (.ok (), a.access op slot)

def pushString (text : String) : Emit Unit :=
  act (·.pushString text)

def jump (branch : Branch) (label : Label) : Emit Unit :=
  act (·.jump branch label)

def bind (label : Label) : Emit Unit :=
  act (·.bind label)

def reserve (count : Nat) : Emit Unit :=
  act fun a => (.ok (), a.reserve count)

def newLabel : Emit Label := fun a =>
  let (label, a) := a.newLabel
  (.ok label, a)

def unresolved {α : Type} (line : Nat) : Emit α := fun a =>
  (.error (.unresolved line), a)

end Emit

end BlockLang
