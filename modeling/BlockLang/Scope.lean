import Std.Data.TreeMap
import BlockLang.Diagnostic

namespace BlockLang

structure Binding where
  slot : UInt16
  ty : Ty
deriving Repr, DecidableEq

/-- The names of one scope, and the slot that was next when it was opened. -/
structure Scope where
  names : Std.TreeMap String Binding
  firstSlot : Nat

def Scope.empty (firstSlot : Nat) : Scope :=
  ⟨∅, firstSlot⟩

/-- How the two branches of a conditional expression are reconciled: they have the same type, or
numbers are converted as the operands of arithmetic are. -/
inductive BranchTyping where
  | identical
  | promote
deriving Repr, DecidableEq

namespace BranchTyping

def name : BranchTyping → String
  | identical => "identical"
  | promote => "promote"

def ofName (word : String) : Except String BranchTyping :=
  match word with
  | "identical" => .ok identical
  | "promote" => .ok promote
  | _ => .error ("unknown branch typing `" ++ word ++ "` (expected `identical` or `promote`)")

end BranchTyping

/-- The slots that can be numbered in two bytes, less the last. -/
def slotLimit : Nat := 65535

/-- What checking a statement can see and change. There is always an innermost scope; `outer` holds
the scopes around it, nearest first. When a scope closes, its slots are free again, so the open
scopes together hold the slots from zero up to the next one. -/
structure Context where
  innermost : Scope
  outer : List Scope
  nextSlot : Nat
  maxLocals : Nat
  typing : BranchTyping
  diagnostics : Array Diagnostic

namespace Context

def new (typing : BranchTyping) : Context :=
  ⟨.empty 0, [], 0, 0, typing, #[]⟩

def push (ctx : Context) : Context :=
  { ctx with innermost := .empty ctx.nextSlot, outer := ctx.innermost :: ctx.outer }

/-- Closes the innermost scope. The outermost one stays. -/
def pop (ctx : Context) : Context :=
  match ctx.outer with
  | [] => ctx
  | scope :: outer =>
    { ctx with innermost := scope, outer := outer, nextSlot := ctx.innermost.firstSlot }

def scopes (ctx : Context) : List Scope :=
  ctx.innermost :: ctx.outer

/-- What a name stands for, innermost scope first. -/
def lookup? (ctx : Context) (name : String) : Option Binding :=
  ctx.scopes.findSome? (·.names[name]?)

def report (ctx : Context) (line : Nat) (mistake : Mistake) : Context :=
  { ctx with diagnostics := ctx.diagnostics.push ⟨line, mistake⟩ }

def reportAll (ctx : Context) (ds : List Diagnostic) : Context :=
  { ctx with diagnostics := ctx.diagnostics.appendList ds }

/-- Gives a name the next slot. A name stands for one variable in a scope. -/
def declare (ctx : Context) (name : String) (ty : Ty) (line : Nat) : Option UInt16 × Context :=
  if ctx.innermost.names.contains name then
    (none, ctx.report line (.redeclared name))
  else if ctx.nextSlot < slotLimit then
    let slot := UInt16.ofNat ctx.nextSlot
    let names := ctx.innermost.names.insert name ⟨slot, ty⟩
    (some slot,
      { ctx with
        innermost := ⟨names, ctx.innermost.firstSlot⟩
        nextSlot := ctx.nextSlot + 1
        maxLocals := max ctx.maxLocals (ctx.nextSlot + 1) })
  else
    (none, ctx.report line .tooManyLocals)

end Context

end BlockLang
