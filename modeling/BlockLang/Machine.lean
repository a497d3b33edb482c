import BlockLang.Bytecode
import BlockLang.Value

namespace BlockLang

inductive RunError where
  | stackUnderflow (address : Nat)
  | typeMismatch (address : Nat) (expected found : Kind)
  | uninitializedLocal (slot : UInt16)
  | invalidLocal (slot : UInt16)
  | divisionByZero (address : Nat)
  | invalidJumpTarget (address : Nat)
  | missingString (index : UInt16)
  | stepLimit (limit : Nat)
  | missingReturn
  | decode (error : DecodeError)
deriving Repr, DecidableEq

def RunError.message : RunError → String
  | stackUnderflow address => s!"stack underflow at {address}"
  | typeMismatch address expected found =>
    s!"expected {expected.name} at {address}, found {found.name}"
  | uninitializedLocal slot => s!"local slot {slot.toNat} is read before being written"
  | invalidLocal slot => s!"local slot {slot.toNat} is out of range"
  | divisionByZero address => s!"division by zero at {address}"
  | invalidJumpTarget address => s!"jump at {address} leaves the code"
  | missingString index => s!"missing string constant #{index.toNat}"
  | stepLimit limit => s!"gave up after {limit} steps"
  | missingReturn => "code ended without `return`"
  | decode error => error.message

namespace Machine

abbrev Stack := List Value

def pop (address : Nat) : Stack → Except RunError (Value × Stack)
  | value :: rest => .ok (value, rest)
  | [] => .error (.stackUnderflow address)

def popInt (address : Nat) (stack : Stack) : Except RunError (Int32 × Stack) := do
  match ← pop address stack with
  | (.int value, rest) => return (value, rest)
  | (other, _) => throw (.typeMismatch address .int other.kind)

def popDouble (address : Nat) (stack : Stack) : Except RunError (Double × Stack) := do
  match ← pop address stack with
  | (.double value, rest) => return (value, rest)
  | (other, _) => throw (.typeMismatch address .double other.kind)

/-- The two topmost ints. The right operand is on top. -/
def popInts (address : Nat) (stack : Stack) : Except RunError (Int32 × Int32 × Stack) := do
  let (rhs, stack) ← popInt address stack
  let (lhs, stack) ← popInt address stack
  return (lhs, rhs, stack)

def popDoubles (address : Nat) (stack : Stack) : Except RunError (Double × Double × Stack) := do
  let (rhs, stack) ← popDouble address stack
  let (lhs, stack) ← popDouble address stack
  return (lhs, rhs, stack)

/-- What an instruction without operand does to the stack, printing and returning aside. -/
def applyOp (address : Nat) (stack : Stack) : Opcode → Except RunError Stack
  | .pop => do
    let (_, stack) ← pop address stack
    return stack
  | .dup => do
    let (top, stack) ← pop address stack
    return top :: top :: stack
  | .intArith op => do
    let (lhs, rhs, stack) ← popInts address stack
    match op.onInts lhs rhs with
    | some value => return .int value :: stack
    | none => throw (.divisionByZero address)
  | .doubleArith op => do
    let (lhs, rhs, stack) ← popDoubles address stack
    return .double (op.onDoubles lhs rhs) :: stack
  | .intNegate => do
    let (value, stack) ← popInt address stack
    return .int (-value) :: stack
  | .doubleNegate => do
    let (value, stack) ← popDouble address stack
    return .double value.neg :: stack
  | .bit op => do
    let (lhs, rhs, stack) ← popInts address stack
    return .int (op.onInts lhs rhs) :: stack
  | .intToDouble => do
    let (value, stack) ← popInt address stack
    return .double (.ofInt value) :: stack
  | .doubleToInt => do
    let (value, stack) ← popDouble address stack
    return .int value.toInt :: stack
  | .compare high => do
    let (lhs, rhs, stack) ← popDoubles address stack
    return .int (Double.sign high lhs rhs) :: stack
  | .concat => do
    let (rhs, stack) ← pop address stack
    let (lhs, stack) ← pop address stack
    return .string (lhs.text ++ rhs.text) :: stack
  | .print | .ret => return stack

/-- Whether a jump is taken, and the stack after its test. -/
def test (address : Nat) (stack : Stack) : Branch → Except RunError (Bool × Stack)
  | .goto => return (true, stack)
  | .zero relation => do
    let (value, stack) ← popInt address stack
    return (relation.onInts value 0, stack)
  | .ints relation => do
    let (lhs, rhs, stack) ← popInts address stack
    return (relation.onInts lhs rhs, stack)

/-- A machine between two instructions. -/
structure State where
  pc : Nat
  stack : Stack
  locals : Array (Option Value)
  printed : Array String
deriving Repr, DecidableEq

inductive Outcome where
  | next (state : State)
  | returned (printed : Array String)
deriving Repr, DecidableEq

def start (b : Bytecode) : State :=
  ⟨0, [], Array.replicate b.maxLocals.toNat none, #[]⟩

def load (kind : Kind) (slot : UInt16) (address next : Nat) : State → Except RunError Outcome
  | ⟨_, stack, locals, printed⟩ =>
    match locals[slot.toNat]? with
    | none => .error (.invalidLocal slot)
    | some none => .error (.uninitializedLocal slot)
    | some (some value) =>
      if value.kind = kind then .ok (.next ⟨next, value :: stack, locals, printed⟩)
      else .error (.typeMismatch address kind value.kind)

def store (kind : Kind) (slot : UInt16) (address next : Nat) : State → Except RunError Outcome
  | ⟨_, stack, locals, printed⟩ =>
    match stack with
    | [] => .error (.stackUnderflow address)
    | value :: stack =>
      if value.kind ≠ kind then .error (.typeMismatch address kind value.kind)
      else if slot.toNat < locals.size then
        .ok (.next ⟨next, stack, locals.setIfInBounds slot.toNat (some value), printed⟩)
      else .error (.invalidLocal slot)

/-- The address a jump goes to. -/
def target (size address : Nat) (offset : Int16) : Except RunError Nat :=
  let goal := (address : Int) + offset.toInt
  if 0 ≤ goal ∧ goal < size then .ok goal.toNat else .error (.invalidJumpTarget address)

/-- A jump goes as far as its offset says, and stays in the code. -/
theorem target_eq_ok_iff {size address goal : Nat} {offset : Int16} :
    target size address offset = .ok goal ↔ (address : Int) + offset.toInt = goal ∧ goal < size := by
  unfold target
  dsimp only
  split
  · rw [Except.ok.injEq]
    omega
  · simp only [reduceCtorEq, false_iff]
    omega

theorem target_error {size address : Nat} {offset : Int16} {error : RunError}
    (h : target size address offset = .error error) : error = .invalidJumpTarget address := by
  unfold target at h
  dsimp only at h
  split at h <;> cases h
  rfl

/-- Performs an instruction of a code; `next` is the address behind it. -/
def perform (b : Bytecode) (i : Instruction Int16) (next : Nat) :
    State → Except RunError Outcome
  | ⟨pc, stack, locals, printed⟩ =>
    match i with
    | .plain .ret => .ok (.returned printed)
    | .plain .print => do
      let (value, stack) ← pop pc stack
      return .next ⟨next, stack, locals, printed.push value.text⟩
    | .plain op => do
      let stack ← applyOp pc stack op
      return .next ⟨next, stack, locals, printed⟩
    | .jump branch offset => do
      let (taken, stack) ← test pc stack branch
      if taken then
        let goal ← target b.code.size pc offset
        return .next ⟨goal, stack, locals, printed⟩
      else
        return .next ⟨next, stack, locals, printed⟩
    | .access (.load kind) slot => load kind slot pc next ⟨pc, stack, locals, printed⟩
    | .access (.store kind) slot => store kind slot pc next ⟨pc, stack, locals, printed⟩
    | .pushInt value => .ok (.next ⟨next, .int value :: stack, locals, printed⟩)
    | .pushDouble value => .ok (.next ⟨next, .double value :: stack, locals, printed⟩)
    | .pushString index =>
      match b.strings[index.toNat]? with
      | some text => .ok (.next ⟨next, .string text :: stack, locals, printed⟩)
      | none => .error (.missingString index)

/-- Performs the next instruction. -/
def step (b : Bytecode) (s : State) : Except RunError Outcome :=
  if s.pc < b.code.size then
    match Instruction.decode b.code s.pc with
    | .error error => .error (.decode error)
    | .ok i => perform b i (s.pc + i.size) s
  else
    .error .missingReturn

/-- Performs up to `steps` instructions; `limit` is how many were allowed in all. -/
def runFrom (b : Bytecode) (limit : Nat) : (steps : Nat) → State → Except RunError (Array String)
  | 0, s => .error (if s.pc < b.code.size then .stepLimit limit else .missingReturn)
  | steps + 1, s =>
    match step b s with
    | .error error => .error error
    | .ok (.returned printed) => .ok printed
    | .ok (.next s) => runFrom b limit steps s

def defaultLimit : Nat := 10000000

/-- The lines that a program prints. -/
def run (b : Bytecode) (limit : Nat) : Except RunError (List String) :=
  (runFrom b limit limit (start b)).map (·.toList)

end Machine

end BlockLang
