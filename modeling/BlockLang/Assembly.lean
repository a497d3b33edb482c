import Std.Data.TreeMap
import BlockLang.Bytecode

namespace BlockLang

/-- A place in the code, numbered in the order of creation. -/
structure Label where
  number : Nat
deriving Repr, DecidableEq

def Label.name (label : Label) : String :=
  ".L" ++ toString label.number

inductive Entry where
  | label (label : Label)
  | instruction (i : Instruction Label)
deriving Repr, DecidableEq

def Entry.text : Entry → String
  | label l => l.name ++ ":"
  | instruction i => "\t" ++ i.text Label.name

inductive AssemblyError where
  | labelRebound (label : Label)
  | unboundLabel (label : Label)
  | unknownLabel (label : Label)
  | branchTooFar (origin goal : Nat)
  | tooManyStrings
  | stringTooLong (size : Nat)
  | codeTooLarge (size : Nat)
deriving Repr, DecidableEq

def AssemblyError.message : AssemblyError → String
  | labelRebound label => "label " ++ label.name ++ " is bound twice"
  | unboundLabel label => "label " ++ label.name ++ " was never bound"
  | unknownLabel label => "label " ++ label.name ++ " doesn't belong to this emitter"
  | branchTooFar origin goal => s!"jump from {origin} to {goal} doesn't fit in 16 bits"
  | tooManyStrings => "too many distinct string constants"
  | stringTooLong size => s!"string constant of {size} bytes is too long"
  | codeTooLarge size => s!"code size of {size} bytes is too large"

/-- String constants in the order of their first use, with the place of each. -/
structure StringTable where
  entries : Array String
  places : Std.TreeMap String UInt16

namespace StringTable

def empty : StringTable :=
  ⟨#[], ∅⟩

/-- The place of a string, which gets the next one if it is new. Lengths and places have two bytes
in the binary format. -/
def place (table : StringTable) (text : String) : Except AssemblyError UInt16 × StringTable :=
  match table.places[text]? with
  | some place => (.ok place, table)
  | none =>
    if 65535 < text.utf8ByteSize then (.error (.stringTooLong text.utf8ByteSize), table)
    else if 65535 < table.entries.size then (.error .tooManyStrings, table)
    else
      let place := UInt16.ofNat table.entries.size
      (.ok place, ⟨table.entries.push text, table.places.insert text place⟩)

end StringTable

/-- Code under assembly. Jumps name labels until it is finished. `labels` holds for each label the
address it is bound to. `address` is the size of the code so far. An action that fails leaves the
assembly as it was. -/
structure Assembly where
  entries : Array Entry
  labels : Array (Option Nat)
  address : Nat
  strings : StringTable
  maxLocals : Nat

namespace Assembly

def empty : Assembly :=
  ⟨#[], #[], 0, .empty, 0⟩

def push (a : Assembly) (i : Instruction Label) : Assembly :=
  { a with entries := a.entries.push (.instruction i), address := a.address + i.size }

def newLabel (a : Assembly) : Label × Assembly :=
  (⟨a.labels.size⟩, { a with labels := a.labels.push none })

/-- Binds a label to the address of the next instruction. -/
def bind (a : Assembly) (label : Label) : Except AssemblyError Unit × Assembly :=
  match a.labels[label.number]? with
  | none => (.error (.unknownLabel label), a)
  | some (some _) => (.error (.labelRebound label), a)
  | some none =>
    (.ok (), { a with
      labels := a.labels.setIfInBounds label.number (some a.address)
      entries := a.entries.push (.label label) })

def jump (a : Assembly) (branch : Branch) (label : Label) :
    Except AssemblyError Unit × Assembly :=
  if label.number < a.labels.size then (.ok (), a.push (.jump branch label))
  else (.error (.unknownLabel label), a)

/-- Makes room for at least `count` slots. -/
def reserve (a : Assembly) (count : Nat) : Assembly :=
  { a with maxLocals := max a.maxLocals count }

/-- Accesses a slot and makes room for it, as far as rooms are counted. -/
def access (a : Assembly) (op : LocalOp) (slot : UInt16) : Assembly :=
  (a.reserve (min (slot.toNat + 1) 65535)).push (.access op slot)

/-- Pushes a string constant. -/
def pushString : Assembly → String → Except AssemblyError Unit × Assembly
  | ⟨entries, labels, address, strings, maxLocals⟩, text =>
    match strings.place text with
    | (.error error, strings) => (.error error, ⟨entries, labels, address, strings, maxLocals⟩)
    | (.ok place, strings) =>
      (.ok (), push ⟨entries, labels, address, strings, maxLocals⟩ (.pushString place))

/-- The entries so far, one to a line. -/
def listing (a : Assembly) : String :=
  "\n".intercalate (a.entries.toList.map Entry.text)

/-- The offset of a jump, in two bytes with a sign. -/
def offset (origin goal : Nat) : Except AssemblyError Int16 :=
  let distance := (goal : Int) - origin
  if -32768 ≤ distance ∧ distance ≤ 32767 then .ok (Int16.ofInt distance)
  else .error (.branchTooFar origin goal)

/-- An instruction at `address` with the offset of its jump. -/
def resolve (addresses : Array Nat) (address : Nat) :
    Instruction Label → Except AssemblyError (Instruction Int16)
  | .plain op => .ok (.plain op)
  | .jump branch label =>
    (offset address (addresses.getD label.number 0)).map (.jump branch ·)
  | .access op slot => .ok (.access op slot)
  | .pushInt value => .ok (.pushInt value)
  | .pushDouble value => .ok (.pushDouble value)
  | .pushString index => .ok (.pushString index)

/-- The bytes of entries that follow `code`. Labels take none. -/
def encode (addresses : Array Nat) (code : Bytes) : List Entry → Except AssemblyError Bytes
  | [] => .ok code
  | .label _ :: entries => encode addresses code entries
  | .instruction i :: entries =>
    match resolve addresses code.size i with
    | .error error => .error error
    | .ok i => encode addresses (code ++ i.encode) entries

/-- The finished code. Every label must be bound, the size must have four bytes, and every jump
must reach its goal. -/
def finish (a : Assembly) : Except AssemblyError Bytecode :=
  match a.labels.findIdx? (·.isNone) with
  | some number => .error (.unboundLabel ⟨number⟩)
  | none =>
    if 0x100000000 ≤ a.address then .error (.codeTooLarge a.address)
    else
      (encode (a.labels.map (·.getD 0)) #[] a.entries.toList).map fun code =>
        ⟨UInt16.ofNat a.maxLocals, a.strings.entries, code⟩

end Assembly

end BlockLang
