import BlockLang.Instruction.Bytes

namespace BlockLang

/-- A compiled program: the slots it needs, its string constants and its code. -/
structure Bytecode where
  maxLocals : UInt16
  strings : Array String
  code : Bytes
deriving DecidableEq

/-- The instructions of a code from its start, each with its address, up to the end or to the first
bytes that are none. -/
structure Sweep where
  found : Array (Nat × Instruction Int16)
  stop : Option DecodeError

namespace Sweep

def run (code : Bytes) (found : Array (Nat × Instruction Int16)) (address : Nat) : Sweep :=
  if address < code.size then
    match Instruction.decode code address with
    | .ok i => run code (found.push (address, i)) (address + i.size)
    | .error error => ⟨found, some error⟩
  else
    ⟨found, none⟩
termination_by code.size - address
decreasing_by
  have := i.size_pos
  omega

def ofCode (code : Bytes) : Sweep :=
  run code #[] 0

def addresses (sweep : Sweep) : List Nat :=
  sweep.found.toList.map (·.1)

end Sweep

end BlockLang
