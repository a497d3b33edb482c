import Std.Data.TreeSet
import BlockLang.Bytecode

namespace BlockLang

namespace Bytecode

def magic : List UInt8 := [0x42, 0x52, 0x43, 0x43]

def version : Nat := 1

def utf8 (text : String) : Bytes :=
  text.toUTF8.data

def encodeString (text : String) : List UInt8 :=
  bigEndian 2 text.utf8ByteSize ++ (utf8 text).toList

/-- The binary format of a compiled program:

    magic      four bytes
    version    two bytes
    locals     two bytes
    strings    two bytes for their number, and for each two bytes for its length, and its UTF-8
    code       four bytes for its length, and its bytes
-/
def encode (b : Bytecode) : Bytes :=
  (magic ++ bigEndian 2 version ++ bigEndian 2 b.maxLocals.toNat ++
    bigEndian 2 b.strings.size ++ b.strings.toList.flatMap encodeString ++
    bigEndian 4 b.code.size).toArray ++ b.code

/-- Reads `count` strings from `offset` on, and gives the offset after them. -/
def takeStrings (bytes : Bytes) (found : Array String) (offset : Nat) :
    Nat → Except DecodeError (Array String × Nat)
  | 0 => .ok (found, offset)
  | count + 1 => do
    let length ← takeNumber bytes offset 2
    let raw ← take bytes (offset + 2) length
    match String.fromUTF8? ⟨raw⟩ with
    | some text => takeStrings bytes (found.push text) (offset + 2 + length) count
    | none => .error (.invalidUtf8 found.size)

/-- The first instruction that names a string that is not there. -/
def missingString? (b : Bytecode) (sweep : Sweep) : Option DecodeError :=
  sweep.found.toList.findSome? fun (address, i) =>
    match i with
    | .pushString index =>
      if index.toNat < b.strings.size then none else some (.invalidStringIndex address index)
    | _ => none

/-- The first jump that does not land on an instruction. -/
def strayJump? (sweep : Sweep) : Option DecodeError :=
  let starts := Std.TreeSet.ofList (sweep.addresses.map Int.ofNat)
  sweep.found.toList.findSome? fun (address, i) =>
    match i with
    | .jump _ offset =>
      if starts.contains (address + offset.toInt) then none
      else some (.invalidBranchTarget address)
    | _ => none

/-- The first thing wrong with the code. Strings are looked up as instructions are met, and jumps
when all of them are known. -/
def fault? (b : Bytecode) : Option DecodeError :=
  let sweep := Sweep.ofCode b.code
  (b.missingString? sweep).or (sweep.stop.or (strayJump? sweep))

/-- Reads a compiled program, whose code must be made of whole instructions, name only strings that
exist, and jump only to where an instruction starts. -/
def decode (bytes : Bytes) : Except DecodeError Bytecode := do
  let front ← take bytes 0 4
  if front.toList ≠ magic then throw .badMagic
  let found ← takeNumber bytes 4 2
  if found ≠ version then throw (.unsupportedVersion found)
  let maxLocals ← takeNumber bytes 6 2
  let count ← takeNumber bytes 8 2
  let (strings, offset) ← takeStrings bytes #[] 10 count
  let size ← takeNumber bytes offset 4
  let code ← take bytes (offset + 4) size
  if offset + 4 + size < bytes.size then
    throw (.trailingBytes (bytes.size - (offset + 4 + size)))
  let b : Bytecode := ⟨UInt16.ofNat maxLocals, strings, code⟩
  match b.fault? with
  | some error => throw error
  | none => return b

end Bytecode

end BlockLang
