import BlockLang.Instruction

namespace BlockLang

abbrev Bytes := Array UInt8

/-- The low `width` bytes of a number, the most significant one first. -/
def bigEndian : (width n : Nat) → List UInt8
  | 0, _ => []
  | width + 1, n => bigEndian width (n / 256) ++ [UInt8.ofNat n]

/-- The number that bytes spell. -/
def ofBigEndian (bytes : List UInt8) : Nat :=
  bytes.foldl (fun n b => 256 * n + b.toNat) 0

theorem length_bigEndian (width n : Nat) : (bigEndian width n).length = width := by
  induction width generalizing n with
  | zero => rfl
  | succ width ih => simp [bigEndian, ih]

/-- What can be wrong with the bytes of a module. -/
inductive DecodeError where
  | badMagic
  | unsupportedVersion (version : Nat)
  | unexpectedEnd (offset : Nat)
  | invalidUtf8 (index : Nat)
  | trailingBytes (count : Nat)
  | unknownOpcode (address : Nat) (byte : UInt8)
  | invalidStringIndex (address : Nat) (index : UInt16)
  | invalidBranchTarget (address : Nat)
deriving Repr, DecidableEq

namespace DecodeError

/-- A byte in two hexadecimal digits. -/
def hexByte (b : UInt8) : String :=
  let digits := Nat.toDigits 16 b.toNat
  String.ofList (List.replicate (2 - digits.length) '0' ++ digits)

def message : DecodeError → String
  | badMagic => "not a module: bad magic number"
  | unsupportedVersion version => s!"unsupported module version {version}"
  | unexpectedEnd offset => s!"unexpected end of data at byte {offset}"
  | invalidUtf8 index => s!"string constant #{index} is not valid UTF-8"
  | trailingBytes count => s!"{count} unexpected byte(s) after the code"
  | unknownOpcode address byte => s!"unknown opcode 0x{hexByte byte} at {address}"
  | invalidStringIndex address index =>
    s!"instruction at {address} refers to missing string #{index.toNat}"
  | invalidBranchTarget address => s!"jump at {address} doesn't land on an instruction"

end DecodeError

/-- The `count` bytes from `offset` on. -/
def take (bytes : Bytes) (offset count : Nat) : Except DecodeError Bytes :=
  if offset + count ≤ bytes.size then .ok (bytes.extract offset (offset + count))
  else .error (.unexpectedEnd offset)

def takeNumber (bytes : Bytes) (offset width : Nat) : Except DecodeError Nat :=
  (take bytes offset width).map fun taken => ofBigEndian taken.toList

namespace Instruction

def intByte : UInt8 := 0x13

def doubleByte : UInt8 := 0x14

def stringByte : UInt8 := 0x12

def encode : Instruction Int16 → List UInt8
  | plain op => [op.byte]
  | jump branch offset => branch.byte :: bigEndian 2 offset.toUInt16.toNat
  | access op slot => op.byte :: bigEndian 2 slot.toNat
  | pushInt value => intByte :: bigEndian 4 value.toUInt32.toNat
  | pushDouble value => doubleByte :: bigEndian 8 value.bits.toNat
  | pushString index => stringByte :: bigEndian 2 index.toNat

theorem length_encode (i : Instruction Int16) : i.encode.length = i.size := by
  cases i <;> simp [encode, size, length_bigEndian]

/-- The instruction whose first byte is `byte`, with its operand right after `address`. -/
def decodeOperand (code : Bytes) (address : Nat) (byte : UInt8) :
    Except DecodeError (Instruction Int16) :=
  match Opcode.ofByte? byte with
  | some op => .ok (plain op)
  | none =>
    match Branch.ofByte? byte with
    | some branch => (takeNumber code (address + 1) 2).map fun n =>
      jump branch (UInt16.ofNat n).toInt16
    | none =>
      match LocalOp.ofByte? byte with
      | some op => (takeNumber code (address + 1) 2).map fun n => access op (UInt16.ofNat n)
      | none =>
        if byte = intByte then
          (takeNumber code (address + 1) 4).map fun n => pushInt (UInt32.ofNat n).toInt32
        else if byte = doubleByte then
          (takeNumber code (address + 1) 8).map fun n => pushDouble ⟨UInt64.ofNat n⟩
        else if byte = stringByte then
          (takeNumber code (address + 1) 2).map fun n => pushString (UInt16.ofNat n)
        else
          .error (.unknownOpcode address byte)

/-- The instruction at an address. -/
def decode (code : Bytes) (address : Nat) : Except DecodeError (Instruction Int16) :=
  match code[address]? with
  | some byte => decodeOperand code address byte
  | none => .error (.unexpectedEnd address)

end Instruction

end BlockLang
