import BlockLang.Double.Text
import BlockLang.Expr

namespace BlockLang

/-- The kinds of value on the stack. Booleans are ints there. -/
inductive Kind where
  | int
  | double
  | string
deriving Repr, DecidableEq

namespace Kind

def name : Kind → String
  | int => "int"
  | double => "double"
  | string => "String"

def initial : Kind → String
  | int => "i"
  | double => "d"
  | string => "a"

end Kind

/-- The kind of a type's values. The types without values have none. -/
def Ty.kind? : Ty → Option Kind
  | int | boolean => some .int
  | double => some .double
  | string => some .string
  | void | any => none

/-- Instructions without operands. `compare` leaves -1, 0 or 1 for two doubles. If one is not a
number it leaves 1 when `high`, otherwise -1. -/
inductive Opcode where
  | pop
  | dup
  | intArith (op : ArithOp)
  | doubleArith (op : ArithOp)
  | intNegate
  | doubleNegate
  | bit (op : BitOp)
  | intToDouble
  | doubleToInt
  | compare (high : Bool)
  | concat
  | print
  | ret
deriving Repr, DecidableEq

namespace Opcode

def arithName : ArithOp → String
  | .add => "add"
  | .subtract => "sub"
  | .multiply => "mul"
  | .divide => "div"
  | .modulo => "rem"

def mnemonic : Opcode → String
  | pop => "pop"
  | dup => "dup"
  | intArith op => "i" ++ arithName op
  | doubleArith op => "d" ++ arithName op
  | intNegate => "ineg"
  | doubleNegate => "dneg"
  | bit .and => "iand"
  | bit .or => "ior"
  | bit .xor => "ixor"
  | intToDouble => "i2d"
  | doubleToInt => "d2i"
  | compare false => "dcmpl"
  | compare true => "dcmpg"
  | concat => "concat"
  | print => "print"
  | ret => "return"

def byte : Opcode → UInt8
  | pop => 0x57
  | dup => 0x59
  | intArith .add => 0x60
  | doubleArith .add => 0x63
  | intArith .subtract => 0x64
  | doubleArith .subtract => 0x67
  | intArith .multiply => 0x68
  | doubleArith .multiply => 0x6b
  | intArith .divide => 0x6c
  | doubleArith .divide => 0x6f
  | intArith .modulo => 0x70
  | doubleArith .modulo => 0x73
  | intNegate => 0x74
  | doubleNegate => 0x77
  | bit .and => 0x7e
  | bit .or => 0x80
  | bit .xor => 0x82
  | intToDouble => 0x87
  | doubleToInt => 0x8e
  | compare false => 0x97
  | compare true => 0x98
  | concat => 0xcb
  | print => 0xcc
  | ret => 0xb1

def ofByte? : UInt8 → Option Opcode
  | 0x57 => some pop
  | 0x59 => some dup
  | 0x60 => some (intArith .add)
  | 0x63 => some (doubleArith .add)
  | 0x64 => some (intArith .subtract)
  | 0x67 => some (doubleArith .subtract)
  | 0x68 => some (intArith .multiply)
  | 0x6b => some (doubleArith .multiply)
  | 0x6c => some (intArith .divide)
  | 0x6f => some (doubleArith .divide)
  | 0x70 => some (intArith .modulo)
  | 0x73 => some (doubleArith .modulo)
  | 0x74 => some intNegate
  | 0x77 => some doubleNegate
  | 0x7e => some (bit .and)
  | 0x80 => some (bit .or)
  | 0x82 => some (bit .xor)
  | 0x87 => some intToDouble
  | 0x8e => some doubleToInt
  | 0x97 => some (compare false)
  | 0x98 => some (compare true)
  | 0xcb => some concat
  | 0xcc => some print
  | 0xb1 => some ret
  | _ => none

theorem ofByte?_byte (op : Opcode) : ofByte? op.byte = some op := by
  rcases op with _ | _ | op | op | _ | _ | op | _ | _ | high | _ | _ | _
  all_goals first | rfl | (cases op <;> rfl) | (cases high <;> rfl)

end Opcode

/-- Jumps: always, on how an int compares with zero, or on how two ints compare. -/
inductive Branch where
  | zero (relation : Relation)
  | ints (relation : Relation)
  | goto
deriving Repr, DecidableEq

namespace Branch

def relationName : Relation → String
  | .equal => "eq"
  | .notEqual => "ne"
  | .less => "lt"
  | .greaterEqual => "ge"
  | .greater => "gt"
  | .lessEqual => "le"

def mnemonic : Branch → String
  | zero relation => "if" ++ relationName relation
  | ints relation => "if_icmp" ++ relationName relation
  | goto => "goto"

def byte : Branch → UInt8
  | zero .equal => 0x99
  | zero .notEqual => 0x9a
  | zero .less => 0x9b
  | zero .greaterEqual => 0x9c
  | zero .greater => 0x9d
  | zero .lessEqual => 0x9e
  | ints .equal => 0x9f
  | ints .notEqual => 0xa0
  | ints .less => 0xa1
  | ints .greaterEqual => 0xa2
  | ints .greater => 0xa3
  | ints .lessEqual => 0xa4
  | goto => 0xa7

def ofByte? : UInt8 → Option Branch
  | 0x99 => some (zero .equal)
  | 0x9a => some (zero .notEqual)
  | 0x9b => some (zero .less)
  | 0x9c => some (zero .greaterEqual)
  | 0x9d => some (zero .greater)
  | 0x9e => some (zero .lessEqual)
  | 0x9f => some (ints .equal)
  | 0xa0 => some (ints .notEqual)
  | 0xa1 => some (ints .less)
  | 0xa2 => some (ints .greaterEqual)
  | 0xa3 => some (ints .greater)
  | 0xa4 => some (ints .lessEqual)
  | 0xa7 => some goto
  | _ => none

theorem ofByte?_byte (b : Branch) : ofByte? b.byte = some b := by
  rcases b with r | r | _
  · cases r <;> rfl
  · cases r <;> rfl
  · rfl

def isConditional : Branch → Bool
  | goto => false
  | _ => true

end Branch

/-- Moves between a local slot and the stack. -/
inductive LocalOp where
  | load (kind : Kind)
  | store (kind : Kind)
deriving Repr, DecidableEq

namespace LocalOp

def mnemonic : LocalOp → String
  | load kind => kind.initial ++ "load"
  | store kind => kind.initial ++ "store"

def byte : LocalOp → UInt8
  | load .int => 0x15
  | load .double => 0x18
  | load .string => 0x19
  | store .int => 0x36
  | store .double => 0x39
  | store .string => 0x3a

def ofByte? : UInt8 → Option LocalOp
  | 0x15 => some (load .int)
  | 0x18 => some (load .double)
  | 0x19 => some (load .string)
  | 0x36 => some (store .int)
  | 0x39 => some (store .double)
  | 0x3a => some (store .string)
  | _ => none

theorem ofByte?_byte (op : LocalOp) : ofByte? op.byte = some op := by
  rcases op with k | k <;> cases k <;> rfl

def isStore : LocalOp → Bool
  | load _ => false
  | store _ => true

end LocalOp

/-- One instruction; `Target` is what a jump names: a label while code is assembled, afterwards an
offset from its own address. -/
inductive Instruction (Target : Type) where
  | plain (op : Opcode)
  | jump (branch : Branch) (target : Target)
  | access (op : LocalOp) (slot : UInt16)
  | pushInt (value : Int32)
  | pushDouble (value : Double)
  | pushString (index : UInt16)
deriving Repr, DecidableEq

namespace Instruction

variable {Target : Type}

/-- The number of bytes of an instruction: one for what it is, and those of its operand. -/
def size : Instruction Target → Nat
  | plain _ => 1
  | jump _ _ | access _ _ | pushString _ => 3
  | pushInt _ => 5
  | pushDouble _ => 9

theorem size_pos (i : Instruction Target) : 0 < i.size := by
  cases i <;> simp [size]

def text (target : Target → String) : Instruction Target → String
  | plain op => op.mnemonic
  | jump branch t => branch.mnemonic ++ " " ++ target t
  | access op slot => op.mnemonic ++ " " ++ toString slot.toNat
  | pushInt value => "iconst " ++ toString value.toInt
  | pushDouble value => "dconst " ++ value.text
  | pushString index => "ldc #" ++ toString index.toNat

end Instruction

end BlockLang
