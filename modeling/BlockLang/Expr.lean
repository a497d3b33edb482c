import BlockLang.Double
import BlockLang.Token

namespace BlockLang

inductive Literal where
  | int (value : Int32)
  | double (value : Double)
  | boolean (value : Bool)
  | string (value : String)
deriving Repr, DecidableEq

def Literal.ty : Literal → Ty
  | int _ => .int
  | double _ => .double
  | boolean _ => .boolean
  | string _ => .string

inductive UnaryOp where
  | negate
  | not
deriving Repr, DecidableEq

namespace UnaryOp

def symbol : UnaryOp → String
  | negate => "-"
  | not => "!"

/-- The prefix operator that a token stands for. -/
def ofToken? : TokenKind → Option UnaryOp
  | .operator .minus false => some negate
  | .operator .bang false => some not
  | _ => none

end UnaryOp

inductive ArithOp where
  | add
  | subtract
  | multiply
  | divide
  | modulo
deriving Repr, DecidableEq

def ArithOp.symbol : ArithOp → String
  | add => "+"
  | subtract => "-"
  | multiply => "*"
  | divide => "/"
  | modulo => "%"

/-- Operators on the bits of ints. -/
inductive BitOp where
  | or
  | xor
  | and
deriving Repr, DecidableEq

def BitOp.symbol : BitOp → String
  | or => "|"
  | xor => "^"
  | and => "&"

/-- The operators that leave out their right side where the left one decides. -/
inductive LogicOp where
  | and
  | or
deriving Repr, DecidableEq

def LogicOp.symbol : LogicOp → String
  | and => "&&"
  | or => "||"

inductive Relation where
  | less
  | lessEqual
  | greater
  | greaterEqual
  | equal
  | notEqual
deriving Repr, DecidableEq

namespace Relation

def symbol : Relation → String
  | less => "<"
  | lessEqual => "<="
  | greater => ">"
  | greaterEqual => ">="
  | equal => "=="
  | notEqual => "!="

/-- The relation between two ints that holds exactly when this one does not. -/
def opposite : Relation → Relation
  | less => greaterEqual
  | lessEqual => greater
  | greater => lessEqual
  | greaterEqual => less
  | equal => notEqual
  | notEqual => equal

/-- The relations that booleans have too. -/
def isEquality : Relation → Bool
  | equal | notEqual => true
  | _ => false

theorem opposite_opposite (r : Relation) : r.opposite.opposite = r := by
  cases r <;> rfl

end Relation

inductive BinaryOp where
  | arith (op : ArithOp)
  | bit (op : BitOp)
  | logic (op : LogicOp)
  | compare (relation : Relation)
  | assign
deriving Repr, DecidableEq

namespace BinaryOp

def symbol : BinaryOp → String
  | arith op => op.symbol
  | bit op => op.symbol
  | logic op => op.symbol
  | compare relation => relation.symbol
  | assign => "="

/-- How tightly an operator binds. The place between assignment and `||` is that of `?`. -/
def precedence : BinaryOp → Nat
  | assign => 1
  | logic .or => 3
  | logic .and => 4
  | bit .or => 5
  | bit .xor => 6
  | bit .and => 7
  | compare .equal | compare .notEqual => 8
  | compare _ => 9
  | arith .add | arith .subtract => 11
  | arith _ => 12

def isRightAssociative : BinaryOp → Bool
  | assign => true
  | _ => false

/-- Whether the result is a boolean that is found by jumping. -/
def isConditional : BinaryOp → Bool
  | logic _ | compare _ => true
  | _ => false

/-- The operator between two operands that a token stands for. -/
def ofToken? : TokenKind → Option BinaryOp
  | .operator .plus false => some (arith .add)
  | .operator .minus false => some (arith .subtract)
  | .operator .star false => some (arith .multiply)
  | .operator .slash false => some (arith .divide)
  | .operator .percent false => some (arith .modulo)
  | .operator .pipe false => some (bit .or)
  | .operator .caret false => some (bit .xor)
  | .operator .and false => some (bit .and)
  | .operator .andAnd false => some (logic .and)
  | .operator .pipePipe false => some (logic .or)
  | .operator .less false => some (compare .less)
  | .operator .less true => some (compare .lessEqual)
  | .operator .greater false => some (compare .greater)
  | .operator .greater true => some (compare .greaterEqual)
  | .operator .equals true => some (compare .equal)
  | .operator .bang true => some (compare .notEqual)
  | .operator .equals false => some assign
  | _ => none

end BinaryOp

/-- What every node of an expression carries. The type is missing until the node is checked. -/
structure Mark where
  line : Nat
  ty : Option Ty
deriving Repr, DecidableEq

/-- A mark that still lacks its type. -/
def Mark.untyped (line : Nat) : Mark :=
  ⟨line, none⟩

/-- Expressions. `concat` is what `+` becomes when it joins text, and `guarded` is a conditional
without a false branch, which leaves no value. -/
inductive Expr where
  | literal (mark : Mark) (value : Literal)
  | var (mark : Mark) (name : String) (slot : Option UInt16)
  | unary (mark : Mark) (op : UnaryOp) (operand : Expr)
  | binary (mark : Mark) (op : BinaryOp) (lhs rhs : Expr)
  | concat (mark : Mark) (lhs rhs : Expr)
  | ternary (mark : Mark) (condition whenTrue whenFalse : Expr)
  | guarded (mark : Mark) (condition whenTrue : Expr)
deriving Repr, DecidableEq

namespace Expr

def mark : Expr → Mark
  | literal m _ | var m _ _ | unary m _ _ | binary m _ _ _ | concat m _ _
  | ternary m _ _ _ | guarded m _ _ => m

def line (e : Expr) : Nat :=
  e.mark.line

def ty? (e : Expr) : Option Ty :=
  e.mark.ty

/-- The type of a checked expression. One that is not checked agrees with every type. -/
def ty (e : Expr) : Ty :=
  e.ty?.getD .any

def isVariable : Expr → Bool
  | var .. => true
  | _ => false

/-- The slot of a variable. -/
def slot? : Expr → Option UInt16
  | var _ _ slot => slot
  | _ => none

end Expr

end BlockLang
