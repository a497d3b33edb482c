import BlockLang.Expr
import BlockLang.Value

namespace BlockLang

/-- A store: how a variable is read and written there, and the faults an evaluation can end in
besides. A variable is given by its name, its slot and its type. -/
structure Access (σ ε : Type) where
  read : String → Option UInt16 → Option Ty → σ → Except ε Value
  write : String → Option UInt16 → Option Ty → Value → σ → Except ε σ
  divisionByZero : ε
  stuck : ε

def Literal.value : Literal → Value
  | int value => .int value
  | double value => .double value
  | boolean value => .int (if value then 1 else 0)
  | string value => .string value

namespace Value

def ofBool (holds : Bool) : Value :=
  .int (if holds then 1 else 0)

/-- Whether a boolean holds. -/
def truth? : Value → Option Bool
  | int value => some (value ≠ 0)
  | _ => none

def negate? : Value → Option Value
  | int value => some (.int (-value))
  | double value => some (.double value.neg)
  | string _ => none

/-- A number as one of another type. -/
def convert : Ty → Value → Value
  | .double, int value => .double (.ofInt value)
  | .int, double value => .int value.toInt
  | _, value => value

def bits? (op : BitOp) : Value → Value → Option Value
  | int a, int b =>
    match op with
    | .or => some (.int (a ||| b))
    | .xor => some (.int (a ^^^ b))
    | .and => some (.int (a &&& b))
  | _, _ => none

end Value

/-- Whether a relation holds of doubles in the given order. Without an order only being unequal
does. -/
def Relation.onOrder : Relation → Option Ordering → Bool
  | less, order => order = some .lt
  | lessEqual, order => order = some .lt ∨ order = some .eq
  | greater, order => order = some .gt
  | greaterEqual, order => order = some .gt ∨ order = some .eq
  | equal, order => order = some .eq
  | notEqual, order => order ≠ some .eq

def Relation.onValues? (relation : Relation) : Value → Value → Option Bool
  | .int a, .int b =>
    match relation with
    | less => some (a < b)
    | lessEqual => some (a ≤ b)
    | greater => some (a > b)
    | greaterEqual => some (a ≥ b)
    | equal => some (a = b)
    | notEqual => some (a ≠ b)
  | .double a, .double b => some (relation.onOrder (a.compare? b))
  | _, _ => none

namespace Access

variable {σ ε α : Type} (access : Access σ ε)

def orStuck (o : Option α) : Except ε α :=
  match o with
  | some a => .ok a
  | none => .error access.stuck

/-- Arithmetic in the type of the left operand. Ints wrap around, and are not divided by zero. -/
def arith (op : ArithOp) (a b : Value) : Except ε Value :=
  match a, b with
  | .int a, .int b => ints a b
  | .int a, .double b => ints a b.toInt
  | .double a, .int b => .ok (.double (doubles a (.ofInt b)))
  | .double a, .double b => .ok (.double (doubles a b))
  | _, _ => .error access.stuck
where
  ints (a b : Int32) : Except ε Value :=
    match op with
    | .add => .ok (.int (a + b))
    | .subtract => .ok (.int (a - b))
    | .multiply => .ok (.int (a * b))
    | .divide => if b = 0 then .error access.divisionByZero else .ok (.int (a / b))
    | .modulo => if b = 0 then .error access.divisionByZero else .ok (.int (a % b))
  doubles (a b : Double) : Double :=
    match op with
    | .add => a.add b
    | .subtract => a.sub b
    | .multiply => a.mul b
    | .divide => a.div b
    | .modulo => a.rem b

/-- The value of what must have one. -/
def needed (result : Except ε (Option Value × σ)) : Except ε (Value × σ) :=
  result.bind fun (value?, store) => (access.orStuck value?).map fun value => (value, store)

/-- Whether what must be a boolean holds. -/
def decided (result : Except ε (Option Value × σ)) : Except ε (Bool × σ) :=
  (access.needed result).bind fun (value, store) =>
    (access.orStuck value.truth?).map fun holds => (holds, store)

end Access

namespace Expr

variable {σ ε : Type} (access : Access σ ε)

/-- The value of an expression, none if it is void, and the store behind it. Operands are evaluated
from left to right, and only those that are needed. -/
def eval : Expr → σ → Except ε (Option Value × σ)
  | literal _ value, store => .ok (some value.value, store)
  | var mark name slot, store =>
    (access.read name slot mark.ty store).map fun value => (some value, store)
  | unary _ .negate e, store =>
    (access.needed (eval e store)).bind fun (value, store) =>
      (access.orStuck value.negate?).map fun value => (some value, store)
  | unary _ .not e, store =>
    (access.decided (eval e store)).map fun (holds, store) => (some (.ofBool (!holds)), store)
  | binary _ (.arith op) l r, store =>
    (access.needed (eval l store)).bind fun (a, store) =>
      (access.needed (eval r store)).bind fun (b, store) =>
        (access.arith op a b).map fun value => (some value, store)
  | binary _ (.bit op) l r, store =>
    (access.needed (eval l store)).bind fun (a, store) =>
      (access.needed (eval r store)).bind fun (b, store) =>
        (access.orStuck (Value.bits? op a b)).map fun value => (some value, store)
  | binary _ (.logic op) l r, store =>
    (access.decided (eval l store)).bind fun (holds, store) =>
      if holds = decide (op = .or) then .ok (some (.ofBool holds), store)
      else (access.decided (eval r store)).map fun (holds, store) => (some (.ofBool holds), store)
  | binary _ (.compare relation) l r, store =>
    (access.needed (eval l store)).bind fun (a, store) =>
      (access.needed (eval r store)).bind fun (b, store) =>
        (access.orStuck (relation.onValues? a b)).map fun holds => (some (.ofBool holds), store)
  | binary _ .assign (var mark name slot) r, store =>
    (access.needed (eval r store)).bind fun (value, store) =>
      (access.write name slot mark.ty value store).map fun store => (some value, store)
  | binary _ .assign _ _, _ => .error access.stuck
  | concat _ l r, store =>
    (access.needed (eval l store)).bind fun (a, store) =>
      (access.needed (eval r store)).map fun (b, store) =>
        (some (.string (a.text ++ b.text)), store)
  | ternary mark c t f, store =>
    (access.decided (eval c store)).bind fun (holds, store) =>
      (if holds then eval t store else eval f store).map fun (value?, store) =>
        (value?.map (.convert (mark.ty.getD .any)), store)
  | guarded _ c t, store =>
    (access.decided (eval c store)).bind fun (holds, store) =>
      if holds then (eval t store).map fun (_, store) => (none, store) else .ok (none, store)

end Expr

end BlockLang
