import BlockLang.Emit

namespace BlockLang

/-- What code for an expression is to do: leave the value, or go to a label if it is `onTrue`. -/
inductive Want where
  | value
  | jump (target : Label) (onTrue : Bool)

/-- The jump taken when an int is not zero, or when it is. -/
def Branch.onTruth (onTrue : Bool) : Branch :=
  .zero (if onTrue then .notEqual else .equal)

namespace Expr

def resolvedTy (e : Expr) : Emit Ty :=
  match e.ty? with
  | none | some .any => Emit.unresolved e.line
  | some ty => return ty

/-- The access of a variable's slot. -/
def slotAccess (e : Expr) (op : Kind → LocalOp) : Emit (LocalOp × UInt16) := do
  let ty ← e.resolvedTy
  match ty.kind?, e.slot? with
  | some kind, some slot => return (op kind, slot)
  | _, _ => Emit.unresolved e.line

/-- Turns the number on top of the stack into one of another type. -/
def convert (source target : Ty) : Emit Unit :=
  match source, target with
  | .int, .double => Emit.op .intToDouble
  | .double, .int => Emit.op .doubleToInt
  | _, _ => return ()

def pushLiteral : Literal → Emit Unit
  | .int value => Emit.push (.pushInt value)
  | .double value => Emit.push (.pushDouble value)
  | .boolean value => Emit.push (.pushInt (if value then 1 else 0))
  | .string value => Emit.pushString value

/-- What is left to do when the value is on the stack. -/
def deliver : Want → Emit Unit
  | .value => return ()
  | .jump target onTrue => Emit.jump (.onTruth onTrue) target

/-- Does what is wanted with a condition. Its value is one if it holds, otherwise zero. -/
def deliverCondition (condition : Label → Bool → Emit Unit) : Want → Emit Unit
  | .jump target onTrue => condition target onTrue
  | .value => do
    let isFalse ← Emit.newLabel
    let done ← Emit.newLabel
    condition isFalse false
    Emit.push (.pushInt 1)
    Emit.jump .goto done
    Emit.bind isFalse
    Emit.push (.pushInt 0)
    Emit.bind done

/-- A condition on two conditions. Where the left one decides, the right one is passed over. -/
def both (op : LogicOp) (lhs rhs : Label → Bool → Emit Unit) (target : Label) (onTrue : Bool) :
    Emit Unit := do
  let decisive := op = .or
  if onTrue = decisive then
    lhs target onTrue
    rhs target onTrue
  else
    let skip ← Emit.newLabel
    lhs skip decisive
    rhs target onTrue
    Emit.bind skip

/-- Jumps on how the two numbers on the stack compare. The comparison of doubles is chosen so that
the relation does not hold of what is not a number, whether or not its opposite is jumped on. -/
def jumpOnRelation (relation : Relation) (ty : Ty) (target : Label) (onTrue : Bool) :
    Emit Unit := do
  let tested := if onTrue then relation else relation.opposite
  if ty = .double then
    Emit.op (.compare (relation = .less ∨ relation = .lessEqual))
    Emit.jump (.zero tested) target
  else
    Emit.jump (.ints tested) target

def arithOpcode (op : ArithOp) (ty : Ty) : Opcode :=
  if ty = .double then .doubleArith op else .intArith op

/-- Emits the code of an expression. A value is left on the stack, nothing if it is void; a condition
falls through where it does not jump. Code is made only for nodes that have a type. -/
def code (e : Expr) (want : Want) : Emit Unit := do
  let ty ← e.resolvedTy
  match e with
  | literal _ (.boolean value) =>
    match want with
    | .value => pushLiteral (.boolean value)
    | .jump target onTrue => if value = onTrue then Emit.jump .goto target else return ()
  | literal _ value =>
    pushLiteral value
    deliver want
  | var mark name slot =>
    let (op, slot) ← slotAccess (var mark name slot) .load
    Emit.access op slot
    deliver want
  | unary _ .negate operand =>
    operand.code .value
    Emit.op (if ty = .double then .doubleNegate else .intNegate)
    deliver want
  | unary _ .not operand =>
    deliverCondition (fun target onTrue => operand.code (.jump target (!onTrue))) want
  | binary _ (.arith op) lhs rhs =>
    lhs.code .value
    rhs.code .value
    convert (← rhs.resolvedTy) ty
    Emit.op (arithOpcode op ty)
    deliver want
  | binary _ (.bit op) lhs rhs =>
    lhs.code .value
    rhs.code .value
    Emit.op (.bit op)
    deliver want
  | binary _ (.logic op) lhs rhs =>
    deliverCondition (both op (fun target onTrue => lhs.code (.jump target onTrue))
      (fun target onTrue => rhs.code (.jump target onTrue))) want
  | binary _ (.compare relation) lhs rhs =>
    deliverCondition (fun target onTrue => do
      lhs.code .value
      rhs.code .value
      jumpOnRelation relation (← lhs.resolvedTy) target onTrue) want
  | binary _ .assign lhs rhs =>
    let (op, slot) ← lhs.slotAccess .store
    rhs.code .value
    Emit.op .dup
    Emit.access op slot
    deliver want
  | concat _ lhs rhs =>
    lhs.code .value
    rhs.code .value
    Emit.op .concat
    deliver want
  | ternary _ condition whenTrue whenFalse =>
    let otherwise ← Emit.newLabel
    condition.code (.jump otherwise false)
    whenTrue.code .value
    convert (← whenTrue.resolvedTy) ty
    let done ← Emit.newLabel
    Emit.jump .goto done
    Emit.bind otherwise
    whenFalse.code .value
    convert (← whenFalse.resolvedTy) ty
    Emit.bind done
    deliver want
  | guarded _ condition whenTrue =>
    let otherwise ← Emit.newLabel
    condition.code (.jump otherwise false)
    whenTrue.code .value
    if (← whenTrue.resolvedTy) ≠ .void then Emit.op .pop
    Emit.bind otherwise
    deliver want

/-- Leaves the value of an expression on the stack. -/
def emitValue (e : Expr) : Emit Unit :=
  e.code .value

/-- Goes to `target` if a condition is `onTrue`. -/
def emitJump (e : Expr) (target : Label) (onTrue : Bool) : Emit Unit :=
  e.code (.jump target onTrue)

end Expr

end BlockLang
