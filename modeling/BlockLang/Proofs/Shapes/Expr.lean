import BlockLang.Proofs.Shapes.Flow
import BlockLang.Proofs.Simulation.Expr

namespace BlockLang

/-- A stack with a value of a type on it, if the type has values. -/
def Ty.onto (ty : Ty) (stack : Shape) : Shape :=
  ty.kind?.toList ++ stack

theorem Ty.onto_of_kind {ty : Ty} {kind : Kind} (h : ty.kind? = some kind) (stack : Shape) :
    ty.onto stack = kind :: stack := by
  simp [Ty.onto, h]

/-- What is on the stack behind the code for a goal. -/
def Goal.leaves : Goal → Ty → Shape → Shape
  | .value, ty, stack => ty.onto stack
  | .jump _ _, _, stack => stack

/-- What is expected where the code for a goal may jump. -/
def Goal.Expects : Goal → Shape → Shapes → Prop
  | .value, _, _ => True
  | .jump target _, stack, M => M target = stack

/-- Names stand for slots that there can be. -/
def InSlots (names : String → Option Binding) : Prop :=
  ∀ name binding, names name = some binding → binding.slot.toNat < slotLimit

section Parts

variable {a : Assembly} {b : Bytecode} {x y : Nat} {stack : Shape}

theorem flows_literal (hb : Linked a b) {value : Literal} (h : value.Laid b x y) :
    Flows b x y stack (value.ty.onto stack) (fun _ => True) fun _ => True := by
  cases value with
  | int value => exact Flows.on hb h .pushInt fun _ hz => hz
  | double value => exact Flows.on hb h .pushDouble fun _ hz => hz
  | boolean value => exact Flows.on hb h .pushInt fun _ hz => hz
  | string value =>
    obtain ⟨index, hat, _⟩ := h
    exact Flows.on hb hat .pushString fun _ hz => hz

theorem flows_convert (hb : Linked a b) {source target : Ty} (ha : source.Adapts target)
    (h : Ty.Converted b source target x y) :
    Flows b x y (source.onto stack) (target.onto stack) (fun _ => True) fun _ => True := by
  rcases ha with rfl | ⟨hs, ht⟩
  · obtain rfl : x = y := by cases source <;> exact h
    exact Flows.nil
  rcases Ty.kind_of_numeric hs with ⟨rfl, _⟩ | ⟨rfl, _⟩ <;>
    rcases Ty.kind_of_numeric ht with ⟨rfl, _⟩ | ⟨rfl, _⟩
  · cases h
    exact Flows.nil
  · exact Flows.on hb h .intToDouble fun _ hz => hz
  · exact Flows.on hb h .doubleToInt fun _ hz => hz
  · cases h
    exact Flows.nil

theorem flows_drop (hb : Linked a b) {ty : Ty} (ha : ty ≠ .any) (h : ty.Dropped b x y) :
    Flows b x y (ty.onto stack) stack (fun _ => True) fun _ => True := by
  unfold Ty.Dropped at h
  split at h
  · rename_i hv
    subst hv h
    exact Flows.nil
  · rename_i hv
    obtain ⟨kind, hk⟩ := Ty.exists_kind hv ha
    rw [Ty.onto_of_kind hk]
    exact Flows.on hb h .pop fun _ hz => hz

theorem flows_arith (hb : Linked a b) {op : ArithOp} {ty : Ty} (ht : ty.isNumeric = true)
    (h : b.At x (.plain (Expr.arithOpcode op ty)) y) :
    Flows b x y (ty.onto (ty.onto stack)) (ty.onto stack) (fun _ => True) fun _ => True := by
  rcases Ty.kind_of_numeric ht with ⟨rfl, _⟩ | ⟨rfl, _⟩
  · exact Flows.on hb h .intArith fun _ hz => hz
  · exact Flows.on hb h .doubleArith fun _ hz => hz

theorem flows_negate (hb : Linked a b) {ty : Ty} (ht : ty.isNumeric = true)
    (h : b.At x (.plain (if ty = .double then .doubleNegate else .intNegate)) y) :
    Flows b x y (ty.onto stack) (ty.onto stack) (fun _ => True) fun _ => True := by
  rcases Ty.kind_of_numeric ht with ⟨rfl, _⟩ | ⟨rfl, _⟩
  · exact Flows.on hb h .intNegate fun _ hz => hz
  · exact Flows.on hb h .doubleNegate fun _ hz => hz

end Parts

variable {a : Assembly} {b : Bytecode} {names : String → Option Binding}

/-- Code for an expression leaves what its goal asks for, on any stack. -/
theorem Expr.Laid.flows (hb : Linked a b) (hn : InSlots names) {e : Expr} {goal : Goal} {x y : Nat}
    (hl : e.Laid b goal x y) {ty : Ty} (ht : e.Typed names ty) (hs : goal.Suits ty) (stack : Shape) :
    Flows b x y stack (goal.leaves ty stack) (goal.Expects stack) fun _ => True := by
  induction hl generalizing ty stack with
  | literal pushed =>
    cases ht with
    | literal => exact flows_literal hb pushed
  | truth goes => exact Flows.goto hb goes stack
  | untruth stays => exact Flows.nil
  | var typed kinded loads =>
    cases ht with
    | var known kinded' marked =>
      obtain rfl := Option.some.inj (typed.symm.trans marked)
      rw [Goal.leaves, Ty.onto_of_kind kinded]
      exact Flows.on hb loads (.load (hn _ _ known)) fun _ hz => hz
  | negate typed inner negates ih =>
    cases ht with
    | negate he numeric marked =>
      obtain rfl := Option.some.inj (typed.symm.trans marked)
      exact (ih he trivial stack).append (flows_negate hb numeric negates)
  | not inner ih =>
    cases ht with
    | not he => exact ih he rfl stack
  | arith typed typedRight left right converts applies ihl ihr =>
    cases ht with
    | arith hl hright promotes marked =>
      obtain rfl := Option.some.inj (typed.symm.trans marked)
      obtain rfl := Option.some.inj (typedRight.symm.trans hright.ty?_eq)
      obtain ⟨rfl, numeric, numericRight⟩ := Ty.eq_of_promote promotes
      have operands := (ihl hl trivial stack).append (ihr hright trivial _)
      have converted := operands.append
        (flows_convert hb (.inr ⟨numericRight, numeric⟩) converts)
      exact converted.append (flows_arith hb numeric applies)
  | bit left right applies ihl ihr =>
    cases ht with
    | bit hl hright =>
      have operands := (ihl hl trivial stack).append (ihr hright trivial _)
      exact operands.append (Flows.on hb applies .bit fun _ hz => hz)
  | bothJump decisive left right ihl ihr =>
    cases ht with
    | logic hl hright =>
      exact (ihl hl rfl stack).trans (ihr hright rfl stack) fun _ _ _ _ he => ⟨he, he⟩
  | leftSkips other left right ihl ihr =>
    cases ht with
    | logic hl hright =>
      exact (ihl hl rfl stack).trans (ihr hright rfl stack) fun _ _ _ hy he => ⟨hy, he⟩
  | compareDoubles typed left right compares tests ihl ihr =>
    cases ht with
    | compare hl hright =>
      obtain rfl := Option.some.inj (typed.symm.trans hl.ty?_eq)
      have operands := (ihl hl trivial stack).append (ihr hright trivial _)
      have order := operands.append (Flows.on hb compares .compare fun _ hz => hz)
      exact order.trans (Flows.branch hb tests .zero nofun) fun _ _ _ _ he => ⟨trivial, he⟩
  | @compareInts _ relation _ _ ty' target onTrue x u v y typed notDouble left right tests ihl ihr =>
    cases ht with
    | compare hl hright comparable =>
      obtain rfl := Option.some.inj (typed.symm.trans hl.ty?_eq)
      have hk := comparable.kind_int notDouble
      have operands := (ihl hl trivial stack).append (ihr hright trivial _)
      rw [Goal.leaves, Goal.leaves, Ty.onto_of_kind hk, Ty.onto_of_kind hk] at operands
      exact operands.trans (Flows.branch hb tests .ints nofun) fun _ _ _ _ he => ⟨trivial, he⟩
  | assign typed kinded right copies stores ih =>
    cases ht with
    | assign target value =>
      cases target with
      | var known kinded' marked =>
        obtain rfl := Option.some.inj (typed.symm.trans marked)
        have held := ih value trivial stack
        rw [Goal.leaves, Ty.onto_of_kind kinded] at held ⊢
        have twice := held.append (Flows.on hb copies .dup fun _ hz => hz)
        exact twice.append (Flows.on hb stores (.store (hn _ _ known)) fun _ hz => hz)
  | concat left right joins ihl ihr =>
    cases ht with
    | concat hl hright leftValue rightValue =>
      obtain ⟨_, hkl⟩ := Ty.exists_kind leftValue hl.ne_any
      obtain ⟨_, hkr⟩ := Ty.exists_kind rightValue hright.ne_any
      have operands := (ihl hl trivial stack).append (ihr hright trivial _)
      rw [Goal.leaves, Goal.leaves, Ty.onto_of_kind hkl, Ty.onto_of_kind hkr] at operands
      exact operands.append (Flows.on hb joins .concat fun _ hz => hz)
  | ternary typed typedTrue typedFalse condition whenTrue convertsTrue leaves whenFalse convertsFalse
      ihc iht ihf =>
    cases ht with
    | ternary hc hT hF joins marked =>
      obtain rfl := Option.some.inj (typed.symm.trans marked)
      obtain rfl := Option.some.inj (typedTrue.symm.trans hT.ty?_eq)
      obtain rfl := Option.some.inj (typedFalse.symm.trans hF.ty?_eq)
      obtain ⟨adaptsTrue, adaptsFalse⟩ := joins.adapts
      have ofTrue := (iht hT trivial stack).append (flows_convert hb adaptsTrue convertsTrue)
      have ofFalse := (ihf hF trivial stack).append (flows_convert hb adaptsFalse convertsFalse)
      have taken := (ihc hc rfl stack).trans ofTrue fun _ _ _ _ he => ⟨he, trivial⟩
      -- The second branch begins where the condition jumps, with the stack from before it.
      have left := taken.trans (Flows.goto hb leaves stack)
        fun _ _ _ hotherwise he => ⟨hotherwise, he⟩
      exact left.trans ofFalse fun _ _ _ hy _ => ⟨hy, trivial⟩
  | guarded typedTrue condition whenTrue drops ihc iht =>
    cases ht with
    | guarded hc hT =>
      obtain rfl := Option.some.inj (typedTrue.symm.trans hT.ty?_eq)
      have ofTrue := (iht hT trivial stack).append (flows_drop hb hT.ne_any drops)
      exact (ihc hc rfl stack).trans ofTrue fun _ _ _ hy _ => ⟨hy, trivial⟩
  | tested valued value tests ih =>
    obtain rfl : ty = .boolean := hs
    exact (ih ht trivial stack).trans (Flows.branch hb tests .zero nofun)
      fun _ _ _ _ he => ⟨trivial, he⟩
  | materialized decides condition one leaves zero ih =>
    obtain rfl : ty = .boolean := ht.boolean_of_decides decides
    have ofTrue := (ih ht rfl stack).trans (Flows.on hb one .pushInt fun _ hz => hz)
      fun _ _ _ _ he => ⟨he, trivial⟩
    have left := ofTrue.trans (Flows.goto hb leaves stack) fun _ _ _ hfalse he => ⟨hfalse, he⟩
    exact left.trans (Flows.on hb zero .pushInt fun _ hz => hz)
      fun _ _ _ hy _ => ⟨hy, trivial⟩

end BlockLang
