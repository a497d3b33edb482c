import BlockLang.Proofs.Evaluator.Expr
import BlockLang.Proofs.Layout.Expr
import BlockLang.Proofs.Simulation.Follows
import BlockLang.Proofs.Typing.Expr

namespace BlockLang

open Machine

/-- Loads and stores of slots are the reads and writes of a store, in the relation `R` of stores
and locals; the faults of a store are those of the machine. -/
structure Implements {σ ε : Type} (b : Bytecode) (access : Access σ ε)
    (names : String → Option Binding) (fails : ε → State → Prop)
    (R : σ → Array (Option Value) → Prop) : Prop where
  back : Backward b fails
  divides : ∀ s address, step b s = .error (.divisionByZero address) →
    fails access.divisionByZero s
  reads : ∀ {x y name binding kind store stack locals printed}, names name = some binding →
    binding.ty.kind? = some kind → b.At x (.access (.load kind) binding.slot) y →
    R store locals →
    Follows b fails (access.read name (some binding.slot) (some binding.ty) store)
      ⟨x, stack, locals, printed⟩
      fun value t => value.kind = kind ∧ t = ⟨y, value :: stack, locals, printed⟩
  writes : ∀ {x y name binding value store stack locals printed}, names name = some binding →
    binding.ty.kind? = some value.kind → b.At x (.access (.store value.kind) binding.slot) y →
    R store locals →
    Follows b fails (access.write name (some binding.slot) (some binding.ty) value store)
      ⟨x, value :: stack, locals, printed⟩
      fun store t => ∃ locals, R store locals ∧ t = ⟨y, stack, locals, printed⟩

/-- The type of an expression whose value decides a jump. -/
def Goal.Suits : Goal → Ty → Prop
  | .value, _ => True
  | .jump _ _, ty => ty = .boolean

/-- The machine has done with a value what the goal asks for, and the store is as the locals are. -/
def Goal.Met {σ : Type} (R : σ → Array (Option Value) → Prop) (goal : Goal) (y : Nat) (ty : Ty)
    (stack : Stack) (printed : Array String) (result : Option Value × σ) (t : State) : Prop :=
  ∃ locals, R result.2 locals ∧ result.1.map Value.kind = ty.kind? ∧
    match goal with
    | .value => t = ⟨y, result.1.toList ++ stack, locals, printed⟩
    | .jump target onTrue => ∃ value holds, result.1 = some value ∧ value.truth? = some holds ∧
      t = ⟨if holds = onTrue then target else y, stack, locals, printed⟩

@[simp] theorem Value.truth?_ofBool (holds : Bool) : (Value.ofBool holds).truth? = some holds := by
  cases holds <;> rfl

theorem Value.eq_int {value : Value} (h : value.kind = .int) : ∃ n, value = .int n := by
  cases value <;> cases h
  exact ⟨_, rfl⟩

theorem Value.eq_double {value : Value} (h : value.kind = .double) : ∃ d, value = .double d := by
  cases value <;> cases h
  exact ⟨_, rfl⟩

theorem Ty.kind_of_numeric {ty : Ty} (h : ty.isNumeric = true) :
    (ty = .int ∧ ty.kind? = some .int) ∨ (ty = .double ∧ ty.kind? = some .double) := by
  cases ty <;> cases h
  · exact .inl ⟨rfl, rfl⟩
  · exact .inr ⟨rfl, rfl⟩

theorem Ty.exists_kind_of_numeric {ty : Ty} (h : ty.isNumeric = true) :
    ∃ kind, ty.kind? = some kind :=
  (Ty.kind_of_numeric h).elim (fun h => ⟨_, h.2⟩) fun h => ⟨_, h.2⟩

theorem Ty.exists_kind {ty : Ty} (hv : ty ≠ .void) (ha : ty ≠ .any) :
    ∃ kind, ty.kind? = some kind := by
  cases ty with
  | void => exact absurd rfl hv
  | any => exact absurd rfl ha
  | _ => exact ⟨_, rfl⟩

/-- What is compared, and is not two doubles, is two ints. -/
theorem Relation.Compares.kind_int {relation : Relation} {ty : Ty} (h : relation.Compares ty)
    (hd : ty ≠ .double) : ty.kind? = some .int := by
  rcases h with hn | ⟨_, rfl⟩
  · exact (Ty.kind_of_numeric hn).elim (fun h => h.2) fun h => absurd h.1 hd
  · rfl

/-- A relation and its opposite are decided alike, one to jump and one to fall through. -/
theorem Relation.onInts_opposite (relation : Relation) (a b : Int32) :
    relation.opposite.onInts a b = !relation.onInts a b := by
  rw [Bool.eq_iff_iff]
  cases relation <;> simp [Relation.opposite, Relation.onInts, Int32.not_lt, Int32.not_le]

theorem Relation.onInts_jump (relation : Relation) (onTrue : Bool) (a b : Int32) :
    (if onTrue then relation else relation.opposite).onInts a b =
      (relation.onInts a b == onTrue) := by
  cases onTrue
  · simp [Relation.onInts_opposite]
  · simp

/-- The instruction that compares doubles is chosen so that what is not a number fails every
relation but being unequal, also where the opposite relation is tested. -/
theorem Relation.onOrder_jump (relation : Relation) (onTrue : Bool) (a b : Double) :
    (if onTrue then relation else relation.opposite).onInts
      (Double.sign (relation = .less ∨ relation = .lessEqual) a b) 0 =
      (relation.onOrder (a.compare? b) == onTrue) := by
  unfold Double.sign
  cases a.compare? b with
  | none => cases relation <;> cases onTrue <;> decide
  | some order => cases order <;> cases relation <;> cases onTrue <;> decide

section Parts

variable {σ ε : Type} {b : Bytecode} {access : Access σ ε} {names : String → Option Binding}
  {fails : ε → State → Prop} {R : σ → Array (Option Value) → Prop} {x y : Nat} {stack : Stack}
  {locals : Array (Option Value)} {printed : Array String}

/-- A needed value is on top of the stack. -/
theorem Machine.Follows.needed {result : Except ε (Option Value × σ)} {s : State} {ty : Ty}
    {kind : Kind} (hb : Backward b fails) (hk : ty.kind? = some kind)
    (h : Follows b fails result s (Goal.value.Met R y ty stack printed)) :
    Follows b fails (access.needed result) s fun r t => r.1.kind = kind ∧
      ∃ locals, R r.2 locals ∧ t = ⟨y, r.1 :: stack, locals, printed⟩ := by
  refine h.bind hb ?_
  intro r t hmet
  obtain ⟨value?, store⟩ := r
  obtain ⟨locals, hr, hkind, ht⟩ := hmet
  cases value? with
  | none =>
    rw [hk] at hkind
    cases hkind
  | some value =>
    have hv : value.kind = kind := Option.some.inj (hkind.trans hk)
    exact follows_ok ⟨hv, locals, hr, ht⟩

/-- A condition has gone where it is wanted. -/
theorem Machine.Follows.decided {result : Except ε (Option Value × σ)} {s : State} {target : Nat}
    {onTrue : Bool} {ty : Ty}
    (h : Follows b fails result s ((Goal.jump target onTrue).Met R y ty stack printed)) :
    Follows b fails (access.decided result) s fun r t =>
      ∃ locals, R r.2 locals ∧
        t = ⟨if r.1 = onTrue then target else y, stack, locals, printed⟩ := by
  cases result with
  | error e => exact h
  | ok r =>
    obtain ⟨value?, store⟩ := r
    obtain ⟨n, t, hs, locals, hr, _, value, holds, rfl, ht, rfl⟩ := h
    simp only [Access.decided, Access.needed, Except.bind, Except.map, Access.orStuck, ht]
    exact ⟨n, _, hs, locals, hr, rfl⟩

/-- The value of a condition decides a jump on whether it is zero. -/
theorem Machine.Follows.tested {result : Except ε (Option Value × σ)} {s : State} {u target : Nat}
    {onTrue : Bool}
    (h : Follows b fails result s (Goal.value.Met R u .boolean stack printed))
    (tests : b.At u (.jump (.onTruth onTrue) target) y) :
    Follows b fails result s ((Goal.jump target onTrue).Met R y .boolean stack printed) := by
  refine h.onward ?_
  intro r _ _ hmet
  obtain ⟨value?, store⟩ := r
  obtain ⟨locals, hr, hk, rfl⟩ := hmet
  obtain ⟨value, rfl, hv⟩ := Option.map_eq_some_iff.mp hk
  obtain ⟨n, rfl⟩ := Value.eq_int hv
  refine follows_step (tests.step_jump rfl) ⟨locals, hr, rfl, _, decide (n ≠ 0), rfl, rfl, ?_⟩
  cases onTrue <;> simp [Relation.onInts]

theorem follows_literal (value : Literal) {store : σ} (h : value.Laid b x y)
    (hr : R store locals) :
    Follows b fails (.ok (some value.value, store)) ⟨x, stack, locals, printed⟩
      (Goal.value.Met R y value.ty stack printed) := by
  cases value with
  | int value => exact follows_step h.step_pushInt ⟨locals, hr, rfl, rfl⟩
  | double value => exact follows_step h.step_pushDouble ⟨locals, hr, rfl, rfl⟩
  | boolean value => exact follows_step h.step_pushInt ⟨locals, hr, rfl, rfl⟩
  | string value =>
    obtain ⟨index, hat, htext⟩ := h
    exact follows_step (hat.step_pushString htext) ⟨locals, hr, rfl, rfl⟩

/-- Types of which one is converted to the other: they are the same, or both are numbers. -/
def Ty.Adapts (source target : Ty) : Prop :=
  source = target ∨ (source.isNumeric = true ∧ target.isNumeric = true)

theorem Ty.Joins.adapts {ofTrue ofFalse ty : Ty} (h : Ty.Joins ofTrue ofFalse ty) :
    ofTrue.Adapts ty ∧ ofFalse.Adapts ty := by
  rcases h with ⟨rfl, rfl⟩ | h
  · exact ⟨.inl rfl, .inl rfl⟩
  · obtain ⟨rfl, ht, hf⟩ := Ty.eq_of_promote h
    exact ⟨.inl rfl, .inr ⟨hf, ht⟩⟩

theorem Value.convert_of_kind {ty : Ty} {value : Value} (h : ty.kind? = some value.kind) :
    value.convert ty = value := by
  cases value <;> cases ty <;> first | rfl | cases h

/-- Converting leaves a value of the wanted type in place of the other. -/
theorem steps_convert {source target : Ty} {value? : Option Value} (ha : source.Adapts target)
    (h : Ty.Converted b source target x y) (hk : value?.map Value.kind = source.kind?)
    (stack : Stack) (locals : Array (Option Value)) (printed : Array String) :
    (value?.map (Value.convert target)).map Value.kind = target.kind? ∧
    ∃ n, Steps b n ⟨x, value?.toList ++ stack, locals, printed⟩
      ⟨y, (value?.map (Value.convert target)).toList ++ stack, locals, printed⟩ := by
  have hstay : source = target → x = y →
      (value?.map (Value.convert target)).map Value.kind = target.kind? ∧
      ∃ n, Steps b n ⟨x, value?.toList ++ stack, locals, printed⟩
        ⟨y, (value?.map (Value.convert target)).toList ++ stack, locals, printed⟩ := by
    intro hty hxy
    subst hty hxy
    cases value? with
    | none => exact ⟨hk, 0, rfl⟩
    | some value =>
      rw [Option.map_some, Value.convert_of_kind hk.symm]
      exact ⟨hk, 0, rfl⟩
  rcases ha with rfl | ⟨hs, ht⟩
  · refine hstay rfl ?_
    cases source <;> exact h
  rcases Ty.kind_of_numeric hs with ⟨rfl, hks⟩ | ⟨rfl, hks⟩ <;>
    rcases Ty.kind_of_numeric ht with ⟨rfl, hkt⟩ | ⟨rfl, hkt⟩
  · exact hstay rfl h
  · rw [hks] at hk
    obtain ⟨value, rfl, hv⟩ := Option.map_eq_some_iff.mp hk
    obtain ⟨n, rfl⟩ := Value.eq_int hv
    exact ⟨rfl, 1, _, (h.step_plain nofun nofun).trans rfl, rfl⟩
  · rw [hks] at hk
    obtain ⟨value, rfl, hv⟩ := Option.map_eq_some_iff.mp hk
    obtain ⟨d, rfl⟩ := Value.eq_double hv
    exact ⟨rfl, 1, _, (h.step_plain nofun nofun).trans rfl, rfl⟩
  · exact hstay rfl h

theorem Access.arith_convert {op : ArithOp} {ty : Ty} {a c : Value} (ht : ty.isNumeric = true)
    (ha : ty.kind? = some a.kind) : access.arith op a (c.convert ty) = access.arith op a c := by
  rcases Ty.kind_of_numeric ht with ⟨rfl, hk⟩ | ⟨rfl, hk⟩
  · obtain ⟨n, rfl⟩ := Value.eq_int (Option.some.inj (hk.symm.trans ha)).symm
    cases c <;> rfl
  · obtain ⟨d, rfl⟩ := Value.eq_double (Option.some.inj (hk.symm.trans ha)).symm
    cases c <;> rfl

/-- The arithmetic of the machine on ints is that of the evaluation. -/
theorem Access.ints_eq (op : ArithOp) (m n : Int32) : Access.arith.ints access op m n =
    match op.onInts m n with
    | some value => .ok (.int value)
    | none => .error access.divisionByZero := by
  cases op with
  | divide | modulo =>
    simp only [arith.ints, ArithOp.onInts]
    split <;> rfl
  | _ => rfl

theorem Access.doubles_eq (op : ArithOp) (m n : Double) :
    Access.arith.doubles op m n = op.onDoubles m n := by
  cases op <;> rfl

theorem Value.bits?_ints (op : BitOp) (m n : Int32) :
    Value.bits? op (.int m) (.int n) = some (.int (op.onInts m n)) := by
  cases op <;> rfl

theorem Relation.onValues?_ints (relation : Relation) (m n : Int32) :
    relation.onValues? (.int m) (.int n) = some (relation.onInts m n) := by
  cases relation <;> rfl

theorem follows_arith (hi : Implements b access names fails R) {op : ArithOp} {ty : Ty} {a c : Value}
    (ht : ty.isNumeric = true) (ha : ty.kind? = some a.kind) (hc : ty.kind? = some c.kind)
    (h : b.At x (.plain (Expr.arithOpcode op ty)) y) :
    Follows b fails (access.arith op a c) ⟨x, c :: a :: stack, locals, printed⟩ fun value t =>
      ty.kind? = some value.kind ∧ t = ⟨y, value :: stack, locals, printed⟩ := by
  rcases Ty.kind_of_numeric ht with ⟨rfl, hk⟩ | ⟨rfl, hk⟩
  · obtain ⟨m, rfl⟩ := Value.eq_int (Option.some.inj (hk.symm.trans ha)).symm
    obtain ⟨n, rfl⟩ := Value.eq_int (Option.some.inj (hk.symm.trans hc)).symm
    rw [Access.arith, Access.ints_eq]
    cases hop : op.onInts m n with
    | some value =>
      refine follows_step ((h.step_plain nofun nofun).trans ?_) ⟨rfl, rfl⟩
      simp [Expr.arithOpcode, applyOp, popInts, popInt, pop, hop, Bind.bind, Pure.pure, Except.bind,
        Except.pure, Except.map]
    | none =>
      refine hi.divides _ x ((h.step_plain nofun nofun).trans ?_)
      simp [Expr.arithOpcode, applyOp, popInts, popInt, pop, hop, Bind.bind, Pure.pure, Except.bind,
        Except.pure, Except.map, throw, throwThe, MonadExceptOf.throw]
  · obtain ⟨m, rfl⟩ := Value.eq_double (Option.some.inj (hk.symm.trans ha)).symm
    obtain ⟨n, rfl⟩ := Value.eq_double (Option.some.inj (hk.symm.trans hc)).symm
    rw [Access.arith, Access.doubles_eq]
    exact follows_step ((h.step_plain nofun nofun).trans rfl) ⟨rfl, rfl⟩

theorem follows_negate {ty : Ty} {value : Value} (ht : ty.isNumeric = true)
    (hv : ty.kind? = some value.kind)
    (h : b.At x (.plain (if ty = .double then .doubleNegate else .intNegate)) y) :
    Follows b fails (access.orStuck value.negate?) ⟨x, value :: stack, locals, printed⟩
      fun value t => ty.kind? = some value.kind ∧ t = ⟨y, value :: stack, locals, printed⟩ := by
  rcases Ty.kind_of_numeric ht with ⟨rfl, hk⟩ | ⟨rfl, hk⟩
  · obtain ⟨n, rfl⟩ := Value.eq_int (Option.some.inj (hk.symm.trans hv)).symm
    exact follows_step ((h.step_plain nofun nofun).trans rfl) ⟨rfl, rfl⟩
  · obtain ⟨d, rfl⟩ := Value.eq_double (Option.some.inj (hk.symm.trans hv)).symm
    exact follows_step ((h.step_plain nofun nofun).trans rfl) ⟨rfl, rfl⟩

/-- The value is dropped if there is one. -/
theorem steps_drop {ty : Ty} {value? : Option Value} (hk : value?.map Value.kind = ty.kind?)
    (ha : ty ≠ .any) (h : ty.Dropped b x y) (stack : Stack) (locals : Array (Option Value))
    (printed : Array String) :
    ∃ n, Steps b n ⟨x, value?.toList ++ stack, locals, printed⟩ ⟨y, stack, locals, printed⟩ := by
  unfold Ty.Dropped at h
  split at h
  · rename_i hv
    subst hv h
    cases value? with
    | none => exact ⟨0, rfl⟩
    | some value => cases hk
  · rename_i hv
    obtain ⟨kind, hkind⟩ := Ty.exists_kind hv ha
    rw [hkind] at hk
    obtain ⟨value, rfl, _⟩ := Option.map_eq_some_iff.mp hk
    exact ⟨1, _, (h.step_plain nofun nofun).trans rfl, rfl⟩

/-- What is found by jumping is one or zero. -/
theorem Expr.eval_decides {e : Expr} (hd : e.decides = true) {store store' : σ}
    {value? : Option Value} (h : e.eval access store = .ok (value?, store')) :
    ∃ holds, value? = some (.ofBool holds) := by
  have hmap : ∀ {result : Except ε (Bool × σ)} {f : Bool → Bool},
      (result.map fun r => (some (Value.ofBool (f r.1)), r.2)) = .ok (value?, store') →
        ∃ holds, value? = some (.ofBool holds) := by
    intro result f h
    cases result with
    | error e => cases h
    | ok r =>
      cases h
      exact ⟨_, rfl⟩
  cases e with
  | unary _ op e =>
    cases op <;> cases hd
    exact hmap (f := not) h
  | binary _ op l r =>
    cases op <;> cases hd
    · rename_i op
      simp only [Expr.eval] at h
      cases hl : access.decided (l.eval access store) with
      | error e =>
        rw [hl] at h
        cases h
      | ok left =>
        simp only [hl, Except.bind] at h
        split at h
        · cases h
          exact ⟨_, rfl⟩
        · exact hmap (f := id) h
    · rename_i relation
      simp only [Expr.eval] at h
      cases hl : access.needed (l.eval access store) with
      | error e =>
        rw [hl] at h
        cases h
      | ok left =>
        simp only [hl, Except.bind] at h
        cases hr : access.needed (r.eval access left.2) with
        | error e =>
          rw [hr] at h
          cases h
        | ok right =>
          simp only [hr] at h
          cases ho : access.orStuck (relation.onValues? left.1 right.1) with
          | error e =>
            rw [ho] at h
            cases h
          | ok holds =>
            rw [ho] at h
            cases h
            exact ⟨_, rfl⟩
  | _ => cases hd

theorem Expr.Typed.boolean_of_decides {e : Expr} {ty : Ty} (ht : e.Typed names ty)
    (hd : e.decides = true) : ty = .boolean := by
  cases ht <;> first | rfl | cases hd

end Parts

/-- Between two addresses the machine follows an expression of a type, for a goal: from any stack, any
output, and any store with the locals that keep it. -/
def Expr.Followed {σ ε : Type} (b : Bytecode) (access : Access σ ε) (fails : ε → State → Prop)
    (R : σ → Array (Option Value) → Prop) (e : Expr) (goal : Goal) (x y : Nat) (ty : Ty) : Prop :=
  ∀ store locals, R store locals → ∀ stack printed,
    Follows b fails (e.eval access store) ⟨x, stack, locals, printed⟩ (goal.Met R y ty stack printed)

namespace Expr.Followed

variable {σ ε : Type} {b : Bytecode} {access : Access σ ε} {names : String → Option Binding}
  {fails : ε → State → Prop} {R : σ → Array (Option Value) → Prop} {mark : Mark} {e l r : Expr}
  {ty ofLeft ofRight : Ty} {goal : Goal} {target u v w x y z : Nat} {onTrue : Bool}

/-- Two operands are evaluated one behind the other, and then both are on the stack. -/
theorem operands {α : Type} {kindLeft kindRight : Kind} {behind : Value × σ → Except ε α}
    {both : Value → Value × σ → Except ε α} {P : α → State → Prop}
    (hi : Implements b access names fails R)
    (hl : l.Followed b access fails R .value x u ofLeft) (hkl : ofLeft.kind? = some kindLeft)
    (hr : r.Followed b access fails R .value u v ofRight) (hkr : ofRight.kind? = some kindRight)
    {store : σ} {locals : Array (Option Value)} (hkept : R store locals) (stack : Stack)
    (printed : Array String)
    (hbehind : ∀ a store, behind (a, store) = (access.needed (r.eval access store)).bind (both a))
    (hboth : ∀ a c store locals, a.kind = kindLeft → c.kind = kindRight → R store locals →
      Follows b fails (both a (c, store)) ⟨v, c :: a :: stack, locals, printed⟩ P) :
    Follows b fails ((access.needed (l.eval access store)).bind behind) ⟨x, stack, locals, printed⟩
      P := by
  refine ((hl store locals hkept stack printed).needed hi.back hkl).bind hi.back ?_
  rintro ⟨a, store⟩ _ ⟨ha, locals, hkept, rfl⟩
  rw [hbehind]
  refine ((hr store locals hkept (a :: stack) printed).needed hi.back hkr).bind hi.back ?_
  rintro ⟨c, store⟩ _ ⟨hc, locals, hkept, rfl⟩
  exact hboth a c store locals ha hc hkept

theorem literal {value : Literal} (pushed : value.Laid b x y) :
    (Expr.literal mark value).Followed b access fails R .value x y value.ty :=
  fun _ _ hkept _ _ => follows_literal value pushed hkept

theorem truth {value : Bool} (goes : b.At x (.jump .goto target) y) :
    (Expr.literal mark (.boolean value)).Followed b access fails R (.jump target value) x y
      .boolean := by
  intro store locals hkept stack printed
  refine follows_step goes.step_goto ⟨locals, hkept, rfl, .ofBool value, value, rfl, by simp, ?_⟩
  rw [if_pos rfl]

theorem untruth {value : Bool} (stays : value ≠ onTrue) :
    (Expr.literal mark (.boolean value)).Followed b access fails R (.jump target onTrue) x x
      .boolean := by
  intro store locals hkept stack printed
  refine follows_ok ⟨locals, hkept, rfl, .ofBool value, value, rfl, by simp, ?_⟩
  rw [if_neg stays]

theorem var (hi : Implements b access names fails R) {name : String} {binding : Binding} {kind : Kind}
    (known : names name = some binding) (kinded : binding.ty.kind? = some kind)
    (marked : mark.ty = some binding.ty) (loads : b.At x (.access (.load kind) binding.slot) y) :
    (Expr.var mark name (some binding.slot)).Followed b access fails R .value x y binding.ty := by
  intro store locals hkept stack printed
  simp only [Expr.eval, marked]
  refine (hi.reads known kinded loads hkept).map ?_
  rintro value _ ⟨hv, rfl⟩
  exact follows_ok ⟨locals, hkept, by simp [hv, kinded], rfl⟩

theorem negate (hi : Implements b access names fails R) (numeric : ty.isNumeric = true)
    (inner : e.Followed b access fails R .value x u ty)
    (negates : b.At u (.plain (if ty = .double then .doubleNegate else .intNegate)) y) :
    (unary mark .negate e).Followed b access fails R .value x y ty := by
  intro store locals hkept stack printed
  obtain ⟨_, hk⟩ := Ty.exists_kind_of_numeric numeric
  refine ((inner store locals hkept stack printed).needed hi.back hk).bind hi.back ?_
  rintro ⟨value, store⟩ _ ⟨rfl, locals, hkept, rfl⟩
  refine (follows_negate numeric hk negates).map ?_
  rintro value _ ⟨hv, rfl⟩
  exact follows_ok ⟨locals, hkept, hv.symm, rfl⟩

theorem not (inner : e.Followed b access fails R (.jump target (!onTrue)) x y .boolean) :
    (unary mark .not e).Followed b access fails R (.jump target onTrue) x y .boolean := by
  intro store locals hkept stack printed
  refine (inner store locals hkept stack printed).decided.map ?_
  rintro ⟨holds, store⟩ _ ⟨locals, hkept, rfl⟩
  refine follows_ok ⟨locals, hkept, rfl, _, !holds, rfl, by simp, ?_⟩
  congr 1
  cases holds <;> simp

theorem arith (hi : Implements b access names fails R) {op : ArithOp}
    (left : l.Followed b access fails R .value x u ty) (numeric : ty.isNumeric = true)
    (right : r.Followed b access fails R .value u v ofRight) (numericRight : ofRight.isNumeric = true)
    (converts : Ty.Converted b ofRight ty v w) (applies : b.At w (.plain (arithOpcode op ty)) y) :
    (binary mark (.arith op) l r).Followed b access fails R .value x y ty := by
  intro store locals hkept stack printed
  obtain ⟨_, hkl⟩ := Ty.exists_kind_of_numeric numeric
  obtain ⟨_, hkr⟩ := Ty.exists_kind_of_numeric numericRight
  refine left.operands hi hkl right hkr hkept stack printed (fun _ _ => rfl) ?_
  rintro a c store locals rfl rfl hkept
  have hkc : (some c).map Value.kind = ofRight.kind? := hkr.symm
  obtain ⟨hkc, n, hsteps⟩ :=
    steps_convert (.inr ⟨numericRight, numeric⟩) converts hkc (a :: stack) locals printed
  refine Follows.steps hi.back hsteps ?_
  dsimp only
  rw [← access.arith_convert numeric hkl]
  refine (follows_arith hi numeric hkl hkc.symm applies).map ?_
  rintro value _ ⟨hv, rfl⟩
  exact follows_ok ⟨locals, hkept, hv.symm, rfl⟩

theorem bit (hi : Implements b access names fails R) {op : BitOp}
    (left : l.Followed b access fails R .value x u .int)
    (right : r.Followed b access fails R .value u v .int) (applies : b.At v (.plain (.bit op)) y) :
    (binary mark (.bit op) l r).Followed b access fails R .value x y .int := by
  intro store locals hkept stack printed
  refine left.operands hi rfl right rfl hkept stack printed (fun _ _ => rfl) ?_
  intro a c store locals ha hc hkept
  obtain ⟨m, rfl⟩ := Value.eq_int ha
  obtain ⟨n, rfl⟩ := Value.eq_int hc
  dsimp only
  rw [Value.bits?_ints]
  exact follows_step ((applies.step_plain nofun nofun).trans rfl) ⟨locals, hkept, rfl, rfl⟩

/-- The first operand of a connective has jumped elsewhere if it is decisive, and otherwise the second
one is what counts. -/
theorem logic (hi : Implements b access names fails R) {op : LogicOp} {decided : Nat}
    (left : l.Followed b access fails R (.jump decided (decide (op = .or))) x u .boolean)
    (right : r.Followed b access fails R (.jump target onTrue) u y .boolean)
    (goes : decided = if decide (op = .or) = onTrue then target else y) :
    (binary mark (.logic op) l r).Followed b access fails R (.jump target onTrue) x y .boolean := by
  intro store locals hkept stack printed
  refine (left store locals hkept stack printed).decided.bind hi.back ?_
  rintro ⟨holds, store⟩ _ ⟨locals, hkept, rfl⟩
  dsimp only
  by_cases h : holds = decide (op = .or)
  · rw [if_pos h, if_pos h, goes, ← h]
    exact follows_ok ⟨locals, hkept, rfl, _, holds, rfl, by simp, rfl⟩
  · rw [if_neg h, if_neg h]
    refine (right store locals hkept stack printed).decided.map ?_
    rintro ⟨holds, store⟩ _ ⟨locals, hkept, rfl⟩
    exact follows_ok ⟨locals, hkept, rfl, _, holds, rfl, by simp, rfl⟩

theorem compareDoubles (hi : Implements b access names fails R) {relation : Relation}
    (left : l.Followed b access fails R .value x u .double)
    (right : r.Followed b access fails R .value u v .double)
    (compares : b.At v (.plain (.compare (relation = .less ∨ relation = .lessEqual))) w)
    (tests : b.At w (.jump (.zero (if onTrue then relation else relation.opposite)) target) y) :
    (binary mark (.compare relation) l r).Followed b access fails R (.jump target onTrue) x y
      .boolean := by
  intro store locals hkept stack printed
  refine left.operands hi rfl right rfl hkept stack printed (fun _ _ => rfl) ?_
  intro a c store locals ha hc hkept
  obtain ⟨m, rfl⟩ := Value.eq_double ha
  obtain ⟨n, rfl⟩ := Value.eq_double hc
  refine Follows.step hi.back ((compares.step_plain nofun nofun).trans rfl) ?_
  refine follows_step (tests.step_jump rfl) ⟨locals, hkept, rfl, _,
    relation.onOrder (m.compare? n), rfl, by simp, ?_⟩
  rw [Relation.onOrder_jump]
  simp

theorem compareInts (hi : Implements b access names fails R) {relation : Relation}
    (hk : ty.kind? = some .int) (left : l.Followed b access fails R .value x u ty)
    (right : r.Followed b access fails R .value u v ty)
    (tests : b.At v (.jump (.ints (if onTrue then relation else relation.opposite)) target) y) :
    (binary mark (.compare relation) l r).Followed b access fails R (.jump target onTrue) x y
      .boolean := by
  intro store locals hkept stack printed
  refine left.operands hi hk right hk hkept stack printed (fun _ _ => rfl) ?_
  intro a c store locals ha hc hkept
  obtain ⟨m, rfl⟩ := Value.eq_int ha
  obtain ⟨n, rfl⟩ := Value.eq_int hc
  dsimp only
  rw [Relation.onValues?_ints]
  refine follows_step (tests.step_jump rfl) ⟨locals, hkept, rfl, _, relation.onInts m n, rfl,
    by simp, ?_⟩
  rw [Relation.onInts_jump]
  simp

theorem assign (hi : Implements b access names fails R) {varMark : Mark} {name : String}
    {binding : Binding} {kind : Kind} (known : names name = some binding)
    (kinded : binding.ty.kind? = some kind) (marked : varMark.ty = some binding.ty)
    (right : r.Followed b access fails R .value x u binding.ty) (copies : b.At u (.plain .dup) v)
    (stores : b.At v (.access (.store kind) binding.slot) y) :
    (binary mark .assign (.var varMark name (some binding.slot)) r).Followed b access fails R .value
      x y binding.ty := by
  intro store locals hkept stack printed
  simp only [Expr.eval, marked]
  refine ((right store locals hkept stack printed).needed hi.back kinded).bind hi.back ?_
  rintro ⟨a, store⟩ _ ⟨rfl, locals, hkept, rfl⟩
  refine Follows.step hi.back ((copies.step_plain nofun nofun).trans rfl) ?_
  refine (hi.writes known kinded stores hkept).map ?_
  rintro store _ ⟨locals, hkept, rfl⟩
  exact follows_ok ⟨locals, hkept, kinded.symm, rfl⟩

theorem concat (hi : Implements b access names fails R) {kindLeft kindRight : Kind}
    (left : l.Followed b access fails R .value x u ofLeft) (hkl : ofLeft.kind? = some kindLeft)
    (right : r.Followed b access fails R .value u v ofRight) (hkr : ofRight.kind? = some kindRight)
    (joins : b.At v (.plain .concat) y) :
    (Expr.concat mark l r).Followed b access fails R .value x y .string := by
  intro store locals hkept stack printed
  refine ((left store locals hkept stack printed).needed hi.back hkl).bind hi.back ?_
  rintro ⟨a, store⟩ _ ⟨_, locals, hkept, rfl⟩
  refine ((right store locals hkept (a :: stack) printed).needed hi.back hkr).map ?_
  rintro ⟨c, store⟩ _ ⟨_, locals, hkept, rfl⟩
  exact follows_step ((joins.step_plain nofun nofun).trans rfl) ⟨locals, hkept, rfl, rfl⟩

/-- A branch gives its value in the type of the whole. -/
theorem converted (adapts : ofLeft.Adapts ty)
    (branch : l.Followed b access fails R .value x u ofLeft)
    (converts : Ty.Converted b ofLeft ty u y) {store : σ} {locals : Array (Option Value)}
    (hkept : R store locals) (stack : Stack) (printed : Array String) :
    Follows b fails ((l.eval access store).map fun (value?, store) => (value?.map (.convert ty), store))
      ⟨x, stack, locals, printed⟩ (Goal.value.Met R y ty stack printed) := by
  refine (branch store locals hkept stack printed).map ?_
  rintro ⟨value?, store⟩ _ ⟨locals, hkept, hk, rfl⟩
  obtain ⟨hk, n, hsteps⟩ := steps_convert adapts converts hk stack locals printed
  exact ⟨n, _, hsteps, locals, hkept, hk, rfl⟩

theorem ternary (hi : Implements b access names fails R) {c t f : Expr} {ofTrue ofFalse : Ty}
    {otherwise : Nat} (typed : mark.ty = some ty) (joins : Ty.Joins ofTrue ofFalse ty)
    (condition : c.Followed b access fails R (.jump otherwise false) x u .boolean)
    (whenTrue : t.Followed b access fails R .value u v ofTrue)
    (convertsTrue : Ty.Converted b ofTrue ty v w) (leaves : b.At w (.jump .goto y) otherwise)
    (whenFalse : f.Followed b access fails R .value otherwise z ofFalse)
    (convertsFalse : Ty.Converted b ofFalse ty z y) :
    (Expr.ternary mark c t f).Followed b access fails R .value x y ty := by
  intro store locals hkept stack printed
  obtain ⟨adaptsTrue, adaptsFalse⟩ := joins.adapts
  refine (condition store locals hkept stack printed).decided.bind hi.back ?_
  rintro ⟨holds, store⟩ _ ⟨locals, hkept, rfl⟩
  simp only [typed, Option.getD_some]
  cases holds with
  | true =>
    refine (whenTrue.converted adaptsTrue convertsTrue hkept stack printed).onward ?_
    rintro ⟨value?, store⟩ _ _ ⟨locals, hkept, hk, rfl⟩
    exact follows_step leaves.step_goto ⟨locals, hkept, hk, rfl⟩
  | false => exact whenFalse.converted adaptsFalse convertsFalse hkept stack printed

theorem guarded (hi : Implements b access names fails R) {c t : Expr} {ofTrue : Ty}
    (notAny : ofTrue ≠ .any) (condition : c.Followed b access fails R (.jump y false) x u .boolean)
    (whenTrue : t.Followed b access fails R .value u v ofTrue) (drops : ofTrue.Dropped b v y) :
    (Expr.guarded mark c t).Followed b access fails R .value x y .void := by
  intro store locals hkept stack printed
  refine (condition store locals hkept stack printed).decided.bind hi.back ?_
  rintro ⟨holds, store⟩ _ ⟨locals, hkept, rfl⟩
  cases holds with
  | true =>
    refine (whenTrue store locals hkept stack printed).map ?_
    rintro ⟨value?, store⟩ _ ⟨locals, hkept, hk, rfl⟩
    obtain ⟨n, hsteps⟩ := steps_drop hk notAny drops stack locals printed
    exact ⟨n, _, hsteps, locals, hkept, rfl, rfl⟩
  | false => exact follows_ok ⟨locals, hkept, rfl, rfl⟩

theorem tested (value : e.Followed b access fails R .value x u .boolean)
    (tests : b.At u (.jump (.onTruth onTrue) target) y) :
    e.Followed b access fails R (.jump target onTrue) x y .boolean :=
  fun store locals hkept stack printed => (value store locals hkept stack printed).tested tests

theorem materialized (hi : Implements b access names fails R) {isFalse : Nat}
    (decides : e.decides = true)
    (condition : e.Followed b access fails R (.jump isFalse false) x u .boolean)
    (one : b.At u (.pushInt 1) v) (leaves : b.At v (.jump .goto y) isFalse)
    (zero : b.At isFalse (.pushInt 0) y) : e.Followed b access fails R .value x y .boolean := by
  intro store locals hkept stack printed
  refine (condition store locals hkept stack printed).onward ?_
  rintro ⟨value?, store⟩ _ hresult ⟨locals, hkept, hk, value, holds, rfl, htruth, rfl⟩
  obtain ⟨holds', hvalue⟩ := Expr.eval_decides decides hresult
  obtain rfl := Option.some.inj hvalue
  obtain rfl : holds' = holds := by simpa using htruth
  cases holds' with
  | true =>
    refine Follows.step hi.back one.step_pushInt ?_
    exact follows_step leaves.step_goto ⟨locals, hkept, rfl, rfl⟩
  | false => exact follows_step zero.step_pushInt ⟨locals, hkept, rfl, rfl⟩

end Expr.Followed

namespace Expr

variable {σ ε : Type} {b : Bytecode} {access : Access σ ε} {names : String → Option Binding}
  {fails : ε → State → Prop} {R : σ → Array (Option Value) → Prop} {e : Expr} {goal : Goal}
  {x y : Nat} {ty : Ty}

/-- What is laid out for a well typed expression follows it, part by part. -/
theorem Laid.followed (hi : Implements b access names fails R) (hl : e.Laid b goal x y)
    (ht : e.Typed names ty) (hs : goal.Suits ty) : e.Followed b access fails R goal x y ty := by
  induction hl generalizing ty with
  | literal pushed =>
    cases ht with
    | literal => exact .literal pushed
  | truth goes =>
    cases ht with
    | literal => exact .truth goes
  | untruth stays =>
    cases ht with
    | literal => exact .untruth stays
  | var typed kinded loads =>
    cases ht with
    | var known kinded' marked =>
      obtain rfl := Option.some.inj (typed.symm.trans marked)
      exact .var hi known kinded marked loads
  | negate typed inner negates ih =>
    cases ht with
    | negate he numeric marked =>
      obtain rfl := Option.some.inj (typed.symm.trans marked)
      exact .negate hi numeric (ih he trivial) negates
  | not inner ih =>
    cases ht with
    | not he => exact .not (ih he rfl)
  | arith typed typedRight left right converts applies ihl ihr =>
    cases ht with
    | arith hl hright promotes marked =>
      obtain rfl := Option.some.inj (typed.symm.trans marked)
      obtain rfl := Option.some.inj (typedRight.symm.trans hright.ty?_eq)
      obtain ⟨rfl, numeric, numericRight⟩ := Ty.eq_of_promote promotes
      exact .arith hi (ihl hl trivial) numeric (ihr hright trivial) numericRight converts applies
  | bit left right applies ihl ihr =>
    cases ht with
    | bit hl hright => exact .bit hi (ihl hl trivial) (ihr hright trivial) applies
  | bothJump decisive left right ihl ihr =>
    cases ht with
    | logic hl hright =>
      refine .logic hi (decisive ▸ ihl hl rfl) (ihr hright rfl) ?_
      rw [if_pos decisive.symm]
  | leftSkips other left right ihl ihr =>
    cases ht with
    | logic hl hright =>
      refine .logic hi (ihl hl rfl) (ihr hright rfl) ?_
      rw [if_neg fun h => other h.symm]
  | compareDoubles typed left right compares tests ihl ihr =>
    cases ht with
    | compare hl hright =>
      obtain rfl := Option.some.inj (typed.symm.trans hl.ty?_eq)
      exact .compareDoubles hi (ihl hl trivial) (ihr hright trivial) compares tests
  | compareInts typed notDouble left right tests ihl ihr =>
    cases ht with
    | compare hl hright comparable =>
      obtain rfl := Option.some.inj (typed.symm.trans hl.ty?_eq)
      exact .compareInts hi (comparable.kind_int notDouble) (ihl hl trivial) (ihr hright trivial) tests
  | assign typed kinded right copies stores ih =>
    cases ht with
    | assign target value =>
      cases target with
      | var known kinded' marked =>
        obtain rfl := Option.some.inj (typed.symm.trans marked)
        exact .assign hi known kinded marked (ih value trivial) copies stores
  | concat left right joins ihl ihr =>
    cases ht with
    | concat hl hright leftValue rightValue =>
      obtain ⟨_, hkl⟩ := Ty.exists_kind leftValue hl.ne_any
      obtain ⟨_, hkr⟩ := Ty.exists_kind rightValue hright.ne_any
      exact .concat hi (ihl hl trivial) hkl (ihr hright trivial) hkr joins
  | ternary typed typedTrue typedFalse condition whenTrue convertsTrue leaves whenFalse convertsFalse
      ihc iht ihf =>
    cases ht with
    | ternary hc hT hF joins marked =>
      obtain rfl := Option.some.inj (typed.symm.trans marked)
      obtain rfl := Option.some.inj (typedTrue.symm.trans hT.ty?_eq)
      obtain rfl := Option.some.inj (typedFalse.symm.trans hF.ty?_eq)
      exact .ternary hi typed joins (ihc hc rfl) (iht hT trivial) convertsTrue leaves (ihf hF trivial)
        convertsFalse
  | guarded typedTrue condition whenTrue drops ihc iht =>
    cases ht with
    | guarded hc hT =>
      obtain rfl := Option.some.inj (typedTrue.symm.trans hT.ty?_eq)
      exact .guarded hi hT.ne_any (ihc hc rfl) (iht hT trivial) drops
  | tested valued value tests ih =>
    obtain rfl : ty = .boolean := hs
    exact .tested (ih ht trivial) tests
  | materialized decides condition one leaves zero ih =>
    obtain rfl : ty = .boolean := ht.boolean_of_decides decides
    exact .materialized hi decides (ih ht rfl) one leaves zero

/-- What an expression means, its code does, for every goal. -/
theorem Laid.follows (hi : Implements b access names fails R) (hl : e.Laid b goal x y)
    (ht : e.Typed names ty) (hs : goal.Suits ty) {store : σ} {locals : Array (Option Value)}
    (hr : R store locals) (stack : Stack) {printed : Array String} :
    Follows b fails (e.eval access store) ⟨x, stack, locals, printed⟩
      (goal.Met R y ty stack printed) :=
  hl.followed hi ht hs store locals hr stack printed

end Expr

end BlockLang
