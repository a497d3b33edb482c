import BlockLang.Proofs.Generation.Expr

namespace BlockLang

namespace Emit

variable {α β : Type} {x : Emit α} {f : α → Emit β} {P Q : Prop}

/-- Wherever `x` succeeds, `P` holds. -/
def Demands (x : Emit α) (P : Prop) : Prop :=
  ∀ a v a', x a = (.ok v, a') → P

theorem Demands.mono (h : Demands x P) (hi : P → Q) : Demands x Q :=
  fun a v a' hx => hi (h a v a' hx)

/-- A sequence succeeds only where both of its parts do. -/
theorem Demands.bind (hx : Demands x P) (hf : ∀ v, Demands (f v) Q) : Demands (x >>= f) (P ∧ Q) := by
  intro a w a' h
  rw [bind_apply] at h
  rcases hxa : x a with ⟨_ | v, m⟩ <;> rw [hxa] at h
  · cases h
  · exact ⟨hx a v m hxa, hf v m w a' h⟩

theorem demands_any (x : Emit α) : Demands x True :=
  fun _ _ _ _ => trivial

/-- What the first part of a sequence demands. -/
theorem Demands.first (h : Demands x P) : Demands (x >>= f) P :=
  (h.bind fun v => demands_any (f v)).mono And.left

/-- What the rest of a sequence demands. -/
theorem Demands.next (h : ∀ v, Demands (f v) P) : Demands (x >>= f) P :=
  ((demands_any x).bind h).mono And.right

theorem demands_unresolved (line : Nat) : Demands (unresolved line : Emit α) P := by
  intro a v a' h
  cases h

theorem demands_typed {e : Expr} {f : Ty → Emit α}
    (h : ∀ ty, e.ty? = some ty → ty ≠ .any → Demands (f ty) P) :
    Demands (e.resolvedTy >>= f) P := by
  unfold Expr.resolvedTy
  split
  · exact (demands_unresolved e.line).first
  · exact (demands_unresolved e.line).first
  · rename_i ty hany hty
    rw [pure_bind]
    exact h ty hty hany

theorem demands_resolvedTy (e : Expr) : Demands e.resolvedTy e.mark.Resolved := by
  rw [← bind_pure e.resolvedTy]
  exact demands_typed fun ty hty hany _ _ _ _ => ⟨ty, hty, hany⟩

/-- Only a resolved variable has a slot to access. -/
theorem demands_slotAccess (e : Expr) (op : Kind → LocalOp) :
    Demands (e.slotAccess op) (e.isVariable = true ∧ e.Resolved) := by
  refine demands_typed fun ty hty hany => ?_
  split
  · rename_i kind slot hkind hslot
    intro _ _ _ _
    cases e with
    | var mark name place =>
      refine ⟨rfl, ⟨ty, hty, hany⟩, ?_, ?_⟩
      · intro hvoid
        obtain rfl : ty = .void := Option.some.inj (hty.symm.trans hvoid)
        cases hkind
      · intro hnone
        rw [Expr.slot?, hnone] at hslot
        cases hslot
    | _ => cases hslot
  · exact demands_unresolved e.line

theorem demands_deliverCondition {condition : Label → Bool → Emit Unit} (want : Want)
    (h : ∀ target onTrue, Demands (condition target onTrue) P) :
    Demands (Expr.deliverCondition condition want) P := by
  cases want with
  | jump target onTrue => exact h target onTrue
  | value => exact .next fun isFalse => .next fun _ => (h isFalse false).first

/-- The right condition is passed over by a run, but never by the code for it. -/
theorem demands_both (op : LogicOp) {lhs rhs : Label → Bool → Emit Unit} (target : Label)
    (onTrue : Bool) (hl : ∀ target onTrue, Demands (lhs target onTrue) P)
    (hr : ∀ target onTrue, Demands (rhs target onTrue) Q) :
    Demands (Expr.both op lhs rhs target onTrue) (P ∧ Q) := by
  unfold Expr.both
  dsimp only
  split
  · exact (hl target onTrue).bind fun _ => hr target onTrue
  · exact .next fun skip => (hl skip _).bind fun _ => (hr target onTrue).first

/-- Code for an expression demands that it is resolved, whatever the code is to do. -/
theorem demands_code (e : Expr) (want : Want) : Demands (e.code want) e.Resolved := by
  induction e generalizing want with
  | literal mark value =>
    rw [Expr.code]
    exact (demands_resolvedTy (.literal mark value)).first
  | var mark name slot =>
    rw [Expr.code]
    exact .next fun _ => (demands_slotAccess (.var mark name slot) .load).first.mono And.right
  | unary mark op operand ih =>
    rw [Expr.code]
    refine (demands_resolvedTy (.unary mark op operand)).bind fun _ => ?_
    cases op with
    | negate => exact (ih .value).first
    | not => exact demands_deliverCondition want fun target onTrue => ih (.jump target !onTrue)
  | binary mark op l r ihl ihr =>
    rw [Expr.code]
    refine (demands_resolvedTy (.binary mark op l r)).bind fun _ => ?_
    cases op with
    | arith op | bit op =>
      refine Demands.mono ?_ (And.intro (by simp))
      exact (ihl .value).bind fun _ => (ihr .value).first
    | logic op =>
      refine Demands.mono ?_ (And.intro (by simp))
      exact demands_deliverCondition want fun target onTrue =>
        demands_both op target onTrue (fun t b => ihl (.jump t b)) fun t b => ihr (.jump t b)
    | compare relation =>
      refine Demands.mono ?_ (And.intro (by simp))
      exact demands_deliverCondition want fun _ _ => (ihl .value).bind fun _ => (ihr .value).first
    | assign =>
      refine Demands.mono ((demands_slotAccess l .store).bind fun _ => (ihr .value).first) ?_
      rintro ⟨⟨isVariable, left⟩, right⟩
      exact ⟨fun _ => isVariable, left, right⟩
  | concat mark l r ihl ihr =>
    rw [Expr.code]
    exact (demands_resolvedTy (.concat mark l r)).bind fun _ =>
      (ihl .value).bind fun _ => (ihr .value).first
  | ternary mark c t f ihc iht ihf =>
    rw [Expr.code]
    refine (demands_resolvedTy (.ternary mark c t f)).bind fun ty => .next fun otherwise => ?_
    refine (ihc (.jump otherwise false)).bind fun _ => (iht .value).bind fun _ => ?_
    refine .next fun _ => .next fun _ => .next fun done => .next fun _ => .next fun _ => ?_
    exact (ihf .value).first
  | guarded mark c t ihc iht =>
    rw [Expr.code]
    refine (demands_resolvedTy (.guarded mark c t)).bind fun _ => .next fun otherwise => ?_
    exact (ihc (.jump otherwise false)).bind fun _ => (iht .value).first

end Emit

/-- Code that leaves a value or goes to a label is made only for an expression that is resolved; and for
one that is, if there is the label, nothing fails but the size of the code. -/
theorem Expr.code_resolved (e : Expr) (want : Want) (a : Assembly) :
    ((e.code want a).1 = .ok () → e.Resolved) ∧
      (e.Resolved → (∀ label ∈ want.targets, label.number < a.labels.size) →
        ∀ error, (e.code want a).1 = .error error →
          ∃ reason : AssemblyError, reason.OfSize ∧ error = .assembly reason) := by
  constructor
  · intro h
    exact Emit.demands_code e want a () (e.code want a).2 (Prod.ext h rfl)
  · intro hresolved known error h
    have hends := Emit.tidy_code e want a known
    unfold Emit.Ends at hends
    split at hends
    · rename_i hrun
      rw [hrun] at h
      cases h
    · rename_i hrun
      rw [hrun] at h
      cases h
      cases hends with
      | size large => exact ⟨_, large, rfl⟩
      | unresolved line missed => exact absurd hresolved missed

/-- A conjunction of two variables, as a condition that goes to the only label there is. -/
theorem Expr.code_resolved_and :
    let e : Expr := .binary ⟨1, some .boolean⟩ (.logic .and) (.var ⟨1, some .boolean⟩ "b" (some 0))
      (.var ⟨1, some .boolean⟩ "c" (some 1))
    let a := Assembly.empty.newLabel.2
    (∀ label ∈ (Want.jump ⟨0⟩ true).targets, label.number < a.labels.size) ∧
      (e.code (.jump ⟨0⟩ true) a).1 = .ok () ∧ e.Resolved := by
  intro e a
  have known : ∀ label ∈ (Want.jump ⟨0⟩ true).targets, label.number < a.labels.size :=
    List.forall_mem_singleton.mpr (by decide)
  exact ⟨known, rfl, (Expr.code_resolved e (.jump ⟨0⟩ true) a).1 rfl⟩

/-- What stands behind a condition that decides is not run, yet no code is made without its slot. -/
example :
    ((Expr.binary ⟨1, some .boolean⟩ (.logic .or) (.literal ⟨1, some .boolean⟩ (.boolean true))
      (.var ⟨2, some .boolean⟩ "c" none)).emitValue .empty).1 = .error (.unresolved 2) :=
  rfl

end BlockLang
