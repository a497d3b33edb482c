import BlockLang.Expr.Code
import BlockLang.Proofs.Emit

namespace BlockLang

/-- The errors that only say that a program is too large. -/
inductive AssemblyError.OfSize : AssemblyError → Prop
  | branchTooFar (origin goal : Nat) : OfSize (.branchTooFar origin goal)
  | tooManyStrings : OfSize .tooManyStrings
  | stringTooLong (size : Nat) : OfSize (.stringTooLong size)
  | codeTooLarge (size : Nat) : OfSize (.codeTooLarge size)

/-- The errors of code for a tree: those of its size, and where something may be `missing` from the
tree, that it is. -/
inductive CodeError.Expected (missing : Prop) : CodeError → Prop
  | size {error : AssemblyError} (large : error.OfSize) : Expected missing (.assembly error)
  | unresolved (line : Nat) (missed : missing) : Expected missing (.unresolved line)

/-- A node has a type, which is not that of a mistake. -/
def Mark.Resolved (mark : Mark) : Prop :=
  ∃ ty, mark.ty = some ty ∧ ty ≠ .any

/-- Every node has a type, every variable a slot and a type with values, and what is assigned to is a
variable. -/
def Expr.Resolved : Expr → Prop
  | literal mark _ => mark.Resolved
  | var mark _ slot => mark.Resolved ∧ mark.ty ≠ some .void ∧ slot ≠ none
  | unary mark _ e => mark.Resolved ∧ e.Resolved
  | binary mark op l r =>
    mark.Resolved ∧ (op = .assign → l.isVariable = true) ∧ l.Resolved ∧ r.Resolved
  | concat mark l r => mark.Resolved ∧ l.Resolved ∧ r.Resolved
  | ternary mark c t f => mark.Resolved ∧ c.Resolved ∧ t.Resolved ∧ f.Resolved
  | guarded mark c t => mark.Resolved ∧ c.Resolved ∧ t.Resolved

theorem CodeError.Expected.mono {p q : Prop} {error : CodeError} (h : error.Expected p)
    (hpq : p → q) : error.Expected q := by
  cases h with
  | size large => exact .size large
  | unresolved line missed => exact .unresolved line (hpq missed)

/-- A place is refused only to a string that is too long, or one too many. -/
theorem StringTable.place_error {table : StringTable} {text : String} {error : AssemblyError}
    (h : (table.place text).1 = .error error) : error.OfSize := by
  rcases hp : table.place text with ⟨result, table'⟩
  obtain rfl : result = .error error := by rw [← h, hp]
  cases places_of_place hp with
  | tooLong new long => exact .stringTooLong _
  | full new short many => exact .tooManyStrings

namespace Expr

theorem Resolved.mark {e : Expr} (h : e.Resolved) : e.mark.Resolved := by
  cases e with
  | literal => exact h
  | _ => exact h.1

theorem Resolved.operand {mark : Mark} {op : UnaryOp} {e : Expr}
    (h : (unary mark op e).Resolved) : e.Resolved :=
  h.2

variable {mark : Mark} {op : BinaryOp} {l r : Expr}

theorem Resolved.lhs (h : (binary mark op l r).Resolved) : l.Resolved :=
  h.2.2.1

theorem Resolved.rhs (h : (binary mark op l r).Resolved) : r.Resolved :=
  h.2.2.2

end Expr

/-- The label that is gone to. -/
def Want.targets : Want → List Label
  | .value => []
  | .jump target _ => [target]

namespace Assembly

/-- From `a` to `a'` labels were created, of which those in `loose` are not bound. The labels of `a`
are as they were. -/
structure Leaves (a : Assembly) (loose : List Label) (a' : Assembly) : Prop where
  count : a.labels.size ≤ a'.labels.size
  created : ∀ l ∈ loose, a.labels.size ≤ l.number
  unbound : ∀ n : Nat, a'.labels[n]? = some none ↔ a.labels[n]? = some none ∨ ⟨n⟩ ∈ loose

variable {a m a' : Assembly} {loose : List Label} {label : Label}

theorem Leaves.refl (a : Assembly) : a.Leaves [] a :=
  ⟨Nat.le_refl _, by simp, by simp⟩

theorem Leaves.trans (h : a.Leaves loose m) (h' : m.Leaves [] a') : a.Leaves loose a' := by
  refine ⟨Nat.le_trans h.count h'.count, h.created, fun n => ?_⟩
  rw [h'.unbound, h.unbound]
  simp

theorem Leaves.swap {other : Label} (h : a.Leaves (label :: other :: loose) a') :
    a.Leaves (other :: label :: loose) a' := by
  refine ⟨h.count, ?_, fun n => ?_⟩
  · intro l hl
    apply h.created
    simp only [List.mem_cons] at hl ⊢
    exact or_left_comm.mp hl
  · rw [h.unbound]
    simp only [List.mem_cons]
    exact or_congr_right or_left_comm

/-- An action that leaves the labels alone. -/
theorem leaves_of_labels (h : a'.labels = a.labels) : a.Leaves [] a' := by
  refine ⟨Nat.le_of_eq (by rw [h]), by simp, ?_⟩
  simp [h]

/-- A new label is not bound, and is not among those left unbound before. -/
theorem Leaves.newLabel (h : a.Leaves loose m) :
    m.newLabel.1 ∉ loose ∧ a.Leaves (m.newLabel.1 :: loose) m.newLabel.2 := by
  have hlast : m.labels[m.labels.size]? = none := Array.getElem?_eq_none (Nat.le_refl _)
  constructor
  · intro hl
    have hloose := (h.unbound m.labels.size).mpr (.inr hl)
    rw [hlast] at hloose
    cases hloose
  · refine ⟨?_, ?_, fun n => ?_⟩
    · have hcount := h.count
      simp only [Assembly.newLabel, Array.size_push]
      omega
    · intro l hl
      rcases List.mem_cons.mp hl with rfl | hl
      · exact h.count
      · exact h.created l hl
    · have hold := h.unbound n
      simp only [Assembly.newLabel, Array.getElem?_push, List.mem_cons, Label.mk.injEq]
      by_cases hn : n = m.labels.size
      · simp [hn]
      · simpa [hn] using hold

theorem Leaves.lt (h : a.Leaves loose m) (hl : label ∈ loose) :
    label.number < m.labels.size :=
  (Array.getElem?_eq_some_iff.mp ((h.unbound label.number).mpr (.inr hl))).1

/-- A label that was left unbound can be bound. -/
theorem Leaves.bind (h : a.Leaves (label :: loose) m) (hl : label ∉ loose) :
    ∃ a', m.bind label = (.ok (), a') ∧ a.Leaves loose a' ∧ label.number < a'.labels.size := by
  have hnone : m.labels[label.number]? = some none :=
    (h.unbound label.number).mpr (.inr List.mem_cons_self)
  have hlt := h.lt List.mem_cons_self
  refine ⟨_, by rw [Assembly.bind, hnone], ⟨?_, ?_, fun n => ?_⟩, by simpa using hlt⟩
  · simpa using h.count
  · exact fun l hm => h.created l (List.mem_cons_of_mem _ hm)
  · have hold := h.unbound n
    simp only [Array.getElem?_setIfInBounds]
    by_cases hn : label.number = n
    · subst hn
      have hnew := h.created label List.mem_cons_self
      have hnot : a.labels[label.number]? ≠ some none := by
        rw [Array.getElem?_eq_none hnew]
        simp
      simp [hlt, hnot, hl]
    · have hne : (⟨n⟩ : Label) ≠ label := fun he => hn (congrArg Label.number he).symm
      simpa [hn, hne] using hold

end Assembly

namespace Emit

variable {α β : Type} {missing : Prop} {targets : List Label}

/-- From `a` on, `x` comes to a result and an assembly that are as said, or fails as expected. -/
def Ends (missing : Prop) (x : Emit α) (a : Assembly) (Q : α → Assembly → Prop) : Prop :=
  match x a with
  | (.ok v, a') => Q v a'
  | (.error error, _) => error.Expected missing

/-- Where the targets exist, `x` binds every label that it creates and no other. -/
def Tidy (missing : Prop) (targets : List Label) (x : Emit α) : Prop :=
  ∀ a : Assembly, (∀ l ∈ targets, l.number < a.labels.size) →
    Ends missing x a fun _ a' => a.Leaves [] a'

theorem Ends.bind {x : Emit α} {f : α → Emit β} {a : Assembly} {P : α → Assembly → Prop}
    {Q : β → Assembly → Prop} (hx : Ends missing x a P)
    (hf : ∀ v a', P v a' → Ends missing (f v) a' Q) : Ends missing (x >>= f) a Q := by
  unfold Ends at hx ⊢
  rw [bind_apply]
  rcases hr : x a with ⟨_ | v, a'⟩
  · simpa [hr] using hx
  · rw [hr] at hx
    exact hf v a' hx

theorem Ends.mono {x : Emit α} {a : Assembly} {P Q : α → Assembly → Prop}
    (h : Ends missing x a P) (hi : ∀ v a', P v a' → Q v a') : Ends missing x a Q := by
  unfold Ends at h ⊢
  rcases hr : x a with ⟨error | v, a'⟩ <;> rw [hr] at h
  · exact h
  · exact hi v a' h

theorem Tidy.mono {p : Prop} {x : Emit α} (h : Tidy p targets x) (hp : p → missing) :
    Tidy missing targets x := by
  intro a ha
  have hends := h a ha
  unfold Ends at hends ⊢
  rcases hr : x a with ⟨error | v, a'⟩ <;> rw [hr] at hends
  · exact hends.mono hp
  · exact hends

theorem Tidy.widen {targets' : List Label} {x : Emit α} (h : Tidy missing targets x)
    (ht : ∀ l ∈ targets, l ∈ targets') : Tidy missing targets' x :=
  fun a ha => h a fun l hl => ha l (ht l hl)

theorem Tidy.bind {x : Emit α} {f : α → Emit β} (hx : Tidy missing targets x)
    (hf : ∀ v, Tidy missing targets (f v)) : Tidy missing targets (x >>= f) := by
  intro a ha
  refine (hx a ha).bind ?_
  intro v m hm
  have hfv := hf v m fun l hl => Nat.lt_of_lt_of_le (ha l hl) hm.count
  exact hfv.mono fun _ _ => hm.trans

/-- What is tidy leaves the labels around it as they are. -/
theorem Tidy.ends {x : Emit α} {a m : Assembly} {loose : List Label} (h : Tidy missing targets x)
    (hm : a.Leaves loose m) (known : ∀ l ∈ targets, l ∈ loose ∨ l.number < a.labels.size) :
    Ends missing x m fun _ a' => a.Leaves loose a' := by
  have hends := h m fun l hl => by
    rcases known l hl with hloose | hlt
    · exact hm.lt hloose
    · exact Nat.lt_of_lt_of_le hlt hm.count
  exact hends.mono fun _ _ => hm.trans

/-- What is tidy on its own goes on with the labels around it as they are. -/
theorem Tidy.next {x : Emit α} {f : α → Emit β} {a m : Assembly} {loose : List Label}
    {Q : β → Assembly → Prop} (h : Tidy missing [] x) (hm : a.Leaves loose m)
    (hf : ∀ v a', a.Leaves loose a' → Ends missing (f v) a' Q) : Ends missing (x >>= f) m Q :=
  (h.ends hm (by simp)).bind hf

theorem ends_newLabel {a m : Assembly} {loose : List Label} (h : a.Leaves loose m) :
    Ends missing newLabel m fun l a' => l ∉ loose ∧ a.Leaves (l :: loose) a' :=
  h.newLabel

theorem ends_bind_known {a m : Assembly} {label : Label} {loose : List Label}
    (h : a.Leaves (label :: loose) m) (hl : label ∉ loose) :
    Ends missing (bind label) m fun _ a' => a.Leaves loose a' ∧ label.number < a'.labels.size := by
  obtain ⟨a', hb, ha'⟩ := h.bind hl
  simp only [Ends, Emit.bind, act, hb]
  exact ha'

theorem ends_bind {a m : Assembly} {label : Label} {loose : List Label}
    (h : a.Leaves (label :: loose) m) (hl : label ∉ loose) :
    Ends missing (bind label) m fun _ a' => a.Leaves loose a' :=
  (ends_bind_known h hl).mono fun _ _ => And.left

theorem tidy_pure (v : α) : Tidy missing targets (pure v) :=
  fun a _ => .refl a

theorem tidy_unresolved (line : Nat) (h : missing) :
    Tidy missing targets (unresolved line : Emit α) :=
  fun _ _ => .unresolved line h

theorem tidy_push (i : Instruction Label) : Tidy missing targets (push i) :=
  fun _ _ => Assembly.leaves_of_labels rfl

theorem tidy_op (o : Opcode) : Tidy missing targets (op o) :=
  tidy_push _

theorem tidy_access (o : LocalOp) (slot : UInt16) : Tidy missing targets (access o slot) :=
  fun _ _ => Assembly.leaves_of_labels rfl

theorem tidy_reserve (count : Nat) : Tidy missing targets (reserve count) :=
  fun _ _ => Assembly.leaves_of_labels rfl

theorem tidy_jump (branch : Branch) {label : Label} (h : label ∈ targets) :
    Tidy missing targets (jump branch label) := by
  intro a ha
  simp only [Ends, jump, act, Assembly.jump, if_pos (ha label h)]
  exact Assembly.leaves_of_labels rfl

theorem ends_jump (branch : Branch) {label : Label} {a m : Assembly} {loose : List Label}
    (hm : a.Leaves loose m) (h : label ∈ loose) :
    Ends missing (jump branch label) m fun _ a' => a.Leaves loose a' := by
  have hj : Tidy missing [label] (jump branch label) := tidy_jump branch List.mem_cons_self
  apply hj.ends hm
  intro l hl
  rw [List.mem_singleton.mp hl]
  exact .inl h

theorem tidy_pushString (text : String) : Tidy missing targets (pushString text) := by
  intro a _
  obtain ⟨entries, labels, address, table, maxLocals⟩ := a
  rcases hp : table.place text with ⟨error | place, table'⟩
  · simp only [Ends, pushString, act, Assembly.pushString, hp]
    exact .size (StringTable.place_error (congrArg Prod.fst hp))
  · simp only [Ends, pushString, act, Assembly.pushString, hp]
    exact Assembly.leaves_of_labels rfl

/-- What goes to no label from outside is tidy whatever the labels are. -/
theorem Tidy.inside {x : Emit α} (h : Tidy missing [] x) : Tidy missing targets x :=
  h.widen (by simp)

/-- Code that begins with a look at a type. -/
theorem tidy_typed {e : Expr} {f : Ty → Emit α} (hm : ¬ e.mark.Resolved → missing)
    (hf : ∀ ty, e.ty? = some ty → Tidy missing targets (f ty)) :
    Tidy missing targets (e.resolvedTy >>= f) := by
  unfold Expr.resolvedTy
  split
  · rename_i hty
    refine fun _ _ => .unresolved e.line (hm ?_)
    intro hr
    obtain ⟨ty, h, _⟩ := hr
    rw [Expr.ty?, h] at hty
    cases hty
  · rename_i hty
    refine fun _ _ => .unresolved e.line (hm ?_)
    intro hr
    obtain ⟨ty, h, hany⟩ := hr
    rw [Expr.ty?, h] at hty
    exact hany (Option.some.inj hty)
  · rename_i ty _ hty
    rw [pure_bind]
    exact hf ty hty

theorem tidy_resolvedTy {e : Expr} (hm : ¬ e.mark.Resolved → missing) :
    Tidy missing targets e.resolvedTy := by
  rw [← bind_pure e.resolvedTy]
  exact tidy_typed hm fun ty _ => tidy_pure ty

theorem tidy_slotAccess (e : Expr) (op : Kind → LocalOp) :
    Tidy (¬ (e.Resolved ∧ e.isVariable = true)) targets (e.slotAccess op) := by
  refine tidy_typed (mt fun h => h.1.mark) fun ty hty => ?_
  split
  · exact tidy_pure _
  · rename_i hno
    refine tidy_unresolved e.line ?_
    intro h
    obtain ⟨hr, hv⟩ := h
    cases e with
    | var mark name slot =>
      obtain ⟨⟨ty', hty', hany⟩, hvoid, hslot⟩ := hr
      obtain ⟨slot, rfl⟩ := Option.ne_none_iff_exists'.mp hslot
      obtain rfl : ty' = ty := Option.some.inj (hty'.symm.trans hty)
      cases ty' with
      | any => exact hany rfl
      | void => exact hvoid hty'
      | _ => exact hno _ _ rfl rfl
    | _ => cases hv

theorem tidy_convert (source target : Ty) :
    Tidy missing targets (Expr.convert source target) := by
  unfold Expr.convert
  split
  · exact tidy_op _
  · exact tidy_op _
  · exact tidy_pure ()

theorem tidy_pushLiteral (value : Literal) : Tidy missing targets (Expr.pushLiteral value) := by
  cases value with
  | string value => exact tidy_pushString value
  | _ => exact tidy_push _

theorem tidy_deliver (want : Want) : Tidy missing want.targets (Expr.deliver want) := by
  cases want with
  | value => exact tidy_pure ()
  | jump target onTrue => exact tidy_jump _ List.mem_cons_self

theorem tidy_deliverCondition {condition : Label → Bool → Emit Unit} (want : Want)
    (h : ∀ target onTrue, Tidy missing [target] (condition target onTrue)) :
    Tidy missing want.targets (Expr.deliverCondition condition want) := by
  cases want with
  | jump target onTrue => exact h target onTrue
  | value =>
    intro a _
    refine (ends_newLabel (.refl a)).bind fun isFalse _ ⟨_, hm⟩ => ?_
    refine (ends_newLabel hm).bind fun done _ ⟨hnew, hm⟩ => ?_
    refine ((h isFalse false).ends hm (by simp)).bind fun _ _ hm => ?_
    refine (tidy_push _).next hm fun _ _ hm => ?_
    refine (ends_jump .goto hm List.mem_cons_self).bind fun _ _ hm => ?_
    refine (ends_bind hm.swap (by simpa [eq_comm] using hnew)).bind fun _ _ hm => ?_
    refine (tidy_push _).next hm fun _ _ hm => ?_
    exact ends_bind hm (by simp)

theorem tidy_both (op : LogicOp) {lhs rhs : Label → Bool → Emit Unit} (target : Label)
    (onTrue : Bool) (hl : ∀ target onTrue, Tidy missing [target] (lhs target onTrue))
    (hr : ∀ target onTrue, Tidy missing [target] (rhs target onTrue)) :
    Tidy missing [target] (Expr.both op lhs rhs target onTrue) := by
  unfold Expr.both
  dsimp only
  split
  · exact (hl target onTrue).bind fun _ => hr target onTrue
  · intro a ha
    refine (ends_newLabel (.refl a)).bind fun skip _ ⟨_, hm⟩ => ?_
    refine ((hl skip _).ends hm (by simp)).bind fun _ _ hm => ?_
    refine ((hr target onTrue).ends hm fun l hl => .inr (ha l hl)).bind fun _ _ hm => ?_
    exact ends_bind hm (by simp)

theorem tidy_jumpOnRelation (relation : Relation) (ty : Ty) (target : Label) (onTrue : Bool) :
    Tidy missing [target] (Expr.jumpOnRelation relation ty target onTrue) := by
  unfold Expr.jumpOnRelation
  dsimp only
  split
  · exact (tidy_op _).bind fun _ => tidy_jump _ List.mem_cons_self
  · exact tidy_jump _ List.mem_cons_self

theorem ends_dropThen (ty : Ty) {a m : Assembly} {loose : List Label} {rest : Emit α}
    {Q : α → Assembly → Prop} (hm : a.Leaves loose m)
    (h : ∀ a', a.Leaves loose a' → Ends missing rest a' Q) :
    Ends missing (if ty ≠ .void then do op .pop; rest else rest) m Q := by
  split
  · exact (tidy_op .pop).next hm fun _ => h
  · exact h m hm

/-- Code for an expression is tidy, and misses nothing if the expression is resolved. -/
theorem tidy_code (e : Expr) (want : Want) :
    Tidy (¬ e.Resolved) want.targets (e.code want) := by
  induction e generalizing want with
  | literal mark value =>
    rw [Expr.code]
    refine tidy_typed (mt Expr.Resolved.mark) fun _ _ => ?_
    cases value with
    | boolean value =>
      cases want with
      | value => exact tidy_pushLiteral _
      | jump target onTrue =>
        dsimp only
        split
        · exact tidy_jump _ List.mem_cons_self
        · exact tidy_pure ()
    | _ => exact (tidy_pushLiteral _).bind fun _ => tidy_deliver want
  | var mark name slot =>
    rw [Expr.code]
    refine tidy_typed (mt Expr.Resolved.mark) fun _ _ => ?_
    refine ((tidy_slotAccess _ _).mono ?_).bind fun _ =>
      (tidy_access _ _).bind fun _ => tidy_deliver want
    exact mt fun h => ⟨h, rfl⟩
  | unary mark op operand ih =>
    rw [Expr.code]
    refine tidy_typed (mt Expr.Resolved.mark) fun _ _ => ?_
    have inner (want : Want) := (ih want).mono
      (mt fun h : (Expr.unary mark op operand).Resolved => h.operand)
    cases op with
    | negate =>
      exact (inner .value).inside.bind fun _ => (tidy_op _).bind fun _ => tidy_deliver want
    | not =>
      exact tidy_deliverCondition want fun target onTrue => inner (.jump target !onTrue)
  | binary mark op l r ihl ihr =>
    rw [Expr.code]
    refine tidy_typed (mt Expr.Resolved.mark) fun _ _ => ?_
    have left (want : Want) := (ihl want).mono
      (mt fun h : (Expr.binary mark op l r).Resolved => h.lhs)
    have right (want : Want) := (ihr want).mono
      (mt fun h : (Expr.binary mark op l r).Resolved => h.rhs)
    cases op with
    | arith op =>
      exact (left .value).inside.bind fun _ => (right .value).inside.bind fun _ =>
        tidy_typed (mt fun h => h.rhs.mark) fun _ _ => (tidy_convert _ _).bind fun _ =>
        (tidy_op _).bind fun _ => tidy_deliver want
    | bit op =>
      exact (left .value).inside.bind fun _ => (right .value).inside.bind fun _ =>
        (tidy_op _).bind fun _ => tidy_deliver want
    | logic op =>
      exact tidy_deliverCondition want fun target onTrue =>
        tidy_both op target onTrue (fun t b => left (.jump t b)) fun t b => right (.jump t b)
    | compare relation =>
      exact tidy_deliverCondition want fun target onTrue =>
        (left .value).inside.bind fun _ => (right .value).inside.bind fun _ =>
        tidy_typed (mt fun h => h.lhs.mark) fun ty _ => tidy_jumpOnRelation relation ty target onTrue
    | assign =>
      have access : Tidy (¬ (Expr.binary mark .assign l r).Resolved) want.targets _ :=
        (tidy_slotAccess l .store).mono (mt fun h => ⟨h.lhs, h.2.1 rfl⟩)
      exact access.bind fun _ => (right .value).inside.bind fun _ => (tidy_op _).bind fun _ =>
        (tidy_access _ _).bind fun _ => tidy_deliver want
  | concat mark l r ihl ihr =>
    rw [Expr.code]
    refine tidy_typed (mt Expr.Resolved.mark) fun _ _ => ?_
    have left := (ihl .value).mono (mt fun h : (Expr.concat mark l r).Resolved => h.2.1)
    have right := (ihr .value).mono (mt fun h : (Expr.concat mark l r).Resolved => h.2.2)
    exact left.inside.bind fun _ => right.inside.bind fun _ => (tidy_op _).bind fun _ =>
      tidy_deliver want
  | ternary mark c t f ihc iht ihf =>
    rw [Expr.code]
    refine tidy_typed (mt Expr.Resolved.mark) fun ty _ => ?_
    have test (want : Want) := (ihc want).mono
      (mt fun h : (Expr.ternary mark c t f).Resolved => h.2.1)
    have whenTrue := (iht .value).mono (mt fun h : (Expr.ternary mark c t f).Resolved => h.2.2.1)
    have whenFalse := (ihf .value).mono (mt fun h : (Expr.ternary mark c t f).Resolved => h.2.2.2)
    intro a ha
    refine (ends_newLabel (.refl a)).bind fun otherwise _ hstart => ?_
    refine ((test (.jump otherwise false)).ends hstart.2 (by simp [Want.targets])).bind
      fun _ _ hm => ?_
    refine whenTrue.next hm fun _ _ hm => ?_
    refine (tidy_resolvedTy (mt fun h => h.2.2.1.mark)).next hm fun _ _ hm => ?_
    refine (tidy_convert _ ty).next hm fun _ _ hm => ?_
    refine (ends_newLabel hm).bind fun done _ hdone => ?_
    refine (ends_jump .goto hdone.2 List.mem_cons_self).bind fun _ _ hm => ?_
    refine (ends_bind hm.swap (by simpa [eq_comm] using hdone.1)).bind fun _ _ hm => ?_
    refine whenFalse.next hm fun _ _ hm => ?_
    refine (tidy_resolvedTy (mt fun h => h.2.2.2.mark)).next hm fun _ _ hm => ?_
    refine (tidy_convert _ ty).next hm fun _ _ hm => ?_
    refine (ends_bind hm (by simp)).bind fun _ _ hm => ?_
    exact (tidy_deliver want).ends hm fun l hl => .inr (ha l hl)
  | guarded mark c t ihc iht =>
    rw [Expr.code]
    refine tidy_typed (mt Expr.Resolved.mark) fun _ _ => ?_
    have test (want : Want) := (ihc want).mono (mt fun h : (Expr.guarded mark c t).Resolved => h.2.1)
    have whenTrue := (iht .value).mono (mt fun h : (Expr.guarded mark c t).Resolved => h.2.2)
    intro a ha
    refine (ends_newLabel (.refl a)).bind fun otherwise _ hstart => ?_
    refine ((test (.jump otherwise false)).ends hstart.2 (by simp [Want.targets])).bind
      fun _ _ hm => ?_
    refine whenTrue.next hm fun _ _ hm => ?_
    refine (tidy_resolvedTy (mt fun h => h.2.2.mark)).next hm fun ty _ hm => ?_
    refine ends_dropThen ty hm fun _ hm => ?_
    refine (ends_bind hm (by simp)).bind fun _ _ hm => ?_
    exact (tidy_deliver want).ends hm fun l hl => .inr (ha l hl)

end Emit

end BlockLang
