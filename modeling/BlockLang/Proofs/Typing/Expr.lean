import BlockLang.Expr.Typing
import BlockLang.Proofs.Parsing

namespace BlockLang

/-- What branches of two types are together. Numbers may be converted to those of the first. -/
def Ty.Joins (ofTrue ofFalse ty : Ty) : Prop :=
  (ofTrue = ty ∧ ofFalse = ty) ∨ Ty.promote ofTrue ofFalse = some ty

/-- Numbers of one type are compared, and booleans for equality. -/
def Relation.Compares (relation : Relation) (ty : Ty) : Prop :=
  ty.isNumeric = true ∨ ((relation = .equal ∨ relation = .notEqual) ∧ ty = .boolean)

/-- This is what checking tests. -/
theorem Relation.compares_iff {relation : Relation} {ty : Ty} :
    relation.Compares ty ↔ (ty.isNumeric || (relation.isEquality && ty = .boolean)) = true := by
  have hequality : relation.isEquality = true ↔ relation = .equal ∨ relation = .notEqual := by
    cases relation <;> decide
  simp [Compares, hequality]

namespace Expr

/-- The expression has a type where names stand for slots of some types. Every node is marked with
its own type, and every variable with its slot. -/
inductive Typed (names : String → Option Binding) : Expr → Ty → Prop
  | literal {mark value} (marked : mark.ty = some value.ty) : Typed names (literal mark value) value.ty
  | var {mark name binding kind} (known : names name = some binding)
      (kinded : binding.ty.kind? = some kind) (marked : mark.ty = some binding.ty) :
      Typed names (var mark name (some binding.slot)) binding.ty
  | negate {mark e ty} (inner : Typed names e ty) (numeric : ty.isNumeric = true)
      (marked : mark.ty = some ty) : Typed names (unary mark .negate e) ty
  | not {mark e} (inner : Typed names e .boolean) (marked : mark.ty = some .boolean) :
      Typed names (unary mark .not e) .boolean
  | arith {mark op l r ofLeft ofRight ty} (left : Typed names l ofLeft)
      (right : Typed names r ofRight) (promotes : Ty.promote ofLeft ofRight = some ty)
      (marked : mark.ty = some ty) : Typed names (binary mark (.arith op) l r) ty
  | bit {mark op l r} (left : Typed names l .int) (right : Typed names r .int)
      (marked : mark.ty = some .int) : Typed names (binary mark (.bit op) l r) .int
  | logic {mark op l r} (left : Typed names l .boolean) (right : Typed names r .boolean)
      (marked : mark.ty = some .boolean) : Typed names (binary mark (.logic op) l r) .boolean
  | compare {mark relation l r ty} (left : Typed names l ty) (right : Typed names r ty)
      (comparable : relation.Compares ty) (marked : mark.ty = some .boolean) :
      Typed names (binary mark (.compare relation) l r) .boolean
  | assign {mark varMark name slot r ty} (target : Typed names (var varMark name slot) ty)
      (value : Typed names r ty) (marked : mark.ty = some ty) :
      Typed names (binary mark .assign (var varMark name slot) r) ty
  | concat {mark l r ofLeft ofRight} (left : Typed names l ofLeft) (right : Typed names r ofRight)
      (leftValue : ofLeft ≠ .void) (rightValue : ofRight ≠ .void)
      (marked : mark.ty = some .string) : Typed names (concat mark l r) .string
  | ternary {mark c t f ofTrue ofFalse ty} (condition : Typed names c .boolean)
      (whenTrue : Typed names t ofTrue) (whenFalse : Typed names f ofFalse)
      (joins : Ty.Joins ofTrue ofFalse ty) (marked : mark.ty = some ty) :
      Typed names (ternary mark c t f) ty
  | guarded {mark c t ofTrue} (condition : Typed names c .boolean) (whenTrue : Typed names t ofTrue)
      (marked : mark.ty = some .void) : Typed names (guarded mark c t) .void

end Expr

theorem Ty.eq_of_promote {ofLeft ofRight ty : Ty} (h : Ty.promote ofLeft ofRight = some ty) :
    ty = ofLeft ∧ ofLeft.isNumeric = true ∧ ofRight.isNumeric = true := by
  cases ofLeft <;> cases ofRight <;> cases h <;> exact ⟨rfl, rfl, rfl⟩

/-- Where no type is a mistake, agreeing is being equal. -/
theorem Diagnostic.eq_of_ofMismatch {line : Nat} {found expected : Ty}
    (h : ofMismatch line found expected = []) (hf : found ≠ .any) (he : expected ≠ .any) :
    found = expected := by
  unfold ofMismatch at h
  split at h
  · rename_i ha
    simpa [Ty.agrees, hf, he] using ha
  · cases h

namespace Expr

variable {names : String → Option Binding} {e l r : Expr}

/-- A well typed expression is marked with its type. -/
theorem Typed.ty?_eq {ty : Ty} (h : Typed names e ty) : e.ty? = some ty := by
  cases h <;> assumption

theorem Typed.ty_eq {ty : Ty} (h : Typed names e ty) : e.ty = ty := by
  simp [Expr.ty, h.ty?_eq]

/-- No well typed expression has the type of a mistake. -/
theorem Typed.ne_any {ty : Ty} (h : Typed names e ty) : ty ≠ .any := by
  induction h with
  | @literal _ value => cases value <;> simp [Literal.ty]
  | @var _ _ binding _ _ kinded =>
    intro hany
    rw [hany] at kinded
    cases kinded
  | negate _ _ _ ih | assign _ _ _ ih => exact ih
  | arith _ _ promotes _ ih =>
    rw [(Ty.eq_of_promote promotes).1]
    exact ih
  | ternary _ _ _ joins _ _ ih =>
    rcases joins with ⟨rfl, _⟩ | promotes
    · exact ih
    · rw [(Ty.eq_of_promote promotes).1]
      exact ih
  | _ => simp

theorem joined_typed {line : Nat} {ofLeft ofRight : Ty} (hl : Typed names l ofLeft)
    (hr : Typed names r ofRight) (h : (joined line l r).2 = []) :
    Typed names (joined line l r).1 .string := by
  simp only [joined, hl.ty_eq, hr.ty_eq, List.append_eq_nil_iff] at h
  refine .concat hl hr ?_ ?_ ?_
  · rintro rfl
    simp at h
  · rintro rfl
    simp at h
  · simp [h, hl.ty_eq, hr.ty_eq]

theorem arithmetic_typed {line : Nat} {op : ArithOp} {ofLeft ofRight : Ty}
    (hl : Typed names l ofLeft) (hr : Typed names r ofRight)
    (h : (arithmetic line op l r).2 = []) :
    ∃ ty, Typed names (arithmetic line op l r).1 ty := by
  unfold arithmetic at h ⊢
  split
  · rename_i hjoin
    rw [if_pos hjoin] at h
    exact ⟨_, joined_typed hl hr h⟩
  · rename_i hjoin
    rw [if_neg hjoin] at h
    simp only [hl.ty_eq, hr.ty_eq] at h ⊢
    cases hp : Ty.promote ofLeft ofRight with
    | some ty => exact ⟨ty, .arith hl hr hp rfl⟩
    | none => simp [hp, hl.ne_any, hr.ne_any] at h

theorem comparison_typed {line : Nat} {relation : Relation} {ofLeft ofRight : Ty}
    (h : comparison line relation ofLeft ofRight = []) (hl : ofLeft ≠ .any) (hr : ofRight ≠ .any) :
    relation.Compares ofLeft ∧ ofLeft = ofRight := by
  unfold comparison at h
  dsimp only at h
  split at h
  · rename_i hc
    rw [Relation.compares_iff]
    exact hc.resolve_left hl |>.resolve_left hr
  · cases h

theorem applied_typed {line : Nat} {op : BinaryOp} {ofLeft ofRight : Ty}
    (hl : Typed names l ofLeft) (hr : Typed names r ofRight) (h : (applied line op l r).2 = []) :
    ∃ ty, Typed names (applied line op l r).1 ty := by
  cases op with
  | arith op => exact arithmetic_typed hl hr h
  | bit op =>
    simp only [applied, hl.ty_eq, hr.ty_eq, List.append_eq_nil_iff] at h
    cases Diagnostic.eq_of_ofMismatch h.1 hl.ne_any (by simp)
    cases Diagnostic.eq_of_ofMismatch h.2 hr.ne_any (by simp)
    exact ⟨_, .bit hl hr rfl⟩
  | logic op =>
    simp only [applied, hl.ty_eq, hr.ty_eq, List.append_eq_nil_iff] at h
    cases Diagnostic.eq_of_ofMismatch h.1 hl.ne_any (by simp)
    cases Diagnostic.eq_of_ofMismatch h.2 hr.ne_any (by simp)
    exact ⟨_, .logic hl hr rfl⟩
  | compare relation =>
    simp only [applied, hl.ty_eq, hr.ty_eq] at h
    obtain ⟨hc, rfl⟩ := comparison_typed h hl.ne_any hr.ne_any
    exact ⟨_, .compare hl hr hc rfl⟩
  | assign =>
    simp only [applied] at h ⊢
    split
    · rename_i hv
      simp only [hv, if_true, hl.ty_eq, hr.ty_eq] at h
      cases Diagnostic.eq_of_ofMismatch h hr.ne_any hl.ne_any
      cases l <;> cases hv
      exact ⟨_, .assign hl hr (congrArg some hl.ty_eq)⟩
    · rename_i hv
      simp [hv] at h

theorem prefixed_typed {line : Nat} {op : UnaryOp} {ty : Ty} (he : Typed names e ty)
    (h : (prefixed line op e).2 = []) : ∃ ty, Typed names (prefixed line op e).1 ty := by
  cases op with
  | negate =>
    unfold prefixed at h ⊢
    simp only [he.ty_eq, he.ne_any, or_false] at h ⊢
    split
    · rename_i hn
      exact ⟨ty, .negate he hn rfl⟩
    · rename_i hn
      simp [hn] at h
  | not =>
    simp only [prefixed, he.ty_eq] at h
    cases Diagnostic.eq_of_ofMismatch h he.ne_any (by simp)
    exact ⟨_, .not he rfl⟩

theorem branchType_joins {typing : BranchTyping} {line : Nat} {ofTrue ofFalse : Ty}
    (h : (branchType typing line ofTrue ofFalse).2 = []) (ht : ofTrue ≠ .any)
    (hf : ofFalse ≠ .any) : Ty.Joins ofTrue ofFalse (branchType typing line ofTrue ofFalse).1 := by
  unfold branchType at h ⊢
  split
  · rename_i he
    exact .inl ⟨rfl, he.symm⟩
  · rename_i he
    rw [if_neg he] at h
    simp only [ht, hf, or_self, if_false] at h ⊢
    cases typing with
    | identical => simp at h
    | promote =>
      cases hp : Ty.promote ofTrue ofFalse with
      | none => simp [hp] at h
      | some ty => exact .inr hp

/-- An expression in which no mistake is found becomes well typed. -/
theorem annotate_typed {typing : BranchTyping}
    (hn : ∀ name binding, names name = some binding → ∃ kind, binding.ty.kind? = some kind)
    (e : Expr) (hu : e.Untyped) (h : (e.annotate typing names).2 = []) :
    ∃ ty, Typed names (e.annotate typing names).1 ty := by
  induction e with
  | literal mark value =>
    have hm : mark.ty = none := hu
    simp only [annotate, Expr.ty?, Expr.mark, hm]
    exact ⟨_, .literal rfl⟩
  | var mark name slot =>
    have hm : mark.ty = none := hu
    simp only [annotate, Expr.ty?, Expr.mark, hm] at h ⊢
    cases hb : names name with
    | none => simp [hb, resolved] at h
    | some binding =>
      obtain ⟨kind, hk⟩ := hn name binding hb
      exact ⟨_, .var hb hk rfl⟩
  | unary mark op e ih =>
    obtain ⟨hm, he⟩ := hu
    simp only [annotate, Expr.ty?, Expr.mark, hm, Option.isSome_none, Bool.false_eq_true, if_false,
      List.append_eq_nil_iff] at h ⊢
    obtain ⟨ty, ht⟩ := ih he h.1
    exact prefixed_typed ht h.2
  | binary mark op l r ihl ihr =>
    obtain ⟨hm, hl, hr⟩ := hu
    simp only [annotate, Expr.ty?, Expr.mark, hm, Option.isSome_none, Bool.false_eq_true, if_false,
      List.append_eq_nil_iff] at h ⊢
    obtain ⟨ofLeft, hl⟩ := ihl hl h.1.1
    obtain ⟨ofRight, hr⟩ := ihr hr h.1.2
    exact applied_typed hl hr h.2
  | concat mark l r ihl ihr =>
    obtain ⟨hm, hl, hr⟩ := hu
    simp only [annotate, Expr.ty?, Expr.mark, hm, Option.isSome_none, Bool.false_eq_true, if_false,
      List.append_eq_nil_iff] at h ⊢
    obtain ⟨ofLeft, hl⟩ := ihl hl h.1.1
    obtain ⟨ofRight, hr⟩ := ihr hr h.1.2
    exact ⟨_, joined_typed hl hr h.2⟩
  | ternary mark c t f ihc iht ihf =>
    obtain ⟨hm, hc, ht, hf⟩ := hu
    simp only [annotate, Expr.ty?, Expr.mark, hm, Option.isSome_none, Bool.false_eq_true, if_false,
      List.append_eq_nil_iff] at h ⊢
    obtain ⟨⟨⟨⟨hc', hb⟩, ht'⟩, hf'⟩, hj⟩ := h
    obtain ⟨_, hc⟩ := ihc hc hc'
    obtain ⟨_, ht⟩ := iht ht ht'
    obtain ⟨_, hf⟩ := ihf hf hf'
    rw [hc.ty_eq] at hb
    cases Diagnostic.eq_of_ofMismatch hb hc.ne_any (by simp)
    rw [ht.ty_eq, hf.ty_eq] at hj ⊢
    exact ⟨_, .ternary hc ht hf (branchType_joins hj ht.ne_any hf.ne_any) rfl⟩
  | guarded mark c t ihc iht =>
    obtain ⟨hm, hc, ht⟩ := hu
    simp only [annotate, Expr.ty?, Expr.mark, hm, Option.isSome_none, Bool.false_eq_true, if_false,
      List.append_eq_nil_iff] at h ⊢
    obtain ⟨⟨hc', hb⟩, ht'⟩ := h
    obtain ⟨_, hc⟩ := ihc hc hc'
    obtain ⟨_, ht⟩ := iht ht ht'
    rw [hc.ty_eq] at hb
    cases Diagnostic.eq_of_ofMismatch hb hc.ne_any (by simp)
    exact ⟨_, .guarded hc ht rfl⟩

end Expr

end BlockLang
