import BlockLang.Proofs.Typing.Expr

namespace BlockLang

namespace Expr

/-- An expression has a type where names have some types. Marks and slots have no part in it. -/
inductive HasType (typing : BranchTyping) (types : String → Option Ty) : Expr → Ty → Prop
  | literal {mark value} : HasType typing types (literal mark value) value.ty
  | var {mark name slot ty} (known : types name = some ty) :
      HasType typing types (var mark name slot) ty
  | negate {mark e ty} (operand : HasType typing types e ty) (numeric : ty.isNumeric = true) :
      HasType typing types (unary mark .negate e) ty
  | not {mark e} (operand : HasType typing types e .boolean) :
      HasType typing types (unary mark .not e) .boolean
  | arith {mark op l r ofLeft ofRight} (left : HasType typing types l ofLeft)
      (right : HasType typing types r ofRight) (numericLeft : ofLeft.isNumeric = true)
      (numericRight : ofRight.isNumeric = true) :
      HasType typing types (binary mark (.arith op) l r) ofLeft
  | text {mark l r ofLeft ofRight} (left : HasType typing types l ofLeft)
      (right : HasType typing types r ofRight) (text : ofLeft = .string ∨ ofRight = .string)
      (leftValue : ofLeft ≠ .void) (rightValue : ofRight ≠ .void) :
      HasType typing types (binary mark (.arith .add) l r) .string
  | bit {mark op l r} (left : HasType typing types l .int) (right : HasType typing types r .int) :
      HasType typing types (binary mark (.bit op) l r) .int
  | logic {mark op l r} (left : HasType typing types l .boolean)
      (right : HasType typing types r .boolean) :
      HasType typing types (binary mark (.logic op) l r) .boolean
  | compare {mark relation l r ty} (left : HasType typing types l ty)
      (right : HasType typing types r ty) (comparable : relation.Compares ty) :
      HasType typing types (binary mark (.compare relation) l r) .boolean
  | assign {mark varMark name slot r ty} (target : HasType typing types (var varMark name slot) ty)
      (value : HasType typing types r ty) :
      HasType typing types (binary mark .assign (var varMark name slot) r) ty
  -- Only checking builds this node, out of a sum that the rule `text` allows.
  | concat {mark l r ofLeft ofRight} (left : HasType typing types l ofLeft)
      (right : HasType typing types r ofRight) (leftValue : ofLeft ≠ .void)
      (rightValue : ofRight ≠ .void) : HasType typing types (concat mark l r) .string
  | ternary {mark c t f ty} (condition : HasType typing types c .boolean)
      (whenTrue : HasType typing types t ty) (whenFalse : HasType typing types f ty) :
      HasType typing types (ternary mark c t f) ty
  | promoted {mark c t f ofTrue ofFalse} (promotes : typing = .promote)
      (condition : HasType typing types c .boolean) (whenTrue : HasType typing types t ofTrue)
      (whenFalse : HasType typing types f ofFalse) (numericTrue : ofTrue.isNumeric = true)
      (numericFalse : ofFalse.isNumeric = true) :
      HasType typing types (ternary mark c t f) ofTrue
  | guarded {mark c t ofTrue} (condition : HasType typing types c .boolean)
      (whenTrue : HasType typing types t ofTrue) : HasType typing types (guarded mark c t) .void

end Expr

theorem Ty.promote_of_numeric {ofLeft ofRight : Ty} (hl : ofLeft.isNumeric = true)
    (hr : ofRight.isNumeric = true) : Ty.promote ofLeft ofRight = some ofLeft := by
  cases ofLeft <;> cases hl <;> cases ofRight <;> cases hr <;> rfl

theorem Diagnostic.ofMismatch_self (line : Nat) (ty : Ty) : ofMismatch line ty ty = [] := by
  simp [ofMismatch, Ty.agrees]

namespace Expr

variable {typing : BranchTyping} {line : Nat} {l r : Expr} {ofLeft ofRight : Ty}

theorem joined_eq_nil_iff :
    (joined line l r).2 = [] ↔ l.ty ≠ .void ∧ r.ty ≠ .void := by
  by_cases hl : l.ty = .void <;> by_cases hr : r.ty = .void <;> simp [joined, hl, hr]

theorem joined_ty (h : (joined line l r).2 = []) : (joined line l r).1.ty = .string := by
  have hmistakes : (joined line l r).1.ty =
      if (joined line l r).2.isEmpty then .string else .any := rfl
  rw [hmistakes, h]
  rfl

theorem joined_of_values (hl : l.ty ≠ .void) (hr : r.ty ≠ .void) :
    (joined line l r).2 = [] ∧ (joined line l r).1.ty = .string :=
  have hd := joined_eq_nil_iff.mpr ⟨hl, hr⟩
  ⟨hd, joined_ty hd⟩

/-- Where texts are joined, arithmetic finds what joining finds. -/
theorem arithmetic_text {op : ArithOp}
    (h : op = .add ∧ (l.ty = .string ∨ r.ty = .string)) :
    arithmetic line op l r = joined line l r := by
  rw [arithmetic, if_pos h]

theorem arithmetic_numeric {op : ArithOp} (hl : l.ty.isNumeric = true) (hr : r.ty.isNumeric = true) :
    arithmetic line op l r = (binary ⟨line, some l.ty⟩ (.arith op) l r, []) := by
  have htext : ¬ (op = .add ∧ (l.ty = .string ∨ r.ty = .string)) := by
    rintro ⟨_, h | h⟩
    · rw [h] at hl
      cases hl
    · rw [h] at hr
      cases hr
  rw [arithmetic, if_neg htext, Ty.promote_of_numeric hl hr]

/-- Arithmetic without mistake is on texts or on numbers. -/
theorem arithmetic_cases {op : ArithOp} (h : (arithmetic line op l r).2 = []) (hl : l.ty ≠ .any)
    (hr : r.ty ≠ .any) :
    (op = .add ∧ (l.ty = .string ∨ r.ty = .string)) ∨
      (l.ty.isNumeric = true ∧ r.ty.isNumeric = true) := by
  by_cases htext : op = .add ∧ (l.ty = .string ∨ r.ty = .string)
  · exact .inl htext
  rw [arithmetic, if_neg htext] at h
  cases hp : Ty.promote l.ty r.ty with
  | some ty => exact .inr (Ty.eq_of_promote hp).2
  | none => simp [hp, hl, hr] at h

theorem comparison_eq_nil {relation : Relation} {ty : Ty} (h : relation.Compares ty) :
    comparison line relation ty ty = [] := by
  simp only [comparison, Relation.compares_iff.mp h, true_and, or_true, if_true]

theorem branchType_self (ty : Ty) : branchType typing line ty ty = (ty, []) := by
  simp [branchType]

theorem branchType_promote {ofTrue ofFalse : Ty} (ht : ofTrue.isNumeric = true)
    (hf : ofFalse.isNumeric = true) : branchType .promote line ofTrue ofFalse = (ofTrue, []) := by
  cases ofTrue <;> cases ht <;> cases ofFalse <;> cases hf <;> rfl

/-- Branches without mistake have one type, or they are numbers that may be promoted. -/
theorem branchType_cases {ofTrue ofFalse : Ty}
    (h : (branchType typing line ofTrue ofFalse).2 = []) (ht : ofTrue ≠ .any)
    (hf : ofFalse ≠ .any) :
    ofTrue = ofFalse ∨
      (typing = .promote ∧ ofTrue.isNumeric = true ∧ ofFalse.isNumeric = true) := by
  by_cases he : ofTrue = ofFalse
  · exact .inl he
  simp only [branchType, if_neg he, ht, hf, or_self, if_false] at h
  cases typing with
  | identical => simp at h
  | promote =>
    cases hp : Ty.promote ofTrue ofFalse with
    | none => simp [hp] at h
    | some ty => exact .inr ⟨rfl, (Ty.eq_of_promote hp).2⟩

variable {types : String → Option Ty} {names : String → Option Binding}

/-- No rule gives the type of a mistake. -/
theorem HasType.ne_any (hn : ∀ name, types name ≠ some .any) {e : Expr} {ty : Ty}
    (h : HasType typing types e ty) : ty ≠ .any := by
  induction h with
  | @literal _ value => cases value <;> simp [Literal.ty]
  | @var _ name _ _ known =>
    rintro rfl
    exact hn name known
  | negate _ _ ih | arith _ _ _ _ ih | assign _ _ ih | ternary _ _ _ _ ih | promoted _ _ _ _ _ _ _ ih =>
    exact ih
  | _ => simp

section Nodes

variable {mark : Mark} {e c t f : Expr}

theorem annotate_literal (hm : mark.ty = none) (value : Literal) :
    (literal mark value).annotate typing names =
      (literal ⟨mark.line, some value.ty⟩ value, []) := by
  simp [annotate, ty?, Expr.mark, hm]

theorem annotate_var (hm : mark.ty = none) (name : String) (slot : Option UInt16) :
    (var mark name slot).annotate typing names = resolved mark.line name (names name) := by
  simp [annotate, ty?, Expr.mark, hm]

theorem annotate_unary (hm : mark.ty = none) (op : UnaryOp) :
    (unary mark op e).annotate typing names =
      ((prefixed mark.line op (e.annotate typing names).1).1,
        (e.annotate typing names).2 ++ (prefixed mark.line op (e.annotate typing names).1).2) := by
  simp [annotate, ty?, Expr.mark, hm]

theorem annotate_binary (hm : mark.ty = none) (op : BinaryOp) :
    (binary mark op l r).annotate typing names =
      ((applied mark.line op (l.annotate typing names).1 (r.annotate typing names).1).1,
        (l.annotate typing names).2 ++ (r.annotate typing names).2 ++
          (applied mark.line op (l.annotate typing names).1 (r.annotate typing names).1).2) := by
  simp [annotate, ty?, Expr.mark, hm]

theorem annotate_concat (hm : mark.ty = none) :
    (concat mark l r).annotate typing names =
      ((joined mark.line (l.annotate typing names).1 (r.annotate typing names).1).1,
        (l.annotate typing names).2 ++ (r.annotate typing names).2 ++
          (joined mark.line (l.annotate typing names).1 (r.annotate typing names).1).2) := by
  simp [annotate, ty?, Expr.mark, hm]

theorem annotate_ternary (hm : mark.ty = none) :
    (ternary mark c t f).annotate typing names =
      (ternary
        ⟨mark.line, some (branchType typing mark.line (t.annotate typing names).1.ty
          (f.annotate typing names).1.ty).1⟩
        (c.annotate typing names).1 (t.annotate typing names).1 (f.annotate typing names).1,
        (c.annotate typing names).2 ++
          Diagnostic.ofMismatch (c.annotate typing names).1.line (c.annotate typing names).1.ty
            .boolean ++
          (t.annotate typing names).2 ++ (f.annotate typing names).2 ++
          (branchType typing mark.line (t.annotate typing names).1.ty
            (f.annotate typing names).1.ty).2) := by
  simp [annotate, ty?, Expr.mark, hm]

theorem annotate_guarded (hm : mark.ty = none) :
    (guarded mark c t).annotate typing names =
      (guarded ⟨mark.line, some .void⟩ (c.annotate typing names).1 (t.annotate typing names).1,
        (c.annotate typing names).2 ++
          Diagnostic.ofMismatch (c.annotate typing names).1.line (c.annotate typing names).1.ty
            .boolean ++
          (t.annotate typing names).2) := by
  simp [annotate, ty?, Expr.mark, hm]

/-- A node that has a type is left alone. -/
theorem annotate_of_ty (h : e.mark.ty ≠ none) :
    e.annotate typing names = (e, []) := by
  have hty : e.ty?.isSome = true := Option.isSome_iff_ne_none.mpr h
  unfold annotate
  rw [if_pos hty]

end Nodes

/-- Checking makes a variable of a variable, and of nothing else. -/
theorem isVariable_annotate (e : Expr) :
    (annotate typing names e).1.isVariable = e.isVariable := by
  unfold annotate
  split
  · rfl
  cases e with
  | var mark name slot =>
    simp only [resolved]
    split <;> rfl
  | unary mark op e =>
    cases op with
    | negate =>
      simp only [prefixed]
      split <;> rfl
    | not => rfl
  | binary mark op l r =>
    cases op with
    | arith op =>
      simp only [applied, arithmetic]
      split
      · rfl
      · split <;> rfl
    | assign =>
      simp only [applied]
      split <;> rfl
    | _ => rfl
  | _ => rfl

section Sound

variable {l₀ r₀ : Expr}

theorem prefixed_sound (hn : ∀ name, types name ≠ some .any) {mark : Mark} {op : UnaryOp}
    (hl : HasType typing types l₀ l.ty) (h : (prefixed line op l).2 = []) :
    HasType typing types (unary mark op l₀) (prefixed line op l).1.ty := by
  have hany := hl.ne_any hn
  cases op with
  | negate =>
    by_cases hnumeric : l.ty.isNumeric = true
    · simp only [prefixed, hnumeric, true_or, if_true]
      exact .negate hl hnumeric
    · simp [prefixed, hnumeric, hany] at h
  | not =>
    have hty := Diagnostic.eq_of_ofMismatch h hany (by simp)
    rw [hty] at hl
    exact .not hl

theorem applied_sound (hn : ∀ name, types name ≠ some .any) {mark : Mark} {op : BinaryOp}
    (hv : l.isVariable = l₀.isVariable) (hl : HasType typing types l₀ l.ty)
    (hr : HasType typing types r₀ r.ty) (h : (applied line op l r).2 = []) :
    HasType typing types (binary mark op l₀ r₀) (applied line op l r).1.ty := by
  have hleft := hl.ne_any hn
  have hright := hr.ne_any hn
  cases op with
  | arith op =>
    simp only [applied] at h ⊢
    rcases arithmetic_cases h hleft hright with htext | ⟨hnl, hnr⟩
    · rw [arithmetic_text htext] at h ⊢
      obtain ⟨rfl, hstring⟩ := htext
      obtain ⟨hvl, hvr⟩ := joined_eq_nil_iff.mp h
      rw [joined_ty h]
      exact .text hl hr hstring hvl hvr
    · rw [arithmetic_numeric hnl hnr]
      exact .arith hl hr hnl hnr
  | bit op =>
    obtain ⟨h₁, h₂⟩ := List.append_eq_nil_iff.mp h
    have htl := Diagnostic.eq_of_ofMismatch h₁ hleft (by simp)
    have htr := Diagnostic.eq_of_ofMismatch h₂ hright (by simp)
    rw [htl] at hl
    rw [htr] at hr
    exact .bit hl hr
  | logic op =>
    obtain ⟨h₁, h₂⟩ := List.append_eq_nil_iff.mp h
    have htl := Diagnostic.eq_of_ofMismatch h₁ hleft (by simp)
    have htr := Diagnostic.eq_of_ofMismatch h₂ hright (by simp)
    rw [htl] at hl
    rw [htr] at hr
    exact .logic hl hr
  | compare relation =>
    obtain ⟨hc, he⟩ := comparison_typed h hleft hright
    rw [← he] at hr
    exact .compare hl hr hc
  | assign =>
    simp only [applied] at h ⊢
    by_cases hvar : l.isVariable = true
    · simp only [hvar, if_true] at h ⊢
      have hty := Diagnostic.eq_of_ofMismatch h hright hleft
      rw [hty] at hr
      rw [hv] at hvar
      cases l₀ with
      | var varMark name slot => exact .assign hl hr
      | _ => cases hvar
    · simp [hvar] at h

end Sound

/-- Where no mistake is found, the type that was found is the type by the rules. -/
theorem annotate_sound (hn : ∀ name, types name ≠ some .any)
    (hb : ∀ name, (names name).map (·.ty) = types name) (e : Expr) (hu : e.Untyped)
    (h : (e.annotate typing names).2 = []) :
    HasType typing types e (e.annotate typing names).1.ty := by
  induction e with
  | literal mark value =>
    rw [annotate_literal hu]
    exact .literal
  | var mark name slot =>
    rw [annotate_var hu] at h ⊢
    have hname := hb name
    cases hk : names name with
    | none => simp [hk, resolved] at h
    | some binding =>
      rw [hk] at hname
      exact .var hname.symm
  | unary mark op e ih =>
    obtain ⟨hm, he⟩ := hu
    rw [annotate_unary hm] at h ⊢
    obtain ⟨inner, own⟩ := List.append_eq_nil_iff.mp h
    exact prefixed_sound hn (ih he inner) own
  | binary mark op l r ihl ihr =>
    obtain ⟨hm, hl, hr⟩ := hu
    rw [annotate_binary hm] at h ⊢
    obtain ⟨operands, own⟩ := List.append_eq_nil_iff.mp h
    obtain ⟨left, right⟩ := List.append_eq_nil_iff.mp operands
    exact applied_sound hn (isVariable_annotate l) (ihl hl left) (ihr hr right) own
  | concat mark l r ihl ihr =>
    obtain ⟨hm, hl, hr⟩ := hu
    rw [annotate_concat hm] at h ⊢
    obtain ⟨operands, own⟩ := List.append_eq_nil_iff.mp h
    obtain ⟨left, right⟩ := List.append_eq_nil_iff.mp operands
    obtain ⟨leftValue, rightValue⟩ := joined_eq_nil_iff.mp own
    rw [joined_ty own]
    exact .concat (ihl hl left) (ihr hr right) leftValue rightValue
  | ternary mark c t f ihc iht ihf =>
    obtain ⟨hm, hc, ht, hf⟩ := hu
    rw [annotate_ternary hm] at h ⊢
    simp only [List.append_eq_nil_iff] at h
    obtain ⟨⟨⟨⟨first, test⟩, second⟩, third⟩, join⟩ := h
    have condition := ihc hc first
    have whenTrue := iht ht second
    have whenFalse := ihf hf third
    rw [Diagnostic.eq_of_ofMismatch test (condition.ne_any hn) (by simp)] at condition
    change HasType typing types (ternary mark c t f) (branchType typing mark.line _ _).1
    rcases branchType_cases join (whenTrue.ne_any hn) (whenFalse.ne_any hn) with
      he | ⟨rfl, numericTrue, numericFalse⟩
    · rw [← he] at whenFalse ⊢
      rw [branchType_self]
      exact .ternary condition whenTrue whenFalse
    · rw [branchType_promote numericTrue numericFalse]
      exact .promoted rfl condition whenTrue whenFalse numericTrue numericFalse
  | guarded mark c t ihc iht =>
    obtain ⟨hm, hc, ht⟩ := hu
    rw [annotate_guarded hm] at h ⊢
    simp only [List.append_eq_nil_iff] at h
    obtain ⟨⟨first, test⟩, second⟩ := h
    have condition := ihc hc first
    rw [Diagnostic.eq_of_ofMismatch test (condition.ne_any hn) (by simp)] at condition
    exact .guarded condition (iht ht second)

/-- In an expression that has a type by the rules no mistake is found, and it is marked with that
type. -/
theorem annotate_complete (hb : ∀ name, (names name).map (·.ty) = types name) {e : Expr} {ty : Ty}
    (h : HasType typing types e ty) (hu : e.Untyped) :
    (e.annotate typing names).2 = [] ∧ (e.annotate typing names).1.ty = ty := by
  induction h with
  | literal =>
    rw [annotate_literal hu]
    exact ⟨rfl, rfl⟩
  | @var _ name _ _ known =>
    rw [← hb name] at known
    obtain ⟨binding, hk, rfl⟩ := Option.map_eq_some_iff.mp known
    rw [annotate_var hu, hk]
    exact ⟨rfl, rfl⟩
  | negate _ numeric ih =>
    obtain ⟨hm, he⟩ := hu
    obtain ⟨hd, hty⟩ := ih he
    rw [annotate_unary hm, hd]
    simp only [prefixed, hty, numeric, true_or, if_true, List.nil_append, true_and]
    rfl
  | not _ ih =>
    obtain ⟨hm, he⟩ := hu
    obtain ⟨hd, hty⟩ := ih he
    rw [annotate_unary hm, hd]
    simp only [prefixed, hty, Diagnostic.ofMismatch_self, List.nil_append, true_and]
    rfl
  | arith _ _ numericLeft numericRight ihl ihr =>
    obtain ⟨hm, hl, hr⟩ := hu
    obtain ⟨hdl, htl⟩ := ihl hl
    obtain ⟨hdr, htr⟩ := ihr hr
    rw [← htl] at numericLeft
    rw [← htr] at numericRight
    rw [annotate_binary hm, hdl, hdr, applied, arithmetic_numeric numericLeft numericRight]
    exact ⟨rfl, htl⟩
  | text _ _ string leftValue rightValue ihl ihr =>
    obtain ⟨hm, hl, hr⟩ := hu
    obtain ⟨hdl, htl⟩ := ihl hl
    obtain ⟨hdr, htr⟩ := ihr hr
    rw [← htl] at leftValue
    rw [← htr] at rightValue
    rw [← htl, ← htr] at string
    rw [annotate_binary hm, hdl, hdr, applied, arithmetic_text ⟨rfl, string⟩]
    exact joined_of_values leftValue rightValue
  | bit _ _ ihl ihr | logic _ _ ihl ihr =>
    obtain ⟨hm, hl, hr⟩ := hu
    obtain ⟨hdl, htl⟩ := ihl hl
    obtain ⟨hdr, htr⟩ := ihr hr
    rw [annotate_binary hm, hdl, hdr]
    simp only [applied, htl, htr, Diagnostic.ofMismatch_self, List.nil_append, true_and]
    rfl
  | compare _ _ comparable ihl ihr =>
    obtain ⟨hm, hl, hr⟩ := hu
    obtain ⟨hdl, htl⟩ := ihl hl
    obtain ⟨hdr, htr⟩ := ihr hr
    rw [annotate_binary hm, hdl, hdr]
    simp only [applied, htl, htr, comparison_eq_nil comparable, List.nil_append, true_and]
    rfl
  | assign _ _ ihl ihr =>
    obtain ⟨hm, hl, hr⟩ := hu
    obtain ⟨hdl, htl⟩ := ihl hl
    obtain ⟨hdr, htr⟩ := ihr hr
    rw [annotate_binary hm, hdl, hdr, applied, isVariable_annotate, isVariable, if_pos rfl, htl, htr]
    exact ⟨Diagnostic.ofMismatch_self _ _, rfl⟩
  | concat _ _ leftValue rightValue ihl ihr =>
    obtain ⟨hm, hl, hr⟩ := hu
    obtain ⟨hdl, htl⟩ := ihl hl
    obtain ⟨hdr, htr⟩ := ihr hr
    rw [← htl] at leftValue
    rw [← htr] at rightValue
    rw [annotate_concat hm, hdl, hdr]
    exact joined_of_values leftValue rightValue
  | ternary _ _ _ ihc iht ihf =>
    obtain ⟨hm, hc, ht, hf⟩ := hu
    obtain ⟨hdc, htc⟩ := ihc hc
    obtain ⟨hdt, htt⟩ := iht ht
    obtain ⟨hdf, htf⟩ := ihf hf
    rw [annotate_ternary hm, hdc, hdt, hdf, htc, htt, htf, Diagnostic.ofMismatch_self,
      branchType_self]
    exact ⟨rfl, rfl⟩
  | promoted promotes _ _ _ numericTrue numericFalse ihc iht ihf =>
    obtain ⟨hm, hc, ht, hf⟩ := hu
    obtain ⟨hdc, htc⟩ := ihc hc
    obtain ⟨hdt, htt⟩ := iht ht
    obtain ⟨hdf, htf⟩ := ihf hf
    subst promotes
    rw [annotate_ternary hm, hdc, hdt, hdf, htc, htt, htf, Diagnostic.ofMismatch_self,
      branchType_promote numericTrue numericFalse]
    exact ⟨rfl, rfl⟩
  | guarded _ _ ihc iht =>
    obtain ⟨hm, hc, ht⟩ := hu
    obtain ⟨hdc, htc⟩ := ihc hc
    obtain ⟨hdt, _⟩ := iht ht
    rw [annotate_guarded hm, hdc, hdt, htc, Diagnostic.ofMismatch_self]
    exact ⟨rfl, rfl⟩

/-- Checking finds no mistake and this type exactly if the expression has the type by the rules. -/
theorem hasType_iff (hn : ∀ name, types name ≠ some .any)
    (hb : ∀ name, (names name).map (·.ty) = types name) {e : Expr} (hu : e.Untyped) (ty : Ty) :
    e.HasType typing types ty ↔
      (e.annotate typing names).2 = [] ∧ (e.annotate typing names).1.ty = ty := by
  constructor
  · intro h
    exact annotate_complete hb h hu
  · rintro ⟨hd, rfl⟩
    exact annotate_sound hn hb e hu hd

end Expr

end BlockLang
