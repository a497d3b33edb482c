import BlockLang.Proofs.Printing.Rows

namespace BlockLang

variable {spell : Double → List Char}

namespace Written

variable {w : Word} {ws xs ys : List Word} {tokens : List Token}

theorem first (h : Written (w :: ws) tokens) : ∃ token more, tokens = token :: more ∧
    token.kind = w.kind ∧ token.text.toList = w.text ∧ Written ws more := by
  cases h with
  | cons kind text more => exact ⟨_, _, rfl, kind, text, more⟩

theorem only (h : Written [w] tokens) :
    ∃ token, tokens = [token] ∧ token.kind = w.kind ∧ token.text.toList = w.text := by
  obtain ⟨token, more, rfl, kind, text, hmore⟩ := h.first
  cases hmore
  exact ⟨token, rfl, kind, text⟩

theorem split (h : Written (xs ++ ys) tokens) :
    ∃ before after, tokens = before ++ after ∧ Written xs before ∧ Written ys after := by
  induction xs generalizing tokens with
  | nil => exact ⟨[], tokens, rfl, .nil, h⟩
  | cons w xs ih =>
    obtain ⟨token, more, rfl, kind, text, hmore⟩ := first h
    obtain ⟨before, after, rfl, hx, hy⟩ := ih hmore
    exact ⟨token :: before, after, rfl, .cons kind text hx, hy⟩

/-- A word divides the tokens as it divides the words. -/
theorem divide (h : Written (xs ++ w :: ys) tokens) : ∃ before token after,
    tokens = before ++ token :: after ∧ Written xs before ∧ token.kind = w.kind ∧
      Written ys after := by
  obtain ⟨before, more, rfl, hbefore, hmore⟩ := h.split
  obtain ⟨token, after, rfl, kind, _, hafter⟩ := hmore.first
  exact ⟨before, token, after, rfl, hbefore, kind, hafter⟩

/-- The last word stands behind the tokens of the others. -/
theorem last (h : Written (xs ++ [w]) tokens) :
    ∃ before token, tokens = before ++ [token] ∧ Written xs before ∧ token.kind = w.kind := by
  obtain ⟨before, token, after, rfl, hbefore, kind, hafter⟩ := h.divide
  cases hafter
  exact ⟨before, token, rfl, hbefore, kind⟩

end Written

theorem Double.digitsValue_toDigits (n : Nat) : digitsValue (Nat.toDigits 10 n) = n := by
  rw [digitsValue, ← Nat.ofDigitChars_eq_foldl]
  exact Nat.ofDigitChars_ten_toDigits

theorem Literal.ofDecimal_spells {text : String} {value : Double} (h : Spells text.toList value) :
    ofDecimal text = double value := by
  obtain ⟨whole, fraction, htext, _, _, hwhole, _, hvalue⟩ := h.digits
  have hpoint : ∀ c, ('.' :: fraction).head? = some c → c.isDigit = false := by
    intro c hc
    cases hc
    rfl
  obtain ⟨htake, hdrop⟩ := takeWhile_stop hwhole hpoint
  simp only [ofDecimal, htext, htake, hdrop, List.drop_one, List.tail_cons, hvalue]

/-- A literal is an operand. -/
theorem Literal.derives {value : Literal} {tokens : List Token} (h : value.Writable spell)
    (written : Written (value.words spell) tokens) :
    ∃ line, Derives true 12 false tokens (.literal (.untyped line) value) := by
  cases value with
  | int value =>
    have hlow := value.le_toInt
    have hhigh := value.toInt_lt
    rw [words] at written
    split at written
    · rename_i negative
      obtain ⟨minus, more, rfl, sign, _, hmore⟩ := written.first
      obtain ⟨token, rfl, kind, text⟩ := hmore.only
      have hdigits : Double.digitsValue token.text.toList = value.toInt.natAbs := by
        rw [text]
        exact Double.digitsValue_toDigits _
      have hvalue : Int32.ofInt (-(value.toInt.natAbs : Int)) = value := by
        rw [Int.ofNat_natAbs_of_nonpos (Int.le_of_lt negative), Int.neg_neg, Int32.ofInt_toInt]
      have hderives : Derives true 12 false [minus, token] _ :=
        .negative sign kind hdigits (by omega)
      rw [hvalue] at hderives
      exact ⟨token.line, hderives⟩
    · rename_i negative
      obtain ⟨token, rfl, kind, text⟩ := written.only
      have hdigits : Double.digitsValue token.text.toList = value.toInt.natAbs := by
        rw [text]
        exact Double.digitsValue_toDigits _
      have hvalue : Int32.ofNat value.toInt.natAbs = value := by
        rw [← Int32.ofInt_eq_ofNat, Int.natAbs_of_nonneg (Int.not_lt.mp negative), Int32.ofInt_toInt]
      have hdenotes := Token.Denotes.int kind hdigits (by omega)
      rw [hvalue] at hdenotes
      exact ⟨_, .single hdenotes⟩
  | double value =>
    obtain ⟨token, rfl, kind, text⟩ := written.only
    have hdenotes := Token.Denotes.double kind
    have hspells : Spells token.text.toList value := by
      rw [text]
      exact h
    rw [ofDecimal_spells hspells] at hdenotes
    exact ⟨_, .single hdenotes⟩
  | boolean value =>
    obtain ⟨token, rfl, kind, _⟩ := written.only
    cases value with
    | true => exact ⟨_, .single (.truth kind)⟩
    | false => exact ⟨_, .single (.falsehood kind)⟩
  | string value =>
    obtain ⟨token, rfl, kind, text⟩ := written.only
    have hreads := Escape.value_quote text
    rw [String.ofList_toList] at hreads
    exact ⟨_, .single (.string kind hreads)⟩

namespace Expr

/-- A name is an operand, and it is not a number. -/
theorem derives_var {mark : Mark} {name : String} {slot : Option UInt16} {tokens : List Token}
    (h : (var mark name slot).Writable spell) (written : Written [.name name] tokens) :
    ∃ e', Derives true 12 false tokens e' ∧ e'.withoutLines = (var mark name slot).withoutLines ∧
      tokens.head?.map (·.kind) ≠ some .number := by
  obtain ⟨hmark, hslot, _⟩ := h
  obtain ⟨token, rfl, kind, text⟩ := written.only
  have hname : token.text = name := String.toList_inj.mp text
  refine ⟨_, .single (.var kind), ?_, ?_⟩
  · simp [withoutLines, Mark.withoutLine, Mark.untyped, hmark, hslot, hname]
  · have hkind : token.kind = .identifier := kind
    simp [hkind]

/-- An operand is derived if what stands between its parentheses is, and it is not a number. -/
theorem derives_enclose {e : Expr} {tokens : List Token} (h : e.Writable spell)
    (inside : ∀ tokens, Written (e.words spell) tokens →
      ∃ opened e', Derives true 1 opened tokens e' ∧ e'.withoutLines = e.withoutLines)
    (written : Written (e.enclose (e.words spell)) tokens) :
    ∃ e', Derives true 12 false tokens e' ∧ e'.withoutLines = e.withoutLines ∧
      tokens.head?.map (·.kind) ≠ some .number := by
  unfold enclose at written
  split at written
  · rename_i hvariable
    cases e with
    | var mark name slot => exact derives_var h written
    | _ => cases hvariable
  · obtain ⟨before, more, rfl, opens, _, hmore⟩ := written.first
    obtain ⟨middle, after, rfl, hmiddle, closes⟩ := hmore.last
    obtain ⟨opened, e', hderives, hlines⟩ := inside middle hmiddle
    refine ⟨e', .parens opens hderives closes, hlines, ?_⟩
    have hkind : before.kind = .openParen := opens
    simp [hkind]

/-- The words of an expression are derived as the expression, lines aside. -/
theorem derives_words {e : Expr} (h : e.Writable spell) (tokens : List Token)
    (written : Written (e.words spell) tokens) :
    ∃ opened e', Derives true 1 opened tokens e' ∧ e'.withoutLines = e.withoutLines := by
  induction e generalizing tokens with
  | literal mark value =>
    obtain ⟨line, hderives⟩ := Literal.derives h.2 written
    refine ⟨false, _, hderives.weaken (by decide), ?_⟩
    simp [withoutLines, Mark.withoutLine, Mark.untyped, h.1]
  | var mark name slot =>
    obtain ⟨e', hderives, hlines, _⟩ := derives_var h written
    exact ⟨false, e', hderives.weaken (by decide), hlines⟩
  | unary mark op e ih =>
    obtain ⟨hmark, he⟩ := h
    obtain ⟨token, more, rfl, sign, _, hmore⟩ := written.first
    obtain ⟨e', hderives, hlines, hnumber⟩ := derives_enclose he (ih he) hmore
    -- An int behind the operator stands between parentheses, so that a minus does not become its sign.
    have apart : ¬ op.Folds more := fun h => hnumber h.2
    refine ⟨false, _, (Derives.prefixed sign apart hderives).weaken (by decide), ?_⟩
    simp [withoutLines, Mark.withoutLine, Mark.untyped, hmark, hlines]
  | binary mark op l r ihl ihr =>
    obtain ⟨hmark, hl, hr⟩ := h
    obtain ⟨left, token, right, rfl, hleft, sign, hright⟩ := written.divide
    obtain ⟨l', lhs, hlhs, _⟩ := derives_enclose hl (ihl hl) hleft
    obtain ⟨r', rhs, hrhs, _⟩ := derives_enclose hr (ihr hr) hright
    -- Operands have the highest level, which suffices on both sides of every operator.
    have hderives := (lhs.weaken (InfixOp.leftLevel_le (.binary op))).infixed sign
      (rhs.weaken (InfixOp.rightLevel_le (.binary op)))
    refine ⟨false, _, hderives.weaken (InfixOp.binary op).precedence_eq.1, ?_⟩
    simp [withoutLines, Mark.withoutLine, Mark.untyped, hmark, hlhs, hrhs]
  | concat => exact h.elim
  | ternary mark c t f ihc iht ihf =>
    obtain ⟨hmark, hc, ht, hf⟩ := h
    obtain ⟨left, token, more, rfl, hleft, sign, hmore⟩ := written.divide
    obtain ⟨middle, colon, right, rfl, hmiddle, divides, hright⟩ := hmore.divide
    obtain ⟨c', condition, hcondition, _⟩ := derives_enclose hc (ihc hc) hleft
    obtain ⟨t', whenTrue, htrue, _⟩ := derives_enclose ht (iht ht) hmiddle
    obtain ⟨f', whenFalse, hfalse, _⟩ := derives_enclose hf (ihf hf) hright
    have hderives := Derives.ternary (condition.weaken (by decide)) sign
      (whenTrue.weaken (by decide)) divides (whenFalse.weaken (by decide))
    refine ⟨false, _, .tighter hderives, ?_⟩
    simp [withoutLines, Mark.withoutLine, Mark.untyped, hmark, hcondition, htrue, hfalse]
  | guarded mark c t ihc iht =>
    obtain ⟨hmark, hc, ht⟩ := h
    obtain ⟨left, token, middle, rfl, hleft, sign, hmiddle⟩ := written.divide
    obtain ⟨c', condition, hcondition, _⟩ := derives_enclose hc (ihc hc) hleft
    obtain ⟨t', whenTrue, htrue, _⟩ := derives_enclose ht (iht ht) hmiddle
    have hderives := Derives.guarded (condition.weaken (by decide)) sign
      (whenTrue.weaken (by decide))
    refine ⟨true, _, .tighter hderives, ?_⟩
    simp [withoutLines, Mark.withoutLine, Mark.untyped, hmark, hcondition, htrue]

end Expr

end BlockLang
