import BlockLang.Expr.Code
import BlockLang.Expr.Typing
import BlockLang.Proofs.Emit
import BlockLang.Proofs.Printing.Expr
import BlockLang.Proofs.Reading.Steps
import BlockLang.Proofs.Running

namespace BlockLang

/-- Tokens of prefix operators, and behind them the token of a number with these digits. -/
structure Prefixed (before : List (Token × UnaryOp)) (token : Token) (digits : List Char) : Prop where
  signs : ∀ p ∈ before, UnaryOp.ofToken? p.1.kind = some p.2
  number : token.kind = .number
  text : token.text = String.ofList digits

/-- The text of digits behind prefix operators. -/
def prefixedText (ops : List UnaryOp) (digits : List Char) : List Char :=
  ops.flatMap (·.symbol.toList) ++ digits

def prefixedWords (ops : List UnaryOp) (digits : List Char) : List Word :=
  ops.map .prefixed ++ [⟨.number, digits, false⟩]

variable {ops : List UnaryOp} {digits : List Char}

theorem layout_prefixedWords (ops : List UnaryOp) (digits : List Char) :
    layout (prefixedWords ops digits) = prefixedText ops digits := by
  induction ops with
  | nil => simp [prefixedWords, prefixedText, layout, Word.gap]
  | cons op ops ih =>
    have hgap : (Word.prefixed op).gap (prefixedWords ops digits) = [] := by
      cases prefixedWords ops digits <;> rfl
    change (Word.prefixed op).text ++ (Word.prefixed op).gap (prefixedWords ops digits) ++
      layout (prefixedWords ops digits) = _
    rw [hgap, ih, List.append_nil, prefixedText, ← List.append_assoc]
    rfl

theorem row_prefixedWords (ops : List UnaryOp) (nonempty : digits ≠ [])
    (decimal : ∀ c ∈ digits, c.isDigit = true) : Row (prefixedWords ops digits) := by
  induction ops with
  | nil => exact .single (Word.fair_digits nonempty decimal) rfl
  | cons op ops ih =>
    -- No operator is joined to what stands behind it, for that does not start with an equals sign.
    cases ops with
    | nil =>
      obtain ⟨c, cs, rfl⟩ := List.exists_cons_of_ne_nil nonempty
      have hc : c ≠ '=' := by
        intro heq
        subst heq
        exact absurd (decimal '=' (List.mem_cons_self ..)) (by decide)
      exact .joined (Word.prefixed_joins rfl hc) rfl ih
    | cons next ops =>
      refine .joined ?_ rfl ih
      cases next with
      | negate => exact Word.prefixed_joins (c := '-') rfl (by decide)
      | not => exact Word.prefixed_joins (c := '!') rfl (by decide)

theorem Written.prefixed {tokens : List Token} (h : Written (prefixedWords ops digits) tokens) :
    ∃ before token, tokens = before.map Prod.fst ++ [token] ∧ before.map Prod.snd = ops ∧
      Prefixed before token digits := by
  induction ops generalizing tokens with
  | nil =>
    obtain ⟨token, rfl, kind, text⟩ := h.only
    refine ⟨[], token, rfl, rfl, nofun, kind, ?_⟩
    rw [← String.ofList_toList (s := token.text), text]
  | cons op ops ih =>
    obtain ⟨sign, tokens, rfl, kind, _, more⟩ := first h
    obtain ⟨before, token, rfl, rfl, hprefixed⟩ := ih more
    have hsign : UnaryOp.ofToken? sign.kind = some op := by
      rw [kind]
      cases op <;> rfl
    exact ⟨(sign, op) :: before, token, rfl, rfl,
      { hprefixed with signs := List.forall_mem_cons.mpr ⟨hsign, hprefixed.signs⟩ }⟩

/-- Every sequence of prefix operators and digits is scanned as such. -/
theorem Scan.ofSource_prefixed (nonempty : digits ≠ []) (decimal : ∀ c ∈ digits, c.isDigit = true)
    (ops : List UnaryOp) (path : Option String) : ∃ before token last line,
      ofSource (.ofString (String.ofList (prefixedText ops digits)) path) =
        ⟨before.map Prod.fst ++ [token], .finished last line⟩ ∧
      before.map Prod.snd = ops ∧ Prefixed before token digits := by
  have hspelled := (row_prefixedWords ops nonempty decimal).spelled
  rw [layout_prefixedWords] at hspelled
  obtain ⟨tokens, last, line, hrun, hwritten⟩ :=
    run_spelled (.ofString (String.ofList (prefixedText ops digits)) path) #[] 0 hspelled
  obtain ⟨before, token, rfl, hops, hprefixed⟩ := hwritten.prefixed
  refine ⟨before, token, last, line, Eq.trans ?_ hrun, hops, hprefixed⟩
  exact congrArg (run _ #[] 0) String.toList_ofList

theorem Double.digitsValue_eq (cs : List Char) : digitsValue cs = Nat.ofDigitChars 10 cs 0 := by
  rw [digitsValue, ← Nat.ofDigitChars_eq_foldl]

/-- The greatest value of digits, which is one more behind a minus. -/
def Literal.greatest (negative : Bool) : Nat :=
  if negative then 2147483648 else 2147483647

/-- What digits stand for. -/
def Literal.signed (negative : Bool) (value : Nat) : Int :=
  if negative then -value else value

theorem Literal.toInt_signed {negative : Bool} {value : Nat} (h : value ≤ greatest negative) :
    (Int32.ofInt (signed negative value)).toInt = signed negative value := by
  cases negative with
  | true =>
    change value ≤ 2147483648 at h
    change (Int32.ofInt (-value)).toInt = -value
    exact Int32.toInt_ofInt_of_le (by omega) (by omega)
  | false =>
    change value ≤ 2147483647 at h
    change (Int32.ofInt value).toInt = value
    exact Int32.toInt_ofInt_of_le (by omega) (by omega)

theorem Literal.ofDigits?_eq (negative : Bool) (digits : List Char) :
    let value := Nat.ofDigitChars 10 digits 0
    ofDigits? negative (String.ofList digits) =
      if value ≤ greatest negative then some (int (.ofInt (signed negative value))) else none := by
  intro value
  have hvalue : Double.digitsValue (String.ofList digits).toList = value := by
    rw [String.toList_ofList, Double.digitsValue_eq]
  unfold ofDigits?
  rw [hvalue]
  cases negative with
  | true => rfl
  | false =>
    change (if value < 2147483648 then _ else none) = if value ≤ 2147483647 then _ else none
    exact if_congr Nat.lt_succ_iff rfl rfl

namespace Reader

variable {before : List (Token × UnaryOp)} {token : Token} {rest : List Token} {ending : Ending}
  {depth : Nat}

theorem splitPrefixes_signs (signs : ∀ p ∈ before, UnaryOp.ofToken? p.1.kind = some p.2)
    (other : UnaryOp.ofToken? token.kind = none) :
    splitPrefixes (before.map Prod.fst ++ token :: rest) =
      (before.map fun p => (p.1.line, p.2), token :: rest) := by
  induction before with
  | nil =>
    rw [List.map_nil, List.nil_append, splitPrefixes, other]
    rfl
  | cons p before ih =>
    obtain ⟨hsign, hsigns⟩ := List.forall_mem_cons.mp signs
    rw [List.map_cons, List.cons_append, splitPrefixes, hsign, ih hsigns]
    rfl

/-- A literal with prefix operators around it, the first of them outermost. -/
def prefixed (before : List (Token × UnaryOp)) (token : Token) (value : Literal) : Expr :=
  before.foldr (fun p e => .unary (.untyped p.1.line) p.2 e) (.literal (.untyped token.line) value)

theorem applyPrefixes_eq (before : List (Token × UnaryOp)) (token : Token) (value : Literal) :
    Expr.applyPrefixes (before.map fun p => (p.1.line, p.2)) (.literal (.untyped token.line) value) =
      prefixed before token value := by
  rw [prefixed, Expr.applyPrefixes, List.foldr_map]

/-- Whether the operator right in front of the digits is a minus. -/
def negated (before : List (Token × UnaryOp)) : Bool :=
  before.getLast?.any (·.2 = .negate)

theorem operand_digits (h : Prefixed before token digits) :
    operand (depth + 1) ⟨before.map Prod.fst ++ token :: rest, ending⟩ =
      match Literal.ofDigits? (negated before) token.text with
      | none => .error ⟨.invalidNumber token.text, token.offset, []⟩
      | some value =>
        .ok (prefixed (if negated before then before.dropLast else before) token value,
          ⟨rest, ending⟩) := by
  have other : UnaryOp.ofToken? token.kind = none := by rw [h.number]; rfl
  have hlast : (before.map fun p => (p.1.line, p.2)).getLast?.any (·.2 = .negate) =
      negated before := by
    rw [negated, List.getLast?_map, Option.any_map]
  rw [operand_eq, splitPrefixes_signs h.signs other]
  change behind depth _ token ⟨token :: rest, ending⟩ = _
  rw [behind, h.number]
  simp only [intLiteral, hlast]
  cases Literal.ofDigits? (negated before) token.text with
  | none => rfl
  | some value =>
    simp only [← applyPrefixes_eq]
    cases negated before with
    | false => rfl
    | true =>
      rw [← List.map_dropLast]
      rfl

theorem operand_within {negative : Bool} (h : Prefixed before token digits)
    (sign : negated before = negative)
    (inRange : Nat.ofDigitChars 10 digits 0 ≤ Literal.greatest negative) :
    ∃ n : Int32, n.toInt = Literal.signed negative (Nat.ofDigitChars 10 digits 0) ∧
      operand (depth + 1) ⟨before.map Prod.fst ++ token :: rest, ending⟩ =
        .ok (prefixed (if negative then before.dropLast else before) token (.int n),
          ⟨rest, ending⟩) := by
  refine ⟨_, Literal.toInt_signed inRange, ?_⟩
  rw [operand_digits h, sign, h.text, Literal.ofDigits?_eq, if_pos inRange]

theorem operand_beyond (h : Prefixed before token digits)
    (beyond : Literal.greatest (negated before) < Nat.ofDigitChars 10 digits 0) :
    operand (depth + 1) ⟨before.map Prod.fst ++ token :: rest, ending⟩ =
      .error ⟨.invalidNumber (String.ofList digits), token.offset, []⟩ := by
  rw [operand_digits h, h.text, Literal.ofDigits?_eq, if_neg (Nat.not_le.mpr beyond)]

end Reader

namespace Emit

open Machine

/-- Wherever calls have led before the code is emitted, and wherever they lead behind it, the code does not
fail, and when it has run it has replaced the first values on the stack by others. -/
def Replaces (code : Emit Unit) (values values' : Stack) : Prop :=
  ∀ a, Assembly.empty.Calls a → ∃ a', code a = (.ok (), a') ∧ a.Calls a' ∧
    ∀ A b, a'.Calls A → A.finish = .ok b → ∀ stack locals printed,
      ∃ n, Steps b n ⟨a.address, values ++ stack, locals, printed⟩
        ⟨a'.address, values' ++ stack, locals, printed⟩

theorem Replaces.bind {x y : Emit Unit} {values values' values'' : Stack}
    (hx : x.Replaces values values') (hy : y.Replaces values' values'') :
    Replaces (do x; y) values values'' := by
  intro a ha
  obtain ⟨m, hm, hcalls, hfirst⟩ := hx a ha
  obtain ⟨a', ha', hcalls', hsecond⟩ := hy m (ha.trans hcalls)
  refine ⟨a', ?_, hcalls.trans hcalls', fun A b hA hf stack locals printed => ?_⟩
  · rw [bind_apply, hm]
    exact ha'
  · obtain ⟨n, hn⟩ := hfirst A b (hcalls'.trans hA) hf stack locals printed
    obtain ⟨k, hk⟩ := hsecond A b hA hf stack locals printed
    exact ⟨n + k, hn.trans hk⟩

/-- An instruction without a target does in the finished code what it does by itself. -/
theorem replaces_push {i : Instruction Label} {j : Instruction Int16} {values values' : Stack}
    (call : ∀ a : Assembly, a.Call (push i a).2)
    (resolves : ∀ addresses address, Assembly.resolve addresses address i = .ok j)
    (does : ∀ b next pc stack locals printed,
      perform b j next ⟨pc, values ++ stack, locals, printed⟩ =
        .ok (.next ⟨next, values' ++ stack, locals, printed⟩)) :
    Replaces (push i) values values' := by
  intro a ha
  refine ⟨a.push i, rfl, .single (call a), fun A b hA hf stack locals printed => ?_⟩
  obtain ⟨hvA, hext⟩ := hA.keeps ((call a).keeps ha.valid).1
  obtain ⟨after, hentries⟩ := hext.entries
  obtain ⟨_, _, found, hl, rfl⟩ := Assembly.finish_ok hf
  have hsweep := (hvA.sweep_located hl).1
  have hsplit : A.entries.toList = a.entries.toList ++ .instruction i :: after := by
    rw [← hentries, Assembly.push, Array.toList_push, List.append_assoc]
    rfl
  rw [hsplit] at hl
  obtain ⟨_, hj, hmem⟩ := Assembly.locate_mem hl
  rw [Nat.zero_add, ← ha.valid.address] at hmem hj
  obtain rfl := Except.ok.inj ((resolves _ _).symm.trans hj)
  have hnext : a.address + j.size = (a.push i).address := by
    rw [Assembly.size_resolve hj]
    rfl
  refine ⟨1, _, ?_, rfl⟩
  rw [step_of_mem (by rwa [hsweep]), does, hnext]

theorem replaces_pure (values : Stack) : Replaces (pure ()) values values :=
  fun a _ => ⟨a, rfl, .refl, fun _ _ _ _ _ _ _ => ⟨0, rfl⟩⟩

theorem replaces_pushInt (value : Int32) : Replaces (push (.pushInt value)) [] [.int value] :=
  replaces_push (fun _ => .pushInt value) (fun _ _ => rfl) fun _ _ _ _ _ _ => rfl

theorem replaces_negate (value : Int32) :
    Replaces (op .intNegate) [.int value] [.int (-value)] :=
  replaces_push (fun _ => .op .intNegate) (fun _ _ => rfl) fun _ _ _ _ _ _ => rfl

end Emit

namespace Expr

open Emit

/-- The code of an int does nothing but push it, as it stands or behind a minus. -/
theorem replaces_int (typing : BranchTyping) (names : String → Option Binding) (line : Nat)
    (value : Int32) :
    ((literal (.untyped line) (.int value)).annotate typing names).1.emitValue.Replaces [] [.int value] :=
  (replaces_pushInt value).bind (replaces_pure [.int value])

theorem replaces_negated (typing : BranchTyping) (names : String → Option Binding) (line line' : Nat)
    (value : Int32) :
    ((unary (.untyped line) .negate (literal (.untyped line') (.int value))).annotate typing
      names).1.emitValue.Replaces [] [.int (-value)] :=
  (replaces_int typing names line' value).bind ((replaces_negate value).bind (replaces_pure _))

end Expr

/-- Digits are read as ints exactly in the range of ints. A minus right in front of them belongs to the
literal, so that the least int can be written; the other prefix operators go around the literal. Where the
digits alone are an int too, the literal with the minus does what negating the literal without it does. -/
theorem Reader.operand_int (digits : List Char) (nonempty : digits ≠ [])
    (decimal : ∀ c ∈ digits, c.isDigit = true) :
    let value := Nat.ofDigitChars 10 digits 0
    (∀ (ops : List UnaryOp) (path : Option String), ∃ before token last line,
      Scan.ofSource (.ofString (String.ofList (prefixedText ops digits)) path) =
        ⟨before.map Prod.fst ++ [token], .finished last line⟩ ∧
      before.map Prod.snd = ops ∧ Prefixed before token digits) ∧
    (∀ (before : List (Token × UnaryOp)) (token : Token), Prefixed before token digits →
      ∀ (rest : List Token) (ending : Ending) (depth : Nat),
        let result := operand (depth + 1) ⟨before.map Prod.fst ++ token :: rest, ending⟩
        (negated before = true → value ≤ 2147483648 → ∃ n : Int32, n.toInt = -value ∧
          result = .ok (prefixed before.dropLast token (.int n), ⟨rest, ending⟩)) ∧
        (negated before = false → value ≤ 2147483647 → ∃ n : Int32, n.toInt = value ∧
          result = .ok (prefixed before token (.int n), ⟨rest, ending⟩)) ∧
        (value > (if negated before then 2147483648 else 2147483647) →
          result = .error ⟨.invalidNumber (String.ofList digits), token.offset, []⟩)) ∧
    (value ≤ 2147483647 → ∃ n m : Int32, n.toInt = value ∧ m.toInt = -value ∧
      ∀ typing names line line',
        let folded := (Expr.literal (.untyped line) (.int m)).annotate typing names
        let negation := (Expr.unary (.untyped line) .negate
          (.literal (.untyped line') (.int n))).annotate typing names
        folded.2 = [] ∧ folded.1.emitValue.Replaces [] [.int m] ∧
        negation.2 = [] ∧ negation.1.emitValue.Replaces [] [.int m]) := by
  intro value
  refine ⟨Scan.ofSource_prefixed nonempty decimal, fun before token h rest ending depth => ?_,
    fun hle => ?_⟩
  · exact ⟨operand_within h, operand_within h, operand_beyond h⟩
  · refine ⟨Int32.ofInt value, -Int32.ofInt value, Int32.toInt_ofInt_of_le (by omega) (by omega), ?_, ?_⟩
    · rw [← Int32.ofInt_neg]
      exact Int32.toInt_ofInt_of_le (by omega) (by omega)
    · intro typing names line line'
      exact ⟨rfl, Expr.replaces_int typing names line _, rfl,
        Expr.replaces_negated typing names line line' _⟩

/-- The least int behind a negation, and its digits where the minus is missing. -/
theorem Reader.operand_int_least :
    let digits := "2147483648".toList
    let bang : Token := ⟨.operator .bang false, "!", 0, 1⟩
    let minus : Token := ⟨.operator .minus false, "-", 1, 1⟩
    let number : Token := ⟨.number, "2147483648", 2, 1⟩
    digits ≠ [] ∧ (∀ c ∈ digits, c.isDigit = true) ∧
      Prefixed [(bang, .not), (minus, .negate)] number digits ∧ Prefixed [(bang, .not)] number digits ∧
      (∃ n : Int32, n.toInt = -2147483648 ∧
        operand 1 ⟨[bang, minus, number], .finished 12 1⟩ =
          .ok (.unary (.untyped 1) .not (.literal (.untyped 1) (.int n)), ⟨[], .finished 12 1⟩)) ∧
      operand 1 ⟨[bang, number], .finished 12 1⟩ =
        .error ⟨.invalidNumber "2147483648", 2, []⟩ := by
  intro digits bang minus number
  have nonempty : digits ≠ [] := by decide
  have decimal : ∀ c ∈ digits, c.isDigit = true := List.all_eq_true.mp rfl
  have behindMinus : Prefixed [(bang, .not), (minus, .negate)] number digits := ⟨by decide, rfl, rfl⟩
  have behindBang : Prefixed [(bang, .not)] number digits := ⟨by decide, rfl, rfl⟩
  have value : Nat.ofDigitChars 10 digits 0 = 2147483648 := by decide
  obtain ⟨_, hread, _⟩ := operand_int digits nonempty decimal
  rw [value] at hread
  refine ⟨nonempty, decimal, behindMinus, behindBang, ?_, ?_⟩
  · exact (hread _ number behindMinus [] (.finished 12 1) 0).1 rfl (Nat.le_refl _)
  · exact (hread _ number behindBang [] (.finished 12 1) 0).2.2 (by decide)

end BlockLang
