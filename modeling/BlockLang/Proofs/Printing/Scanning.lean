import BlockLang.Proofs.Printing.Words

namespace BlockLang

namespace Escape

/-- What may stand between quotes. Each backslash escapes the character behind it, and neither a quote
nor a newline stands there without one. -/
inductive Closed : List Char → Prop
  | nil : Closed []
  | plain {c : Char} {cs : List Char} (slash : c ≠ '\\') (quote : c ≠ '"') (line : c ≠ '\n')
      (more : Closed cs) : Closed (c :: cs)
  | escaped {c : Char} {cs : List Char} (more : Closed cs) : Closed ('\\' :: c :: cs)

theorem closed_quoted (cs : List Char) : Closed (cs.flatMap write) := by
  induction cs with
  | nil => exact .nil
  | cons c cs ih =>
    rw [List.flatMap_cons]
    unfold write
    split
    · exact .escaped ih
    · exact .escaped ih
    · exact .escaped ih
    · rename_i hslash hquote hline
      exact .plain hslash hquote hline ih

end Escape

namespace Lexeme

/-- The quote behind is read as the closing one, whatever follows. -/
theorem stringBody?_closed {inner : List Char} (h : Escape.Closed inner) (body rest : List Char) :
    stringBody? false body (inner ++ '"' :: rest) = some (body.reverse ++ (inner ++ ['"']), rest) := by
  induction h generalizing body with
  | nil => simp [stringBody?]
  | plain slash quote line _ ih =>
    have hslash := decide_eq_false slash
    simp [stringBody?, if_neg quote, if_neg line, hslash, ih]
  | escaped _ ih => simp [stringBody?, ih]

/-- What is read up to a closing quote may stand between quotes. -/
theorem closed_of_stringBody? {escaped : Bool} {body cs chars rest : List Char}
    (h : stringBody? escaped body cs = some (chars, rest)) :
    ∃ inner, Escape.Closed (if escaped then '\\' :: inner else inner) ∧ cs = inner ++ '"' :: rest ∧
      chars = body.reverse ++ (inner ++ ['"']) := by
  induction cs generalizing escaped body with
  | nil => cases h
  | cons c cs ih =>
    rw [stringBody?] at h
    split at h
    · rename_i hescaped
      obtain ⟨inner, hclosed, rfl, rfl⟩ := ih h
      refine ⟨c :: inner, ?_, rfl, by simp⟩
      rw [if_pos hescaped]
      exact .escaped hclosed
    rename_i hescaped
    simp only [if_neg hescaped]
    split at h
    · cases h
    rename_i hline
    split at h
    · rename_i hquote
      cases h
      exact ⟨[], .nil, by simp [hquote], by simp [hquote]⟩
    · rename_i hquote
      obtain ⟨inner, hclosed, rfl, rfl⟩ := ih h
      refine ⟨c :: inner, ?_, rfl, by simp⟩
      by_cases hslash : c = '\\'
      · simpa [hslash] using hclosed
      · exact .plain hslash hquote hline (by simpa [hslash] using hclosed)

/-- In a literal, the quote that is read as the closing one is the last. -/
theorem stringBody?_quoted (cs body rest : List Char) :
    stringBody? false body (cs.flatMap Escape.write ++ '"' :: rest) =
      some (body.reverse ++ cs.flatMap Escape.write ++ ['"'], rest) := by
  rw [stringBody?_closed (Escape.closed_quoted cs), List.append_assoc]

end Lexeme

namespace Escape

theorem read_plain {c : Char} (slash : c ≠ '\\') (done cs : List Char) :
    read done (c :: cs) = read (c :: done) cs := by
  rw [read]
  · exact fun heq _ => slash heq
  · exact fun _ _ heq _ => slash heq

theorem read_write (c : Char) (cs done : List Char) :
    read done (write c ++ cs) = read (c :: done) cs := by
  unfold write
  split
  · simp [read, meaning?]
  · simp [read, meaning?]
  · simp [read, meaning?]
  · rename_i hslash _ _
    exact read_plain hslash done cs

theorem read_quoted (cs done : List Char) :
    read done (cs.flatMap write) = .ok (done.reverse ++ cs) := by
  induction cs generalizing done with
  | nil => simp [read]
  | cons c cs ih => simp [read_write, ih]

theorem inner?_enclosed (cs : List Char) : inner? ('"' :: (cs ++ ['"'])) = some cs := by
  simp [inner?]

/-- The value of a literal is what was quoted. -/
theorem value_quote {literal : String} {cs : List Char} (h : literal.toList = quote cs) :
    value literal = .ok (String.ofList cs) := by
  simp [value, h, quote, inner?_enclosed, read_quoted, Except.map]

end Escape

/-- A word may end before these characters, whatever it is. -/
def Parts (rest : List Char) : Prop :=
  ∀ c, rest.head? = some c → c = ' ' ∨ c = ')' ∨ c = ';' ∨ c = ','

theorem Parts.all {rest : List Char} (h : Parts rest) {p : Char → Bool} (blank : p ' ' = false)
    (paren : p ')' = false) (semicolon : p ';' = false) (comma : p ',' = false) :
    ∀ c, rest.head? = some c → p c = false := by
  intro c hc
  rcases h c hc with rfl | rfl | rfl | rfl
  · exact blank
  · exact paren
  · exact semicolon
  · exact comma

theorem toNat_of_isDigit {c : Char} (h : c.isDigit = true) : 48 ≤ c.toNat ∧ c.toNat ≤ 57 := by
  obtain ⟨low, high⟩ := Bool.and_eq_true_iff.mp h
  exact ⟨of_decide_eq_true low, of_decide_eq_true high⟩

theorem toNat_of_isAlpha {c : Char} (h : c.isAlpha = true) :
    65 ≤ c.toNat ∧ c.toNat ≤ 90 ∨ 97 ≤ c.toNat ∧ c.toNat ≤ 122 := by
  rcases Bool.or_eq_true_iff.mp h with upper | lower
  · exact .inl (of_decide_eq_true upper)
  · obtain ⟨low, high⟩ := Bool.and_eq_true_iff.mp lower
    exact .inr ⟨of_decide_eq_true low, of_decide_eq_true high⟩

theorem isBlank_of_isNameChar {c : Char} (h : isNameChar c = true) : isBlank c = false := by
  have hrange : 33 ≤ c.toNat ∧ c.toNat ≤ 126 := by
    simp only [isNameChar, Char.isAlphanum, Bool.or_eq_true, decide_eq_true_eq] at h
    rcases h with (letter | digit) | rfl
    · have := toNat_of_isAlpha letter
      omega
    · have := toNat_of_isDigit digit
      omega
    · decide
  simp only [isBlank, blankRanges, List.any_cons, List.any_nil, Bool.or_false, Bool.or_eq_false_iff,
    Bool.and_eq_false_imp, decide_eq_true_eq, decide_eq_false_iff_not]
  omega

theorem isBlank_of_isDigit {c : Char} (h : c.isDigit = true) : isBlank c = false :=
  isBlank_of_isNameChar (by simp [isNameChar, Char.isAlphanum, h])

theorem takeWhile_stop {p : Char → Bool} {cs rest : List Char} (all : ∀ c ∈ cs, p c = true)
    (stop : ∀ c, rest.head? = some c → p c = false) :
    (cs ++ rest).takeWhile p = cs ∧ (cs ++ rest).dropWhile p = rest := by
  rw [List.takeWhile_append_of_pos all, List.dropWhile_append_of_pos all]
  cases rest with
  | nil => simp
  | cons c rest =>
    have hc := stop c rfl
    simp [hc]

namespace Lexeme

variable {c : Char} {cs rest : List Char}

theorem scan_single {kind : TokenKind} (h : single? c = some kind) :
    scan c cs = .ok ⟨kind, [c], cs⟩ := by
  simp [scan, h]

theorem scan_name (start : isNameStart c = true) (chars : ∀ x ∈ cs, isNameChar x = true)
    (stop : ∀ x, rest.head? = some x → isNameChar x = false) :
    scan c (cs ++ rest) = .ok ⟨nameKind (c :: cs), c :: cs, rest⟩ := by
  obtain ⟨htake, hdrop⟩ := takeWhile_stop chars stop
  have hsingle : single? c = none := by
    unfold single?
    split <;> first | rfl | cases start
  have hquote : c ≠ '"' := by
    intro heq
    subst heq
    cases start
  simp [scan, hsingle, hquote, start, name, htake, hdrop]

theorem scan_string : scan '"' (cs.flatMap Escape.write ++ '"' :: rest) =
    .ok ⟨.string, Escape.quote cs, rest⟩ := by
  simp [scan, single?, stringBody?_quoted, Escape.quote]

theorem scan_digit (digit : c.isDigit = true) : scan c cs = number c cs := by
  have hsingle : single? c = none := by
    unfold single?
    split <;> first | rfl | cases digit
  have hquote : c ≠ '"' := by
    intro heq
    subst heq
    cases digit
  have hrange := toNat_of_isDigit digit
  have hname : isNameStart c = false := by
    rw [isNameStart, Bool.or_eq_false_iff, decide_eq_false_iff_not]
    refine ⟨Bool.eq_false_iff.mpr fun letter => ?_, ?_⟩
    · have := toNat_of_isAlpha letter
      omega
    · intro heq
      subst heq
      exact absurd hrange (by decide)
  have hop : operator? c cs = none := by
    unfold operator? sign?
    split <;> first | rfl | cases digit
  simp [scan, hsingle, hquote, hname, hop, digit]

theorem endNumber_parts {kind : TokenKind} {chars : List Char} (stop : Parts rest) :
    endNumber kind chars rest = .ok ⟨kind, chars, rest⟩ := by
  cases rest with
  | nil => rfl
  | cons c rest =>
    have hc : isDelimiter c = true := by
      rcases stop c rfl with rfl | rfl | rfl | rfl <;> decide
    simp [endNumber, hc]

theorem scan_number (digits : ∀ x ∈ c :: cs, x.isDigit = true) (stop : Parts rest) :
    scan c (cs ++ rest) = .ok ⟨.number, c :: cs, rest⟩ := by
  obtain ⟨hc, hcs⟩ := List.forall_mem_cons.mp digits
  obtain ⟨htake, hdrop⟩ := takeWhile_stop hcs (stop.all rfl rfl rfl rfl)
  have hpoint : ∀ after, rest ≠ '.' :: after := by
    intro after heq
    subst heq
    simpa using stop '.' rfl
  rw [scan_digit hc, number, htake, hdrop]
  split
  · rename_i after
    exact absurd rfl (hpoint after)
  · exact endNumber_parts stop

theorem scan_decimal {fraction : List Char} (whole : ∀ x ∈ c :: cs, x.isDigit = true)
    (digits : ∀ x ∈ fraction, x.isDigit = true) (nonempty : fraction ≠ []) (stop : Parts rest) :
    scan c (cs ++ '.' :: (fraction ++ rest)) =
      .ok ⟨.decimal, c :: cs ++ '.' :: fraction, rest⟩ := by
  obtain ⟨hc, hcs⟩ := List.forall_mem_cons.mp whole
  have hpoint : ∀ x, ('.' :: (fraction ++ rest)).head? = some x → x.isDigit = false := by
    intro x hx
    cases hx
    rfl
  obtain ⟨htake, hdrop⟩ := takeWhile_stop hcs hpoint
  obtain ⟨htake', hdrop'⟩ := takeWhile_stop digits (stop.all rfl rfl rfl rfl)
  simp [scan_digit hc, number, htake, hdrop, htake', hdrop', nonempty, endNumber_parts stop]

theorem scan_sign {sign : Sign} {chars after : List Char}
    (h : sign? c cs = some (sign, chars, after)) :
    scan c cs = .ok (operator sign chars after) := by
  have hop : operator? c cs = some (operator sign chars after) := by
    rw [operator?, h]
    rfl
  have hfirst : single? c = none ∧ c ≠ '"' ∧ isNameStart c = false := by
    unfold sign? at h
    split at h <;> first | decide | cases h
  simp [scan, hfirst, hop]

theorem sign?_pipe (h : rest.head? ≠ some '|') : sign? '|' rest = some (.pipe, ['|'], rest) := by
  unfold sign?
  split <;> grind

theorem sign?_and (h : rest.head? ≠ some '&') : sign? '&' rest = some (.and, ['&'], rest) := by
  unfold sign?
  split <;> grind

theorem operator_stop {sign : Sign} {chars : List Char} (stop : rest.head? ≠ some '=') :
    operator sign chars rest = ⟨.operator sign false, chars, rest⟩ := by
  unfold operator
  split
  · exact absurd rfl stop
  · rfl

end Lexeme

namespace Word

/-- In front of `rest`, the word is the next token. -/
def Scans (w : Word) (rest : List Char) : Prop :=
  ∃ c cs, w.text = c :: cs ∧ isBlank c = false ∧ (c = '/' → (cs ++ rest).head? ≠ some '/') ∧
    Lexeme.scan c (cs ++ rest) = .ok ⟨w.kind, w.text, rest⟩

/-- The word is a token wherever words may end. -/
def Fair (w : Word) : Prop :=
  ∀ rest, Parts rest → w.Scans rest

/-- No blank is needed in front of the other word. -/
def Joins (w next : Word) : Prop :=
  ∀ rest, w.Scans (next.text ++ rest)

variable {c : Char} {cs rest : List Char} {tight : Bool}

theorem scans_single {kind : TokenKind} (h : Lexeme.single? c = some kind) (rest : List Char) :
    (Word.mk kind [c] tight).Scans rest := by
  have hc : isBlank c = false ∧ c ≠ '/' := by
    unfold Lexeme.single? at h
    split at h <;> first | decide | cases h
  exact ⟨c, [], rfl, hc.1, fun h => absurd h hc.2, Lexeme.scan_single h⟩

theorem scans_sign {sign : Sign} (h : Lexeme.sign? c (cs ++ rest) = some (sign, c :: cs, rest))
    (equals : rest.head? ≠ some '=') (slash : rest.head? ≠ some '/') :
    (Word.mk (.operator sign false) (c :: cs) tight).Scans rest := by
  have hscan := Lexeme.scan_sign h
  rw [Lexeme.operator_stop equals] at hscan
  refine ⟨c, cs, rfl, ?_, ?_, hscan⟩
  · unfold Lexeme.sign? at h
    split at h <;> first | decide | cases h
  · intro heq
    subst heq
    cases h
    exact slash

theorem scans_equals {sign : Sign}
    (h : Lexeme.sign? c ('=' :: rest) = some (sign, [c], '=' :: rest)) :
    (Word.mk (.operator sign true) [c, '='] tight).Scans rest := by
  have hscan := Lexeme.scan_sign h
  refine ⟨c, ['='], rfl, ?_, nofun, hscan⟩
  unfold Lexeme.sign? at h
  split at h <;> first | decide | cases h

theorem fair_question : question.Fair := by
  intro rest parts
  exact scans_sign rfl (by grind [Parts]) (by grind [Parts])

theorem fair_infixed (op : BinaryOp) : (infixed op).Fair := by
  intro rest parts
  have hrest : rest.head? ≠ some '=' ∧ rest.head? ≠ some '/' ∧ rest.head? ≠ some '|' ∧
      rest.head? ≠ some '&' := by
    grind [Parts]
  obtain ⟨hequals, hslash, hpipe, hand⟩ := hrest
  cases op with
  | arith op => cases op <;> exact scans_sign rfl hequals hslash
  | bit op =>
    cases op with
    | or => exact scans_sign (Lexeme.sign?_pipe hpipe) hequals hslash
    | xor => exact scans_sign rfl hequals hslash
    | and => exact scans_sign (Lexeme.sign?_and hand) hequals hslash
  | logic op => cases op <;> exact scans_sign rfl hequals hslash
  | compare relation =>
    cases relation with
    | less | greater => exact scans_sign rfl hequals hslash
    | _ => exact scans_equals rfl
  | assign => exact scans_sign rfl hequals hslash

/-- A prefix operator is one in front of anything but `=`. -/
theorem scans_prefixed (op : UnaryOp) (equals : rest.head? ≠ some '=') :
    (prefixed op).Scans rest := by
  have hscan (sign : Sign) (c : Char) (h : Lexeme.sign? c rest = some (sign, [c], rest)) :
      Lexeme.scan c rest = .ok ⟨.operator sign false, [c], rest⟩ := by
    rw [Lexeme.scan_sign h, Lexeme.operator_stop equals]
  cases op with
  | negate => exact ⟨'-', [], rfl, rfl, nofun, hscan .minus '-' rfl⟩
  | not => exact ⟨'!', [], rfl, rfl, nofun, hscan .bang '!' rfl⟩

theorem scans_name {kind : TokenKind} (start : isNameStart c = true)
    (chars : ∀ x ∈ cs, isNameChar x = true) (hkind : Lexeme.nameKind (c :: cs) = kind)
    (parts : Parts rest) : (Word.mk kind (c :: cs) tight).Scans rest := by
  have hscan := Lexeme.scan_name start chars (parts.all rfl rfl rfl rfl)
  rw [hkind] at hscan
  refine ⟨c, cs, rfl, isBlank_of_isNameChar ?_, ?_, hscan⟩
  · grind [isNameStart, isNameChar, Char.isAlphanum]
  · intro heq
    subst heq
    cases start

theorem fair_keyword (word : Keyword) : (keyword word).Fair := by
  intro rest parts
  cases word <;> exact scans_name rfl (List.all_eq_true.mp rfl) rfl parts

theorem fair_name {text : String} (h : IsName text) : (name text).Fair := by
  intro rest parts
  obtain ⟨c, cs, htext, hstart⟩ := h.start
  have hkind : Lexeme.nameKind (c :: cs) = .identifier := by
    rw [Lexeme.nameKind, ← htext, String.ofList_toList, h.word]
  have hchars := h.chars
  rw [htext] at hchars
  rw [name, htext]
  exact scans_name hstart (List.forall_mem_cons.mp hchars).2 hkind parts

theorem fair_digits (nonempty : cs ≠ []) (digits : ∀ x ∈ cs, x.isDigit = true) :
    (Word.mk .number cs tight).Fair := by
  intro rest parts
  obtain ⟨c, cs, rfl⟩ := List.exists_cons_of_ne_nil nonempty
  refine ⟨c, cs, rfl, isBlank_of_isDigit (digits c (List.mem_cons_self ..)), ?_,
    Lexeme.scan_number digits parts⟩
  intro heq
  subst heq
  exact absurd (digits '/' (List.mem_cons_self ..)) (by decide)

theorem fair_number (n : Nat) : (number n).Fair :=
  fair_digits Nat.toDigits_ne_nil fun _ => Nat.isDigit_of_mem_toDigits (by decide) (by decide)

theorem fair_decimal {text : List Char} {value : Double} (h : Spells text value) :
    (Word.mk .decimal text false).Fair := by
  intro rest parts
  obtain ⟨whole, fraction, rfl, hwhole, hfraction, hdigits, hdigits', _⟩ := h.digits
  obtain ⟨c, cs, rfl⟩ := List.exists_cons_of_ne_nil hwhole
  have hscan := Lexeme.scan_decimal hdigits hdigits' hfraction parts
  refine ⟨c, cs ++ '.' :: fraction, rfl, isBlank_of_isDigit (hdigits c (List.mem_cons_self ..)), ?_,
    ?_⟩
  · intro heq
    subst heq
    exact absurd (hdigits '/' (List.mem_cons_self ..)) (by decide)
  · rw [List.append_assoc, List.cons_append]
    exact hscan

theorem fair_string (cs : List Char) : (Word.mk .string (Escape.quote cs) false).Fair := by
  intro rest _
  refine ⟨'"', _, rfl, rfl, nofun, ?_⟩
  rw [List.append_assoc, List.singleton_append]
  exact Lexeme.scan_string

theorem fair_of_single {kind : TokenKind} (h : Lexeme.single? c = some kind) :
    (Word.mk kind [c] tight).Fair :=
  fun rest _ => scans_single h rest

theorem openParen_joins (next : Word) : openParen.Joins next :=
  fun _ => scans_single rfl _

theorem prefixed_joins {op : UnaryOp} {next : Word} (h : next.text = c :: cs) (equals : c ≠ '=') :
    (prefixed op).Joins next := by
  intro rest
  apply scans_prefixed
  simpa [h] using equals

end Word

end BlockLang
