import BlockLang.Proofs.Printing.Scanning

namespace BlockLang

/-- Words that can be laid out. Behind a tight one there is another that it joins. -/
inductive Row : List Word → Prop
  | nil : Row []
  | apart {w : Word} {ws : List Word} (fair : w.Fair) (spaced : w.tight = false) (more : Row ws) :
      Row (w :: ws)
  | joined {w next : Word} {ws : List Word} (joins : w.Joins next) (tight : w.tight = true)
      (more : Row (next :: ws)) : Row (w :: next :: ws)

/-- The words stand one after another in the text, with any blanks between them. -/
inductive Spelled : List Word → List Char → Prop
  | done : Spelled [] []
  | blank {ws : List Word} {c : Char} {cs : List Char} (blank : isBlank c = true)
      (more : Spelled ws cs) : Spelled ws (c :: cs)
  | word {w : Word} {ws : List Word} {rest : List Char} (scans : w.Scans rest)
      (more : Spelled ws rest) : Spelled (w :: ws) (w.text ++ rest)

theorem Row.append {xs ys : List Word} (hx : Row xs) (hy : Row ys) : Row (xs ++ ys) := by
  induction hx with
  | nil => exact hy
  | apart fair spaced _ ih => exact .apart fair spaced ih
  | joined joins tight _ ih => exact .joined joins tight ih

theorem Row.single {w : Word} (fair : w.Fair) (spaced : w.tight = false) : Row [w] :=
  .apart fair spaced .nil

theorem Word.parts_of_closes {w : Word} (h : w.closes = true) (rest : List Char) :
    Parts (w.text ++ rest) := by
  simp only [closes, Bool.or_eq_true, decide_eq_true_eq] at h
  intro c hc
  rcases h with (h | h) | h
  · rw [h] at hc
    cases hc
    simp
  · rw [h] at hc
    cases hc
    simp
  · rw [h] at hc
    cases hc
    simp

theorem Row.spelled {ws : List Word} (h : Row ws) : Spelled ws (layout ws) := by
  induction h with
  | nil => exact .done
  | @apart w ws fair spaced more ih =>
    rw [layout, List.append_assoc]
    cases ws with
    | nil => exact .word (fair [] nofun) .done
    | cons next ws =>
      -- A blank stands between the two, unless the next word closes something.
      cases hcloses : next.closes with
      | true =>
        have hgap : w.gap (next :: ws) = [] := by simp [Word.gap, hcloses]
        rw [hgap, List.nil_append]
        refine .word (fair _ ?_) ih
        rw [layout, List.append_assoc]
        exact next.parts_of_closes hcloses _
      | false =>
        have hgap : w.gap (next :: ws) = [' '] := by simp [Word.gap, spaced, hcloses]
        rw [hgap]
        have hblank : Parts (' ' :: layout (next :: ws)) := by
          intro x hx
          cases hx
          exact .inl rfl
        exact .word (fair _ hblank) (.blank rfl ih)
  | @joined w next ws joins tight more ih =>
    have hgap : w.gap (next :: ws) = [] := by simp [Word.gap, tight]
    rw [layout, hgap, List.append_nil]
    rw [layout, List.append_assoc] at ih ⊢
    exact .word (joins _) ih

/-- The tokens have the kinds and the texts of the words. -/
inductive Written : List Word → List Token → Prop
  | nil : Written [] []
  | cons {w : Word} {ws : List Word} {token : Token} {tokens : List Token}
      (kind : token.kind = w.kind) (text : token.text.toList = w.text) (more : Written ws tokens) :
      Written (w :: ws) (token :: tokens)

namespace Scan

variable (source : Source) (found : Array Token) (offset : Nat) {c : Char} {cs : List Char}

theorem run_eq : run source found offset cs =
    match skipTrivia false offset cs with
    | (start, []) => ⟨found.toList, .finished start (source.lineOf start)⟩
    | (start, c :: rest) =>
      match Lexeme.scan c rest with
      | .error (fault, distance) => ⟨found.toList, .failed ⟨fault, start + distance⟩⟩
      | .ok lexeme =>
        run source
          (found.push ⟨lexeme.kind, String.ofList lexeme.chars, start, source.lineOf start⟩)
          (start + utf8Length lexeme.chars) lexeme.rest := by
  rw [run]
  split
  · rename_i hskip
    rw [hskip]
  · rename_i hskip
    rw [hskip]
    dsimp only
    split
    · rename_i hscan
      rw [hscan]
    · rename_i hscan
      rw [hscan]

theorem run_nil : run source found offset [] =
    ⟨found.toList, .finished offset (source.lineOf offset)⟩ := by
  rw [run_eq, skipTrivia]

theorem run_blank (h : isBlank c = true) :
    run source found offset (c :: cs) = run source found (offset + c.utf8Size) cs := by
  have hskip : skipTrivia false offset (c :: cs) = skipTrivia false (offset + c.utf8Size) cs := by
    simp [skipTrivia, h]
  rw [run_eq, hskip, ← run_eq]

theorem run_token {lexeme : Lexeme} (blank : isBlank c = false)
    (comment : c = '/' → cs.head? ≠ some '/') (h : Lexeme.scan c cs = .ok lexeme) :
    run source found offset (c :: cs) =
      run source (found.push ⟨lexeme.kind, String.ofList lexeme.chars, offset, source.lineOf offset⟩)
        (offset + utf8Length lexeme.chars) lexeme.rest := by
  have hskip : skipTrivia false offset (c :: cs) = (offset, c :: cs) := by
    simpa [skipTrivia, blank] using fun hc hslash => absurd hslash (comment hc)
  rw [run_eq, hskip]
  dsimp only
  rw [h]

/-- Words that are spelled are scanned, with nothing wrong behind the last of them. -/
theorem run_spelled {ws : List Word} (h : Spelled ws cs) : ∃ tokens last line,
    run source found offset cs = ⟨found.toList ++ tokens, .finished last line⟩ ∧
      Written ws tokens := by
  induction h generalizing found offset with
  | done => exact ⟨[], offset, _, by rw [run_nil, List.append_nil], .nil⟩
  | blank blank _ ih =>
    rw [run_blank source found offset blank]
    exact ih found _
  | @word w _ _ scans _ ih =>
    obtain ⟨c, cs, htext, blank, comment, hscan⟩ := scans
    rw [htext, List.cons_append, run_token source found offset blank comment hscan]
    let token : Token := ⟨w.kind, String.ofList w.text, offset, source.lineOf offset⟩
    obtain ⟨tokens, last, line, hrun, hwritten⟩ := ih (found.push token) _
    refine ⟨token :: tokens, last, line, ?_, .cons rfl String.toList_ofList hwritten⟩
    rw [hrun, Array.toList_push, List.append_assoc, List.singleton_append]

end Scan

/-- Between parentheses or alone, an expression starts with a parenthesis or a name. -/
theorem Expr.enclose_eq {spell : Double → List Char} {e : Expr} (h : e.Writable spell) :
    ∃ w ws, e.enclose (e.words spell) = w :: ws ∧
      (w = .openParen ∨ ∃ text, IsName text ∧ w = .name text) := by
  cases e with
  | var mark text slot => exact ⟨_, _, rfl, .inr ⟨text, h.2.2, rfl⟩⟩
  | _ => exact ⟨_, _, rfl, .inl rfl⟩

/-- What an expression may start with. -/
def TokenKind.startsExpr : TokenKind → Bool
  | .openParen | .number | .decimal | .string | .identifier | .operator .minus false
  | .operator .bang false | .keyword .truth | .keyword .falsehood => true
  | _ => false

theorem TokenKind.ty?_of_startsExpr {kind : TokenKind} (h : kind.startsExpr = true) :
    kind.ty? = none := by
  unfold startsExpr at h
  split at h <;> first | rfl | cases h

theorem Expr.words_eq {spell : Double → List Char} {e : Expr} (h : e.Writable spell) :
    ∃ w ws, e.words spell = w :: ws ∧ w.kind.startsExpr = true := by
  have hfirst {l : Expr} (hl : l.Writable spell) (more : List Word) :
      ∃ w ws, l.enclose (l.words spell) ++ more = w :: ws ∧ w.kind.startsExpr = true := by
    obtain ⟨w, ws, hws, hw⟩ := enclose_eq hl
    refine ⟨w, ws ++ more, by rw [hws, List.cons_append], ?_⟩
    rcases hw with rfl | ⟨text, _, rfl⟩
    · rfl
    · rfl
  cases e with
  | literal mark value =>
    cases value with
    | int value =>
      rw [words, Literal.words]
      split
      · exact ⟨_, _, rfl, rfl⟩
      · exact ⟨_, _, rfl, rfl⟩
    | boolean value => cases value <;> exact ⟨_, _, rfl, rfl⟩
    | _ => exact ⟨_, _, rfl, rfl⟩
  | var mark text slot => exact ⟨_, _, rfl, rfl⟩
  | unary mark op e => cases op <;> exact ⟨_, _, rfl, rfl⟩
  | binary mark op l r => exact hfirst h.2.1 _
  | concat => exact h.elim
  | ternary mark c t f => exact hfirst h.2.1 _
  | guarded mark c t => exact hfirst h.2.1 _

variable {spell : Double → List Char}

theorem Row.opened {ws : List Word} (h : Row ws) (nonempty : ws ≠ []) : Row (.openParen :: ws) := by
  obtain ⟨next, ws, rfl⟩ := List.exists_cons_of_ne_nil nonempty
  exact .joined (Word.openParen_joins next) rfl h

theorem Row.closed {ws : List Word} (h : Row ws) : Row (ws ++ [.closeParen]) :=
  h.append (.single (Word.fair_of_single rfl) rfl)

theorem Row.separated {parts : List (List Word)} (h : ∀ ws ∈ parts, Row ws) :
    Row (separated parts) := by
  induction parts with
  | nil => exact .nil
  | cons ws parts ih =>
    obtain ⟨hws, hparts⟩ := List.forall_mem_cons.mp h
    cases parts with
    | nil => exact hws
    | cons next parts => exact hws.append (.apart (Word.fair_of_single rfl) rfl (ih hparts))

theorem Literal.row {value : Literal} (h : value.Writable spell) : Row (value.words spell) := by
  cases value with
  | int value =>
    have hnumber : Row [Word.number value.toInt.natAbs] := .single (Word.fair_number _) rfl
    rw [words]
    split
    · obtain ⟨c, cs, htext⟩ := List.exists_cons_of_ne_nil
        (Nat.toDigits_ne_nil : Nat.toDigits 10 value.toInt.natAbs ≠ [])
      refine .joined (Word.prefixed_joins htext ?_) rfl hnumber
      intro heq
      subst heq
      have hdigit := Nat.isDigit_of_mem_toDigits (by decide) (by decide)
        (htext ▸ List.mem_cons_self .. : '=' ∈ Nat.toDigits 10 value.toInt.natAbs)
      exact absurd hdigit (by decide)
    · exact hnumber
  | double value => exact .single (Word.fair_decimal h) rfl
  | boolean value => exact .single (Word.fair_keyword _) rfl
  | string value => exact .single (Word.fair_string _) rfl

theorem Expr.row_enclose {e : Expr} (h : Row (e.words spell)) : Row (e.enclose (e.words spell)) := by
  unfold enclose
  split
  · exact h
  · exact h.closed.opened (by simp)

theorem Expr.row {e : Expr} (h : e.Writable spell) : Row (e.words spell) := by
  induction e with
  | literal mark value => exact Literal.row h.2
  | var mark text slot => exact .single (Word.fair_name h.2.2) rfl
  | unary mark op e ih =>
    have hinner := row_enclose (ih h.2)
    obtain ⟨w, ws, hws, hw⟩ := enclose_eq h.2
    rw [words]
    rw [hws] at hinner ⊢
    refine .joined ?_ rfl hinner
    rcases hw with rfl | ⟨text, hname, rfl⟩
    · exact Word.prefixed_joins rfl (by decide)
    · obtain ⟨c, cs, htext, hstart⟩ := hname.start
      refine Word.prefixed_joins htext ?_
      intro heq
      subst heq
      cases hstart
  | binary mark op l r ihl ihr =>
    have hr := row_enclose (ihr h.2.2)
    exact (row_enclose (ihl h.2.1)).append (.apart (Word.fair_infixed op) rfl hr)
  | concat => exact h.elim
  | ternary mark c t f ihc iht ihf =>
    have hf := row_enclose (ihf h.2.2.2)
    have ht := (row_enclose (iht h.2.2.1)).append
      (.apart (w := .colon) (Word.fair_of_single rfl) rfl hf)
    exact (row_enclose (ihc h.2.1)).append (.apart Word.fair_question rfl ht)
  | guarded mark c t ihc iht =>
    have ht := row_enclose (iht h.2.2)
    exact (row_enclose (ihc h.2.1)).append (.apart Word.fair_question rfl ht)

theorem Declarator.row {ty : Ty} {d : Declarator} (h : d.Writable spell ty) :
    Row (d.words spell) := by
  refine .apart (Word.fair_name h.name) rfl ?_
  cases hinit : d.init with
  | none => exact .nil
  | some e => exact .apart (Word.fair_infixed .assign) rfl (Expr.row (h.init e hinit))

theorem Declarator.row_all {ty : Ty} {names : List Declarator} (h : AllWritable spell ty names) :
    Row (wordsOfAll spell ty names) := by
  have hty : Row ty.words := by
    obtain ⟨kind, hkind⟩ := h.kind
    cases ty with
    | void | any => cases hkind
    | _ => exact .single (Word.fair_keyword _) rfl
  refine hty.append (.separated ?_)
  intro ws hws
  obtain ⟨d, hd, rfl⟩ := List.mem_map.mp hws
  exact Declarator.row (h.each d hd)

namespace Stmt

theorem row_evals {ss : List Stmt} (h : EvalsWritable spell ss) :
    Row (separated (ss.map (evalWords spell))) := by
  refine .separated ?_
  intro ws hws
  obtain ⟨s, hs, rfl⟩ := List.mem_map.mp hws
  obtain ⟨e, rfl, he⟩ := h s hs
  exact Expr.row he

theorem row_start {names : List Declarator} {init : List Stmt}
    (h : (names = [] ∧ EvalsWritable spell init) ∨
      (init = [] ∧ ∃ ty, Declarator.AllWritable spell ty names)) :
    Row (startWords spell init names) := by
  rcases h with ⟨rfl, hinit⟩ | ⟨rfl, ty, hnames⟩
  · exact row_evals hinit
  · cases names with
    | nil => exact absurd rfl hnames.some
    | cons d ds =>
      have hd := (hnames.each d (List.mem_cons_self ..)).ty
      rw [startWords, hd]
      exact Declarator.row_all hnames

theorem row_condition {condition : Option Expr} (h : ∀ e, condition = some e → e.Writable spell) :
    Row (conditionWords spell condition) := by
  cases condition with
  | none => exact .nil
  | some e => exact Expr.row (h e rfl)

/-- An expression between parentheses ends a statement. -/
theorem row_parenthesized {e : Expr} (h : e.Writable spell) :
    Row (.openParen :: (e.words spell ++ [.closeParen, .semicolon])) := by
  have hlast : Row [.closeParen, .semicolon] :=
    .apart (Word.fair_of_single rfl) rfl (.single (Word.fair_of_single rfl) rfl)
  exact ((Expr.row h).append hlast).opened (by simp)

mutual

theorem row (s : Stmt) (h : s.Writable spell) : Row (s.words spell) :=
  match s with
  | .declare _ _ _ => (Declarator.row_all h).append (.single (Word.fair_of_single rfl) rfl)
  | .eval _ => (Expr.row h).append (.single (Word.fair_of_single rfl) rfl)
  | .print _ _ => .apart (Word.fair_keyword _) rfl (row_parenthesized h)
  | .block _ body => .apart (Word.fair_of_single rfl) rfl
      ((row_all body h).append (.single (Word.fair_of_single rfl) rfl))
  | .doWhile _ body _ => .apart (Word.fair_keyword _) rfl ((row body h.1).append
      (.apart (Word.fair_keyword _) rfl (row_parenthesized h.2)))
  | .forLoop _ names init condition update body => by
    obtain ⟨hstart, hcondition, hupdate, hbody⟩ := h
    have hsteps := (row_evals hupdate).append
      (.apart (w := .closeParen) (Word.fair_of_single rfl) rfl (row body hbody))
    have htest := (row_condition hcondition).append
      (.apart (w := .semicolon) (Word.fair_of_single rfl) rfl hsteps)
    have hhead := (row_start hstart).append
      (.apart (w := .semicolon) (Word.fair_of_single rfl) rfl htest)
    exact .apart (Word.fair_keyword _) rfl (hhead.opened (by simp))

theorem row_all (ss : List Stmt) (h : AllWritable spell ss) : Row (wordsOfAll spell ss) :=
  match ss with
  | [] => .nil
  | s :: ss => (row s h.1).append (row_all ss h.2)

end

end Stmt

/-- The text of a program is scanned as its words. -/
theorem Program.scan_text {program : Program} (h : Stmt.AllWritable spell program)
    (path : Option String) : ∃ tokens last line,
    Scan.ofSource (.ofString (program.text spell) path) = ⟨tokens, .finished last line⟩ ∧
      Written (Stmt.wordsOfAll spell program) tokens := by
  have hspelled := (Stmt.row_all program h).spelled
  obtain ⟨tokens, last, line, hrun, hwritten⟩ :=
    Scan.run_spelled (.ofString (program.text spell) path) #[] 0 hspelled
  refine ⟨tokens, last, line, ?_, hwritten⟩
  have htext : (program.text spell).toList = layout (Stmt.wordsOfAll spell program) :=
    String.toList_ofList
  change Scan.run _ #[] 0 (program.text spell).toList = _
  rw [htext, hrun, List.nil_append]

end BlockLang
