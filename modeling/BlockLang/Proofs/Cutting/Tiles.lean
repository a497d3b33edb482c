import BlockLang.Proofs.Cutting.Lexemes
import BlockLang.Proofs.Locating
import BlockLang.Proofs.Spacing

namespace BlockLang

/-- Blanks and comments, each up to the end of its line. Where the text ends, a comment may end with
it. -/
inductive Trivia (last : Prop) : List Char → Prop
  | nil : Trivia last []
  | blank {c : Char} {cs : List Char} (blank : isBlank c = true) (more : Trivia last cs) :
      Trivia last (c :: cs)
  | comment {body cs : List Char} (line : '\n' ∉ body) (more : Trivia last cs) :
      Trivia last ('/' :: '/' :: (body ++ '\n' :: cs))
  | ended {body : List Char} (line : '\n' ∉ body) (here : last) : Trivia last ('/' :: '/' :: body)

theorem Trivia.mono {last last' : Prop} {cs : List Char} (h : Trivia last cs) (hlast : last → last') :
    Trivia last' cs := by
  induction h with
  | nil => exact .nil
  | blank blank _ ih => exact .blank blank ih
  | comment line _ ih => exact .comment line ih
  | ended line here => exact .ended line (hlast here)

/-- What is left of an open comment, and what follows it. -/
def Commented (last : Prop) (cs : List Char) : Prop :=
  (∃ body more, cs = body ++ '\n' :: more ∧ '\n' ∉ body ∧ Trivia last more) ∨ (last ∧ '\n' ∉ cs)

/-- A token may start with these characters. -/
def Starts (cs : List Char) : Prop :=
  ∀ c more, cs = c :: more → isBlank c = false ∧ (c = '/' → more.head? ≠ some '/')

namespace Scan

theorem commented_cons {last : Prop} {c : Char} {cs : List Char} (hc : c ≠ '\n')
    (h : Commented last cs) : Commented last (c :: cs) := by
  rcases h with ⟨body, more, rfl, hbody, hmore⟩ | ⟨hlast, hline⟩
  · exact .inl ⟨c :: body, more, rfl, by simp [hbody, hc.symm], hmore⟩
  · exact .inr ⟨hlast, by simp [hline, hc.symm]⟩

/-- The second slash opens a comment behind the first one. -/
theorem trivia_of_commented {last : Prop} {cs : List Char} (h : Commented last ('/' :: cs)) :
    Trivia last ('/' :: '/' :: cs) := by
  rcases h with ⟨body, more, heq, hbody, hmore⟩ | ⟨hlast, hline⟩
  · cases body with
    | nil => cases heq
    | cons c body =>
      cases heq
      exact .comment (fun hline => hbody (List.mem_cons_of_mem _ hline)) hmore
  · exact .ended (fun hmem => hline (List.mem_cons_of_mem _ hmem)) hlast

/-- What is skipped is a gap, and a token may start behind it. -/
theorem skipTrivia_eq (comment : Bool) (offset : Nat) (cs : List Char) : ∃ gap rest,
    cs = gap ++ rest ∧ skipTrivia comment offset cs = (offset + utf8Length gap, rest) ∧
      (if comment then Commented (rest = []) gap else Trivia (rest = []) gap) ∧ Starts rest := by
  induction cs generalizing comment offset with
  | nil =>
    refine ⟨[], [], rfl, rfl, ?_, nofun⟩
    cases comment with
    | true => exact .inr ⟨rfl, nofun⟩
    | false => exact .nil
  | cons c cs ih =>
    cases comment with
    | true =>
      obtain ⟨gap, rest, rfl, hskip, hgap, hstarts⟩ := ih (c != '\n') (offset + c.utf8Size)
      refine ⟨c :: gap, rest, rfl, ?_, ?_, hstarts⟩
      · rw [utf8Length_cons, ← Nat.add_assoc, ← hskip]
        simp [skipTrivia]
      · by_cases hc : c = '\n'
        · subst hc
          exact .inl ⟨[], gap, rfl, nofun, hgap⟩
        · rw [if_pos (by simpa using hc)] at hgap
          exact commented_cons hc hgap
    | false =>
      by_cases hblank : isBlank c = true
      · obtain ⟨gap, rest, rfl, hskip, hgap, hstarts⟩ := ih false (offset + c.utf8Size)
        refine ⟨c :: gap, rest, rfl, ?_, .blank hblank hgap, hstarts⟩
        rw [utf8Length_cons, ← Nat.add_assoc, ← hskip]
        simp [skipTrivia, hblank]
      by_cases hslash : c = '/' ∧ cs.head? = some '/'
      · obtain ⟨rfl, hhead⟩ := hslash
        obtain ⟨ds, rfl⟩ := List.head?_eq_some_iff.mp hhead
        obtain ⟨gap, rest, heq, hskip, hgap, hstarts⟩ := ih true (offset + 1)
        cases gap with
        | nil =>
          rcases hgap with ⟨_, _, hnil, _⟩ | ⟨hrest, _⟩
          · simp at hnil
          · simp [hrest] at heq
        | cons d gap =>
          obtain ⟨rfl, rfl⟩ := List.cons.inj heq
          refine ⟨'/' :: '/' :: gap, rest, rfl, ?_, trivia_of_commented hgap, hstarts⟩
          rw [utf8Length_cons, ← Nat.add_assoc]
          exact hskip
      · refine ⟨[], c :: cs, rfl, ?_, .nil, ?_⟩
        · simp only [skipTrivia, hblank, Bool.false_eq_true, if_false]
          exact if_neg (by simpa using hslash)
        · intro d more heq
          cases heq
          exact ⟨by simpa using hblank, fun hc hhead => hslash ⟨hc, hhead⟩⟩

end Scan

namespace Token

/-- The offset right behind the token. -/
def stop (token : Token) : Nat :=
  token.offset + utf8Length token.text.toList

/-- What the token is written as. -/
def word (token : Token) : Word :=
  ⟨token.kind, token.text.toList, false⟩

end Token

theorem Token.text_ne_nil {token : Token} (h : token.word.Fair) : token.text.toList ≠ [] := by
  obtain ⟨c, cs, htext, -⟩ := h [] nofun
  change token.text.toList = c :: cs at htext
  simp [htext]

theorem Token.offset_lt_stop {token : Token} (h : token.word.Fair) : token.offset < token.stop :=
  Nat.lt_add_of_pos_right (utf8Length_pos (text_ne_nil h))

/-- The characters from `offset` on are these tokens, each behind a gap, and what the ending is about:
one more gap if the text is finished. -/
inductive Tiles : Nat → List Char → List Token → Ending → Prop
  | finished {offset line : Nat} {cs : List Char} (gap : Trivia True cs) :
      Tiles offset cs [] (.finished (offset + utf8Length cs) line)
  | failed {offset : Nat} {cs : List Char} {error : LexError} : Tiles offset cs [] (.failed error)
  | token {offset : Nat} {gap rest : List Char} {token : Token} {tokens : List Token} {ending : Ending}
      (trivia : Trivia False gap) (fair : token.word.Fair)
      (here : token.offset = offset + utf8Length gap)
      (more : Tiles token.stop rest tokens ending) :
      Tiles offset (gap ++ (token.text.toList ++ rest)) (token :: tokens) ending

namespace Scan

theorem run_tiles (source : Source) (found : Array Token) (offset : Nat) (cs : List Char) :
    ∃ tokens ending, run source found offset cs = ⟨found.toList ++ tokens, ending⟩ ∧
      Tiles offset cs tokens ending := by
  induction hlength : cs.length using Nat.strong_induction_on generalizing found offset cs with
  | _ n ih =>
    obtain ⟨gap, rest, rfl, hskip, hgap, hstarts⟩ := skipTrivia_eq false offset cs
    rw [run_eq, hskip]
    rw [if_neg Bool.false_ne_true] at hgap
    cases rest with
    | nil =>
      refine ⟨[], .finished (offset + utf8Length gap) _, by rw [List.append_nil], ?_⟩
      rw [List.append_nil]
      exact .finished (hgap.mono fun _ => trivial)
    | cons c rest =>
      obtain ⟨hblank, hcomment⟩ := hstarts c rest rfl
      cases hscan : Lexeme.scan c rest with
      | error fault => exact ⟨[], .failed _, by simp [hscan]; rfl, .failed⟩
      | ok l =>
        obtain ⟨more, hchars, hrest, -⟩ := Lexeme.repeats_scan hscan
        have hshorter : l.rest.length < n := by
          have hle := Lexeme.length_scan hscan
          rw [List.length_append, List.length_cons] at hlength
          omega
        let token : Token :=
          ⟨l.kind, String.ofList l.chars, offset + utf8Length gap,
            source.lineOf (offset + utf8Length gap)⟩
        have hword : token.text.toList = l.chars := String.toList_ofList
        have hstop : token.stop = offset + utf8Length gap + utf8Length l.chars := by
          rw [Token.stop, hword]
        obtain ⟨tokens, ending, hrun, htiles⟩ :=
          ih _ hshorter (found.push token) token.stop l.rest rfl
        refine ⟨token :: tokens, ending, ?_, ?_⟩
        · rw [hstop] at hrun
          simpa [hscan, token] using hrun
        · have hfair : token.word.Fair := by
            rw [Token.word, hword]
            exact Lexeme.fair_scan hscan hblank hcomment
          have htiles := Tiles.token (hgap.mono nofun) hfair rfl htiles
          rwa [hword, hchars, List.cons_append, ← hrest] at htiles

theorem ofSource_tiles (text : String) (path : Option String) :
    Tiles 0 text.toList (ofSource (.ofString text path)).tokens
      (ofSource (.ofString text path)).ending := by
  obtain ⟨tokens, ending, hrun, htiles⟩ := run_tiles (.ofString text path) #[] 0 text.toList
  rw [ofSource]
  change Tiles 0 text.toList (run _ _ _ text.toList).tokens (run _ _ _ text.toList).ending
  rwa [hrun]

end Scan

/-- These characters stand between the two offsets of a text. -/
def Slice (cs : List Char) (low high : Nat) (part : List Char) : Prop :=
  ∃ before after, cs = before ++ part ++ after ∧ low = utf8Length before ∧
    high = utf8Length (before ++ part)

/-- The tokens of a text: they are parts of it, they follow each other, and what lies between them, in
front of them and, if nothing went wrong, behind them is skipped. -/
structure Scan.Lossless (cs : List Char) (scan : Scan) : Prop where
  parts : ∀ token ∈ scan.tokens,
    token.text ≠ "" ∧ Slice cs token.offset token.stop token.text.toList
  ordered : scan.tokens.Pairwise fun token later =>
    token.offset < later.offset ∧ token.stop ≤ later.offset
  front : ∀ token, scan.tokens.head? = some token →
    ∃ gap, Slice cs 0 token.offset gap ∧ Trivia False gap
  between : ∀ k token next, scan.tokens[k]? = some token → scan.tokens[k + 1]? = some next →
    ∃ gap, Slice cs token.stop next.offset gap ∧ Trivia False gap
  behind : scan.Complete →
    ∃ gap, Slice cs ((scan.tokens.getLast?.map Token.stop).getD 0) (utf8Length cs) gap ∧
      Trivia True gap

namespace Tiles

variable {offset : Nat} {before cs : List Char} {tokens : List Token} {ending : Ending}

theorem offset_le (h : Tiles offset cs tokens ending) : ∀ token ∈ tokens, offset ≤ token.offset := by
  induction h with
  | finished => nofun
  | failed => nofun
  | token _ fair here _ ih =>
    have hle := Nat.le_of_lt (Token.offset_lt_stop fair)
    refine List.forall_mem_cons.mpr ⟨by omega, ?_⟩
    intro later hlater
    have := ih later hlater
    omega

theorem ordered (h : Tiles offset cs tokens ending) : tokens.Pairwise fun token later =>
    token.offset < later.offset ∧ token.stop ≤ later.offset := by
  induction h with
  | finished => exact .nil
  | failed => exact .nil
  | token _ fair _ more ih =>
    refine List.pairwise_cons.mpr ⟨?_, ih⟩
    intro later hlater
    have hle := more.offset_le later hlater
    exact ⟨Nat.lt_of_lt_of_le (Token.offset_lt_stop fair) hle, hle⟩

/-- The text up to the end of a token. -/
theorem stop_eq {gap : List Char} {token : Token} (hbefore : offset = utf8Length before)
    (here : token.offset = offset + utf8Length gap) :
    token.stop = utf8Length (before ++ (gap ++ token.text.toList)) := by
  rw [Token.stop, here, hbefore, utf8Length_append, utf8Length_append, Nat.add_assoc]

theorem parts (h : Tiles offset cs tokens ending) (hbefore : offset = utf8Length before) :
    ∀ token ∈ tokens,
      token.text ≠ "" ∧ Slice (before ++ cs) token.offset token.stop token.text.toList := by
  induction h generalizing before with
  | finished => nofun
  | failed => nofun
  | @token offset gap rest token tokens ending trivia fair here more ih =>
    refine List.forall_mem_cons.mpr ⟨⟨?_, before ++ gap, rest, by simp, ?_, ?_⟩, ?_⟩
    · intro hempty
      exact Token.text_ne_nil fair (by rw [hempty]; rfl)
    · rw [here, hbefore, utf8Length_append]
    · rw [stop_eq hbefore here, List.append_assoc]
    · have hmore := ih (stop_eq hbefore here)
      simpa only [List.append_assoc] using hmore

theorem front (h : Tiles offset cs tokens ending) (hbefore : offset = utf8Length before) :
    ∀ token, tokens.head? = some token →
      ∃ gap, Slice (before ++ cs) offset token.offset gap ∧ Trivia False gap := by
  cases h with
  | finished => nofun
  | failed => nofun
  | @token offset gap rest token tokens ending trivia fair here more =>
    intro first hfirst
    cases hfirst
    refine ⟨gap, ⟨before, token.text.toList ++ rest, by simp, hbefore, ?_⟩, trivia⟩
    rw [here, hbefore, utf8Length_append]

theorem between (h : Tiles offset cs tokens ending) (hbefore : offset = utf8Length before) (k : Nat) :
    ∀ token next, tokens[k]? = some token → tokens[k + 1]? = some next →
      ∃ gap, Slice (before ++ cs) token.stop next.offset gap ∧ Trivia False gap := by
  induction h generalizing before k with
  | finished => simp
  | failed => simp
  | @token offset gap rest token tokens ending trivia fair here more ih =>
    have hstop := stop_eq hbefore here
    intro first next hfirst hnext
    cases k with
    | zero =>
      cases hfirst
      have hfront := more.front hstop next (by simpa [List.head?_eq_getElem?] using hnext)
      simpa only [List.append_assoc] using hfront
    | succ k =>
      have hbetween := ih hstop k first next hfirst hnext
      simpa only [List.append_assoc] using hbetween

theorem behind (h : Tiles offset cs tokens ending) (hbefore : offset = utf8Length before)
    (complete : ∃ last line, ending = .finished last line) :
    ∃ gap, Slice (before ++ cs) ((tokens.getLast?.map Token.stop).getD offset)
      (utf8Length (before ++ cs)) gap ∧ Trivia True gap := by
  induction h generalizing before with
  | @finished offset line cs gap => exact ⟨cs, ⟨before, [], by simp, hbefore, rfl⟩, gap⟩
  | failed =>
    obtain ⟨_, _, heq⟩ := complete
    cases heq
  | @token offset gap rest token tokens ending trivia fair here more ih =>
    have hbehind := ih (stop_eq hbefore here) complete
    simp only [List.append_assoc] at hbehind
    cases hlast : tokens.getLast? with
    | none => simpa [List.getLast?_cons, hlast] using hbehind
    | some last => simpa [List.getLast?_cons, hlast] using hbehind

theorem fair (h : Tiles offset cs tokens ending) : ∀ token ∈ tokens, token.word.Fair := by
  induction h with
  | finished => nofun
  | failed => nofun
  | token _ fair _ _ ih => exact List.forall_mem_cons.mpr ⟨fair, ih⟩

end Tiles

/-- What a scan of the word spells. -/
def Word.spelt (w : Word) : TokenKind × String :=
  (w.kind, String.ofList w.text)

theorem Token.spelt_word (token : Token) : token.word.spelt = (token.kind, token.text) := by
  rw [Word.spelt, word, String.ofList_toList]

theorem Written.spelling {ws : List Word} {tokens : List Token} (h : Written ws tokens) :
    tokens.map (fun token => (token.kind, token.text)) = ws.map Word.spelt := by
  induction h with
  | nil => rfl
  | cons kind text _ ih =>
    rw [List.map_cons, List.map_cons, ih, Word.spelt, ← text, kind, String.ofList_toList]

/-- The words with single blanks between them. -/
def Word.spaced (ws : List Word) : String :=
  " ".intercalate (ws.map fun w => String.ofList w.text)

theorem Token.spaced_words (tokens : List Token) :
    Word.spaced (tokens.map word) = " ".intercalate (tokens.map (·.text)) := by
  simp [Word.spaced, word, Function.comp_def]

theorem Word.spelled_spaced {ws : List Word} (h : ∀ w ∈ ws, w.Fair) :
    Spelled ws (spaced ws).toList := by
  rw [spaced, String.toList_intercalate]
  induction ws with
  | nil => exact .done
  | cons w ws ih =>
    obtain ⟨hw, hws⟩ := List.forall_mem_cons.mp h
    cases ws with
    | nil => simpa using Spelled.word (hw [] nofun) .done
    | cons next ws =>
      have hparts (cs : List Char) : Parts (' ' :: cs) := by
        intro c hc
        cases hc
        exact .inl rfl
      simpa [List.intercalate_cons_cons] using Spelled.word (hw _ (hparts _)) (.blank rfl (ih hws))

namespace Scan

/-- Words with single blanks between them are scanned one by one. -/
theorem spelling_spaced {ws : List Word} (h : ∀ w ∈ ws, w.Fair) (path : Option String) :
    (ofSource (.ofString (Word.spaced ws) path)).spelling = ws.map Word.spelt ∧
      (ofSource (.ofString (Word.spaced ws) path)).Complete := by
  obtain ⟨tokens, last, line, hrun, hwritten⟩ :=
    run_spelled (.ofString (Word.spaced ws) path) #[] 0 (Word.spelled_spaced h)
  have hscan : ofSource (.ofString (Word.spaced ws) path) = ⟨tokens, .finished last line⟩ := by
    change run _ #[] 0 (Word.spaced ws).toList = _
    rw [hrun, List.nil_append]
  rw [hscan]
  exact ⟨hwritten.spelling, last, line, rfl⟩

theorem fair_ofSource (text : String) (path : Option String) :
    ∀ token ∈ (ofSource (.ofString text path)).tokens, token.word.Fair :=
  (ofSource_tiles text path).fair

/-- Scanning loses nothing, and tokens depend on nothing around them: each is found again on its own,
and all of them are with single blanks between them. -/
theorem ofSource_lossless (text : String) (path : Option String) :
    (ofSource (.ofString text path)).Lossless text.toList ∧
    (∀ token ∈ (ofSource (.ofString text path)).tokens,
      (ofSource (.ofString token.text path)).spelling = [(token.kind, token.text)] ∧
      (ofSource (.ofString token.text path)).Complete) ∧
    (ofSource (.ofString
      (" ".intercalate ((ofSource (.ofString text path)).tokens.map (·.text))) path)).spelling =
        (ofSource (.ofString text path)).spelling ∧
    (ofSource (.ofString
      (" ".intercalate ((ofSource (.ofString text path)).tokens.map (·.text))) path)).Complete := by
  have htiles := ofSource_tiles text path
  have hfair := fair_ofSource text path
  have hzero : 0 = utf8Length [] := rfl
  refine ⟨⟨htiles.parts hzero, htiles.ordered, htiles.front hzero, htiles.between hzero,
    htiles.behind hzero⟩, ?_, ?_⟩
  · intro token htoken
    have hone : ∀ w ∈ [token.word], w.Fair := by simpa using hfair token htoken
    have halone := spelling_spaced hone path
    have htext : Word.spaced [token.word] = token.text := by simp [Word.spaced, Token.word]
    rwa [htext, List.map_singleton, Token.spelt_word] at halone
  · have hall := spelling_spaced (List.forall_mem_map.mpr hfair) path
    rw [Token.spaced_words, List.map_map] at hall
    have hspelling : (ofSource (.ofString text path)).tokens.map (Word.spelt ∘ Token.word) =
        (ofSource (.ofString text path)).spelling :=
      List.map_congr_left fun token _ => token.spelt_word
    rwa [hspelling] at hall

/-- A comment behind the tokens, and a sign of two characters between names. -/
theorem ofSource_lossless_comment :
    (ofSource (.ofString "a<=b // c")).tokens = [⟨.identifier, "a", 0, 1⟩,
      ⟨.operator .less true, "<=", 1, 1⟩, ⟨.identifier, "b", 3, 1⟩] ∧
    (ofSource (.ofString "a<=b // c")).Lossless "a<=b // c".toList ∧
    (ofSource (.ofString "<=")).spelling = [(.operator .less true, "<=")] ∧
    (ofSource (.ofString "a <= b")).spelling =
      [(.identifier, "a"), (.operator .less true, "<="), (.identifier, "b")] := by
  have htokens : (ofSource (.ofString "a<=b // c")).tokens = [⟨.identifier, "a", 0, 1⟩,
      ⟨.operator .less true, "<=", 1, 1⟩, ⟨.identifier, "b", 3, 1⟩] := by
    decide +kernel
  obtain ⟨hlossless, halone, hall, -⟩ := ofSource_lossless "a<=b // c" none
  refine ⟨htokens, hlossless, ?_, ?_⟩
  · exact (halone ⟨.operator .less true, "<=", 1, 1⟩ (by simp [htokens])).1
  · have hspelling : (ofSource (.ofString "a<=b // c")).spelling =
        [(.identifier, "a"), (.operator .less true, "<="), (.identifier, "b")] := by
      rw [spelling, htokens]
      rfl
    rw [hspelling, htokens] at hall
    exact hall

end Scan

end BlockLang
