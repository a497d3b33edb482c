import BlockLang.Proofs.Cutting.Tiles
import BlockLang.Proofs.Locating
import BlockLang.Proofs.Spacing
import BlockLang.Proofs.Viable.Stmt

namespace BlockLang

namespace Reader

variable {scan scan' : Scan} {depth : Nat}

/-- A program is read up to the end of the input. -/
theorem complete_of_program {result : Program × Scan} (h : program depth scan = .ok result) :
    scan.Complete := by
  induction depth generalizing scan result with
  | zero => cases h
  | succ depth ih =>
    obtain hnone | ⟨error, rfl⟩ | hsome := scan.shows_or (· = none)
    · obtain ⟨tokens, ending⟩ := scan
      cases tokens with
      | cons token later => cases hnone.2
      | nil => exact hnone.1 rfl
    · cases h
    · obtain ⟨kind, hkind⟩ := Option.ne_none_iff_exists'.mp hsome
      rw [program_some (Scan.shows_of_ahead hkind nofun)] at h
      obtain ⟨first, mid, hfirst, h⟩ := bind_ok.mp h
      obtain ⟨more, last, hmore, -⟩ := bind_ok.mp h
      have houtcome := (stmtsMendable depth).stmt.outcome scan
      rw [hfirst] at houtcome
      cases houtcome with
      | ok front split => exact split ▸ (ih hmore : mid.Complete)

/-- A program is read from its numbered tokens. -/
theorem program_numbered (h : scan.Complete) (depth : Nat) :
    (∃ result, program depth scan = .ok result) ↔
      ∃ result, program depth (Scan.numbered scan.tokens) = .ok result := by
  have hplaces := places_program (p := scan.placing) depth (Scan.numbered scan.tokens)
  rw [Scan.numbered_place h] at hplaces
  rw [hplaces]
  cases program depth (Scan.numbered scan.tokens) with
  | error error => exact ⟨nofun, nofun⟩
  | ok result => exact ⟨fun _ => ⟨result, rfl⟩, fun _ => ⟨_, rfl⟩⟩

/-- At the depth that suffices a program is read as at any greater one. -/
theorem program_settled {r : Except ParseError (Program × Scan)} (h : Eventually program scan r) :
    program (depthOf scan) scan = r := by
  have hdepth : 2 * scan.tokens.length + 3 < depthOf scan := by
    rw [depthOf]
    omega
  refine Eventually.unique (((mendable_program (depthOf scan)).outcome scan).eventually ?_) h
  intro error herror
  exact (settles_program hdepth).fault_ne herror

end Reader

namespace Program

/-- The tokens are read as a program, wherever they stand. -/
def Parses (ts : List (TokenKind × String)) : Prop :=
  ∃ scan : Scan, scan.spelling = ts ∧
    ∃ result, Reader.program (Reader.depthOf scan) scan = .ok result

/-- There is a text that is read as a program and starts with the tokens. -/
def Viable (ts : List (TokenKind × String)) : Prop :=
  ∃ text path program, parse (.ofString text path) = .ok program ∧
    ts <+: (Scan.ofSource (.ofString text path)).spelling

/-- Tokens that are read as a program in one place are so in any other. -/
theorem Parses.elsewhere {scan : Scan} (h : Parses scan.spelling) (complete : scan.Complete) :
    ∃ result, Reader.program (Reader.depthOf scan) scan = .ok result := by
  obtain ⟨scan', hspelling, hread⟩ := h
  have hcomplete := Reader.complete_of_program hread.choose_spec
  have hlength : scan'.tokens.length = scan.tokens.length := by
    have hlength := congrArg List.length hspelling
    rwa [Scan.spelling, Scan.spelling, List.length_map, List.length_map] at hlength
  rw [Reader.program_numbered complete, ← Scan.numbered_eq_of_spelling hspelling, Reader.depthOf,
    ← hlength, ← Reader.program_numbered hcomplete]
  exact hread

/-- Tokens of a text that can be completed by words start a program. -/
theorem viable_of_mends {front : List Token} (fair : ∀ token ∈ front, token.word.Fair)
    (h : Reader.Mends Reader.program (· = none) Reader.anything front) :
    Viable (front.map fun token => (token.kind, token.text)) := by
  obtain ⟨ws, program, hfair, hws⟩ := h
  have hall : ∀ w ∈ front.map Token.word ++ ws, w.Fair :=
    List.forall_mem_append.mpr ⟨List.forall_mem_map.mpr fair, hfair⟩
  obtain ⟨hspelling, hcomplete⟩ := Scan.spelling_spaced hall none
  have hfront : (front.map Token.word).map Word.spelt = front.map fun token => (token.kind, token.text) := by
    rw [List.map_map]
    exact List.map_congr_left fun token _ => token.spelt_word
  rw [List.map_append, hfront] at hspelling
  let mended : Scan := ⟨front ++ ws.map Word.token, .finished 0 0⟩
  have hmended : Reader.Eventually Reader.program mended (.ok (program, ⟨[], .finished 0 0⟩)) := by
    have hread := (hws ⟨[], .finished 0 0⟩ ⟨fun _ => ⟨0, 0, rfl⟩, rfl⟩).2
    rwa [Scan.prepend, List.append_nil] at hread
  have hsame : mended.spelling =
      (Scan.ofSource (.ofString (Word.spaced (front.map Token.word ++ ws)))).spelling := by
    rw [hspelling, Scan.spelling, List.map_append, List.map_map]
    rfl
  have hparses : Parses (Scan.ofSource (.ofString (Word.spaced (front.map Token.word ++ ws)))).spelling :=
    ⟨mended, hsame, _, Reader.program_settled hmended⟩
  obtain ⟨result, hresult⟩ := hparses.elsewhere hcomplete
  refine ⟨_, none, result.1, ?_, ws.map Word.spelt, hspelling.symm⟩
  simp only [parse, hresult]
  rfl

section Error

variable {text : String} {path : Option String} {error : ParseError}

/-- The token `k` of the scan, and no other, is at the offset. It is the first one that no program goes on
with. -/
structure FirstWrong (scan : Scan) (offset : Nat) (found : TokenKind) (k : Nat) : Prop where
  here : ∃ token, scan.tokens[k]? = some token ∧ token.kind = found ∧ token.offset = offset
  only : ∀ j token, scan.tokens[j]? = some token → token.offset = offset → j = k
  before : Viable (scan.spelling.take k)
  wrong : ∀ ts, scan.spelling.take (k + 1) <+: ts → ¬ Parses ts

/-- The input ends at the offset. All of its tokens are the front of a program, but not a program. -/
structure Unfinished (scan : Scan) (offset : Nat) : Prop where
  here : ∃ line, scan.ending = .finished offset line
  before : Viable scan.spelling
  wrong : ¬ Parses scan.spelling

theorem read_of_parse {source : Source} (h : parse source = .error error) :
    Reader.program (Reader.depthOf (Scan.ofSource source)) (Scan.ofSource source) = .error error := by
  unfold parse at h
  dsimp only at h
  cases hread : Reader.program (Reader.depthOf (Scan.ofSource source)) (Scan.ofSource source) with
  | ok result =>
    rw [hread] at h
    cases h
  | error error =>
    rw [hread] at h
    cases h
    rfl

/-- What was taken before something was missed, and what was found there. -/
theorem exists_missed (h : parse (.ofString text path) = .error error) (hfault : error.fault.IsMismatch) :
    ∃ front here, Scan.ofSource (.ofString text path) = Scan.prepend front here ∧ error.PointsAt here ∧
      (∀ here' : Scan, here.Agrees here' →
        Reader.Eventually Reader.program (here'.prepend front) (.error error)) ∧
      Viable (front.map fun token => (token.kind, token.text)) := by
  have hread := read_of_parse h
  have houtcome := (Reader.mendable_program (Reader.depthOf (Scan.ofSource (.ofString text path)))).outcome
    (Scan.ofSource (.ofString text path))
  rw [hread] at houtcome
  have hfair := Scan.fair_ofSource text path
  cases houtcome with
  | failed other => exact absurd hfault other
  | tooDeep deep => exact absurd deep (parse_ne_tooDeep h)
  | missed front split points stays mends =>
    refine ⟨front, _, split, points, stays, viable_of_mends (fun token htoken => hfair token ?_) mends⟩
    rw [split]
    exact List.mem_append_left _ htoken

theorem firstWrong_of_missed {front later : List Token} {token : Token} {ending : Ending}
    (hscan : Scan.ofSource (.ofString text path) = ⟨front ++ token :: later, ending⟩)
    (stays : ∀ here' : Scan, Scan.Agrees ⟨token :: later, ending⟩ here' →
      Reader.Eventually Reader.program (here'.prepend front) (.error error))
    (viable : Viable (front.map fun token => (token.kind, token.text))) :
    FirstWrong (Scan.ofSource (.ofString text path)) token.offset token.kind front.length := by
  have hhere : (Scan.ofSource (.ofString text path)).tokens[front.length]? = some token := by
    simp [hscan]
  have hspelling : (Scan.ofSource (.ofString text path)).spelling =
      (front.map fun token => (token.kind, token.text)) ++
        (token.kind, token.text) :: later.map fun token => (token.kind, token.text) := by
    simp [hscan, Scan.spelling]
  refine ⟨⟨token, hhere, rfl, rfl⟩, ?_, ?_, ?_⟩
  · intro j other hj hoffset
    have hnodup : ((Scan.ofSource (.ofString text path)).tokens.map (·.offset)).Nodup :=
      List.pairwise_map.mpr ((Scan.ofSource_tiles text path).ordered.imp fun h => Nat.ne_of_lt h.1)
    have hlt : j < (Scan.ofSource (.ofString text path)).tokens.length := by
      exact (List.getElem?_eq_some_iff.mp hj).1
    refine (List.getElem?_inj (by simpa using hlt) hnodup).mp ?_
    rw [List.getElem?_map, List.getElem?_map, hj, hhere, Option.map_some, Option.map_some, hoffset]
  · rw [hspelling, List.take_left' (List.length_map _)]
    exact viable
  · rintro ts ⟨more, rfl⟩ hparses
    -- the same tokens, where the reader has seen the one that is wrong
    let scan : Scan := ⟨front ++ token :: more.map fun s => ⟨s.1, s.2, 0, 0⟩, .finished 0 0⟩
    have hsame : scan.spelling =
        (Scan.ofSource (.ofString text path)).spelling.take (front.length + 1) ++ more := by
      have hfront : (front.map fun token => (token.kind, token.text)).length ≤ front.length + 1 := by
        rw [List.length_map]
        exact Nat.le_succ _
      rw [hspelling, List.take_append, List.take_of_length_le hfront]
      simp [scan, Scan.spelling, Function.comp_def]
    rw [← hsame] at hparses
    obtain ⟨result, hresult⟩ := hparses.elsewhere ⟨0, 0, rfl⟩
    have herror : Reader.Eventually Reader.program scan (.error error) :=
      stays ⟨_, _⟩ (Scan.agrees_cons ..)
    rw [Reader.program_settled herror] at hresult
    cases hresult

theorem unfinished_of_missed {front : List Token} {offset line : Nat}
    (h : parse (.ofString text path) = .error error)
    (hscan : Scan.ofSource (.ofString text path) = ⟨front, .finished offset line⟩)
    (viable : Viable (front.map fun token => (token.kind, token.text))) :
    Unfinished (Scan.ofSource (.ofString text path)) offset := by
  refine ⟨⟨line, by rw [hscan]⟩, by rwa [hscan], fun hparses => ?_⟩
  obtain ⟨result, hresult⟩ := hparses.elsewhere ⟨offset, line, by rw [hscan]⟩
  rw [read_of_parse h] at hresult
  cases hresult

/-- Where reading a text fails because of what comes next, that is at the first token with which no program
goes on, or at the end of the front of one. Every error is at a line of the text. -/
theorem parse_error_first (h : parse (.ofString text path) = .error error) :
    (error.report (.ofString text path)).OnLine text ∧
    match error.fault with
    | .expected _ found =>
      ∃ k, FirstWrong (Scan.ofSource (.ofString text path)) error.offset found k
    | .unexpectedEnd _ => Unfinished (Scan.ofSource (.ofString text path)) error.offset
    | _ => True := by
  refine ⟨Report.onLine_located text path (.ofNat error.offset) error.fault.message, ?_⟩
  split
  · rename_i wanted found hfault
    obtain ⟨front, ⟨tokens, ending⟩, hscan, hpoints, stays, viable⟩ :=
      exists_missed h (by rw [hfault]; trivial)
    rw [ParseError.PointsAt, hfault] at hpoints
    obtain ⟨token, hhead, rfl, hoffset⟩ := hpoints
    obtain ⟨later, rfl⟩ := List.head?_eq_some_iff.mp hhead
    exact ⟨front.length, hoffset ▸ firstWrong_of_missed hscan stays viable⟩
  · rename_i wanted hfault
    obtain ⟨front, ⟨tokens, ending⟩, hscan, hpoints, -, viable⟩ :=
      exists_missed h (by rw [hfault]; trivial)
    rw [ParseError.PointsAt, hfault] at hpoints
    obtain ⟨rfl, line, rfl⟩ := hpoints
    rw [Scan.prepend, List.append_nil] at hscan
    exact unfinished_of_missed h hscan viable
  · trivial

/-- A missing semicolon is noticed at the next statement, an expression that is broken off at the end. -/
theorem parse_error_first_semicolon :
    parse (.ofString "int a = 1\nprint(a);") =
      .error ⟨.expected (.token .semicolon) (.keyword .print), 10, [.statement]⟩ ∧
    (ParseError.report (.ofString "int a = 1\nprint(a);")
      ⟨.expected (.token .semicolon) (.keyword .print), 10, [.statement]⟩).OnLine
        "int a = 1\nprint(a);" ∧
    (∃ k, FirstWrong (Scan.ofSource (.ofString "int a = 1\nprint(a);")) 10 (.keyword .print) k) ∧
    parse (.ofString "a +") = .error ⟨.unexpectedEnd .expression, 3, [.statement, .expression]⟩ ∧
    Unfinished (Scan.ofSource (.ofString "a +")) 3 := by
  have hwrong : parse (.ofString "int a = 1\nprint(a);") =
      .error ⟨.expected (.token .semicolon) (.keyword .print), 10, [.statement]⟩ :=
    eq_error_of_map (f := fun _ => ()) (by decide +kernel)
  have hunfinished : parse (.ofString "a +") =
      .error ⟨.unexpectedEnd .expression, 3, [.statement, .expression]⟩ :=
    eq_error_of_map (f := fun _ => ()) (by decide +kernel)
  obtain ⟨hline, hfirst⟩ := parse_error_first hwrong
  exact ⟨hwrong, hline, hfirst, hunfinished, (parse_error_first hunfinished).2⟩

end Error

end Program

end BlockLang
