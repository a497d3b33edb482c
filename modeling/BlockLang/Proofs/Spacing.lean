import BlockLang.Proofs.Reading.Depth
import BlockLang.Proofs.Relabeling.Code
import BlockLang.Proofs.Relabeling.Reading

namespace BlockLang

namespace Scan

/-- The offset of a token, counted from zero; behind the last one that of the end. -/
def offsetOf (scan : Scan) (k : Nat) : Nat :=
  match scan.tokens[k]?, scan.ending with
  | some token, _ => token.offset
  | none, .finished offset _ => offset
  | none, .failed error => error.offset

/-- The line of a token, counted from zero; behind the last one that of the end. -/
def lineOf (scan : Scan) (k : Nat) : Nat :=
  match scan.tokens[k]?, scan.ending with
  | some token, _ => token.line
  | none, .finished _ line => line
  | none, .failed _ => 0

/-- Where the tokens of the scan stand. -/
def placing (scan : Scan) : Placing :=
  ⟨scan.offsetOf, scan.lineOf⟩

/-- The tokens, each of which stands at its own number. -/
def numbered (tokens : List Token) : Scan :=
  ⟨tokens.mapIdx fun k token => { token with offset := k, line := k },
    .finished tokens.length tokens.length⟩

/-- The scan got to the end of the source. -/
def Complete (scan : Scan) : Prop :=
  ∃ offset line, scan.ending = .finished offset line

/-- Kind and text of each token. -/
def spelling (scan : Scan) : List (TokenKind × String) :=
  scan.tokens.map fun token => (token.kind, token.text)

theorem numbered_place {scan : Scan} (h : scan.Complete) :
    (numbered scan.tokens).place scan.placing = scan := by
  obtain ⟨tokens, ending⟩ := scan
  obtain ⟨offset, line, hending⟩ := h
  dsimp only at hending
  subst hending
  have htokens : (numbered tokens).tokens.map (Token.place (placing ⟨tokens, .finished offset line⟩)) =
      tokens := by
    apply List.ext_getElem?
    intro k
    simp only [numbered, List.getElem?_map, List.getElem?_mapIdx]
    cases hk : tokens[k]? with
    | none => rfl
    | some token => simp [Token.place, placing, offsetOf, lineOf, hk]
  rw [place, htokens]
  simp [numbered, Ending.place, placing, offsetOf, lineOf]

/-- Numbered tokens have nothing but their kinds and texts. -/
theorem numbered_eq_of_spelling {scan scan' : Scan} (h : scan'.spelling = scan.spelling) :
    numbered scan'.tokens = numbered scan.tokens := by
  have hlength : scan'.tokens.length = scan.tokens.length := by
    have hlength := congrArg List.length h
    rwa [spelling, spelling, List.length_map, List.length_map] at hlength
  have htokens : (numbered scan'.tokens).tokens = (numbered scan.tokens).tokens := by
    apply List.ext_getElem?
    intro k
    have hk : scan'.spelling[k]? = scan.spelling[k]? := by rw [h]
    simp only [spelling, List.getElem?_map] at hk
    simp only [numbered, List.getElem?_mapIdx]
    cases ht : scan.tokens[k]? <;> cases ht' : scan'.tokens[k]? <;> simp_all
  rw [numbered, numbered, hlength]
  exact congrArg (Scan.mk · _) htokens

end Scan

namespace Source

/-- Two compilations come to the same, positions aside: their errors stand at the same token of the two
scans, or differ in line numbers only. -/
inductive Alike (scan scan' : Scan) :
    Except CompileError Bytecode → Except CompileError Bytecode → Prop
  | parse {error error' : ParseError} (k : Nat) (fault : error'.fault = error.fault)
      (within : error'.within = error.within) (here : error.offset = scan.offsetOf k)
      (there : error'.offset = scan'.offsetOf k) :
      Alike scan scan' (.error (.parse error)) (.error (.parse error'))
  | semantic {ds ds' : List Diagnostic} (mistakes : ds'.map (·.mistake) = ds.map (·.mistake)) :
      Alike scan scan' (.error (.semantic ds)) (.error (.semantic ds'))
  | unresolved (line line' : Nat) :
      Alike scan scan' (.error (.code (.unresolved line))) (.error (.code (.unresolved line')))
  | assembly (error : AssemblyError) :
      Alike scan scan' (.error (.code (.assembly error))) (.error (.code (.assembly error)))
  | ok (b : Bytecode) : Alike scan scan' (.ok b) (.ok b)

variable {source source' : Source}

/-- A source is read as its numbered tokens are, with its own lines and places. -/
theorem parse_eq (h : (Scan.ofSource source).Complete) :
    Program.parse source =
      match (Reader.program (Reader.depthOf (Scan.numbered (Scan.ofSource source).tokens)))
        (Scan.numbered (Scan.ofSource source).tokens) with
      | .ok (program, _) => .ok (Stmt.relabelAll (Scan.ofSource source).placing.relabeling program)
      | .error error => .error (error.place (Scan.ofSource source).placing) := by
  have hdepth : Reader.depthOf (Scan.numbered (Scan.ofSource source).tokens) =
      Reader.depthOf (Scan.ofSource source) := by
    rw [Reader.depthOf, Reader.depthOf, Scan.numbered, List.length_mapIdx]
  have hplaces := Reader.places_program (p := (Scan.ofSource source).placing)
    (Reader.depthOf (Scan.ofSource source)) (Scan.numbered (Scan.ofSource source).tokens)
  rw [Scan.numbered_place h] at hplaces
  unfold Program.parse
  rw [hdepth]
  dsimp only
  rw [hplaces]
  cases Reader.program (Reader.depthOf (Scan.ofSource source))
    (Scan.numbered (Scan.ofSource source).tokens) <;> rfl

theorem mistake_relabel (p : Placing) (ds : List Diagnostic) :
    (ds.map (Diagnostic.relabel p.relabeling)).map (·.mistake) = ds.map (·.mistake) := by
  rw [List.map_map]
  refine List.map_congr_left fun d _ => ?_
  obtain ⟨line, mistake⟩ := d
  cases mistake <;> rfl

/-- How two programs that differ in line numbers only compile. -/
theorem alike_checked (scan scan' : Scan) (p p' : Placing) (checked : Checked) :
    Alike scan scan' (checked.relabel p.relabeling).compile
      (checked.relabel p'.relabeling).compile := by
  rw [Checked.compile_relabel, Checked.compile_relabel]
  unfold Checked.compile
  split
  · cases checked.generate with
    | ok b => exact .ok b
    | error error =>
      cases error with
      | unresolved line => exact .unresolved _ _
      | assembly error => exact .assembly error
  · refine .semantic ?_
    rw [mistake_relabel, mistake_relabel]

/-- Sources whose tokens have the same kinds and texts compile alike. -/
theorem compile_alike (typing : BranchTyping) (complete : (Scan.ofSource source).Complete)
    (complete' : (Scan.ofSource source').Complete)
    (same : (Scan.ofSource source').spelling = (Scan.ofSource source).spelling) :
    Alike (Scan.ofSource source) (Scan.ofSource source') (source.compile typing)
      (source'.compile typing) := by
  have hparse := parse_eq complete
  have hparse' := parse_eq complete'
  rw [Scan.numbered_eq_of_spelling same] at hparse'
  cases hread : Reader.program (Reader.depthOf (Scan.numbered (Scan.ofSource source).tokens))
      (Scan.numbered (Scan.ofSource source).tokens) with
  | error error =>
    simp only [hread] at hparse hparse'
    have hdeep := Program.parse_ne_tooDeep hparse
    change error.fault ≠ .tooDeep at hdeep
    simp only [compile, check, hparse, hparse', Except.map]
    exact .parse error.offset rfl rfl (if_neg hdeep) (if_neg hdeep)
  | ok r =>
    simp only [hread] at hparse hparse'
    simp only [compile, check, hparse, hparse', Except.map, Program.check_relabel]
    exact alike_checked _ _ _ _ _

/-- A text on one line, and the same tokens on three lines with a comment between them. -/
theorem compile_alike_comment :
    (Scan.ofSource (ofString "int a=1;a=x;")).Complete ∧
    (Scan.ofSource (ofString "int a = 1;\n// no x\na = x;")).Complete ∧
    (Scan.ofSource (ofString "int a = 1;\n// no x\na = x;")).spelling =
      (Scan.ofSource (ofString "int a=1;a=x;")).spelling ∧
    Alike (Scan.ofSource (ofString "int a=1;a=x;"))
      (Scan.ofSource (ofString "int a = 1;\n// no x\na = x;"))
      ((ofString "int a=1;a=x;").compile .identical)
      ((ofString "int a = 1;\n// no x\na = x;").compile .identical) := by
  have complete : (Scan.ofSource (ofString "int a=1;a=x;")).Complete := ⟨12, 1, by decide +kernel⟩
  have complete' : (Scan.ofSource (ofString "int a = 1;\n// no x\na = x;")).Complete :=
    ⟨25, 3, by decide +kernel⟩
  have same : (Scan.ofSource (ofString "int a = 1;\n// no x\na = x;")).spelling =
      (Scan.ofSource (ofString "int a=1;a=x;")).spelling := by
    decide +kernel
  exact ⟨complete, complete', same, compile_alike .identical complete complete' same⟩

end Source

end BlockLang
