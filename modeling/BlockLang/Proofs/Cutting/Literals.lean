import BlockLang.Proofs.Cutting.Tiles

namespace BlockLang

namespace Escape

variable {cs : List Char}

/-- Reading comes to the end, unless an escape is unknown. -/
theorem Closed.read (h : Closed cs) (done : List Char) :
    (∃ value, read done cs = .ok value) ∨ ∃ c, read done cs = .error (.unknownEscape c) := by
  induction h generalizing done with
  | nil => exact .inl ⟨done.reverse, rfl⟩
  | plain slash _ _ _ ih =>
    rw [read_plain slash]
    exact ih _
  | @escaped c cs _ ih =>
    rw [Escape.read]
    split
    · exact ih _
    · exact .inr ⟨c, rfl⟩

/-- Between quotes it has a value, unless an escape is unknown. -/
theorem Closed.value {literal : String} (h : Closed cs) (hl : literal.toList = '"' :: (cs ++ ['"'])) :
    (∃ text, value literal = .ok text) ∨ ∃ c, value literal = .error (.unknownEscape c) := by
  rw [Escape.value, hl, inner?_enclosed]
  rcases h.read [] with ⟨value, hread⟩ | ⟨c, hread⟩
  · exact .inl ⟨String.ofList value, by simp [hread, Except.map]⟩
  · exact .inr ⟨c, by simp [hread, Except.map]⟩

/-- The literal for a text, in which each backslash, quote and newline is escaped. -/
def literal (text : String) : String :=
  String.ofList (quote text.toList)

theorem value_literal (text : String) : value (literal text) = .ok text := by
  have hquote : (literal text).toList = quote text.toList := String.toList_ofList
  rw [value_quote hquote, String.ofList_toList]

end Escape

namespace Lexeme

variable {c : Char} {cs : List Char} {l : Lexeme}

/-- Only what starts with a quote is cut off as a string. -/
theorem exists_closed (h : scan c cs = .ok l) (hkind : l.kind = .string) :
    ∃ inner, l.chars = '"' :: (inner ++ ['"']) ∧ Escape.Closed inner := by
  unfold scan at h
  split at h
  · rename_i kind hsingle
    cases h
    unfold single? at hsingle
    split at hsingle <;> cases hsingle <;> cases hkind
  split at h
  · rename_i hquote
    split at h
    · rename_i hbody
      cases h
      obtain ⟨inner, hclosed, -, rfl⟩ := closed_of_stringBody? hbody
      exact ⟨inner, by simp [hquote], hclosed⟩
    · cases h
  split at h
  · cases h
    simp only [name, nameKind] at hkind
    split at hkind <;> cases hkind
  split at h
  · rename_i hoperator
    cases h
    obtain ⟨⟨sign, front, after⟩, _, rfl⟩ := Option.map_eq_some_iff.mp hoperator
    dsimp only [operator] at hkind
    split at hkind <;> cases hkind
  split at h
  · simp only [number] at h
    split at h
    · split at h
      · cases h
      · rw [endNumber_eq h] at hkind
        cases hkind
    · rw [endNumber_eq h] at hkind
      cases hkind
  · cases h

end Lexeme

namespace Scan

/-- A literal is cut off in front of whatever follows it. -/
theorem run_literal (source : Source) (found : Array Token) (offset : Nat) (text : String)
    (more : List Char) :
    run source found offset ((Escape.literal text).toList ++ more) =
      run source (found.push ⟨.string, Escape.literal text, offset, source.lineOf offset⟩)
        (offset + utf8Length (Escape.literal text).toList) more := by
  have hchars : (Escape.literal text).toList ++ more =
      '"' :: (text.toList.flatMap Escape.write ++ '"' :: more) := by
    simp [Escape.literal, Escape.quote]
  have hslash : '"' ≠ '/' := by decide
  rw [hchars, run_token source found offset rfl (fun heq => absurd heq hslash) Lexeme.scan_string]
  simp [Escape.literal]

/-- Cutting and reading agree on string literals. A string that is cut off a text has a value, or an
escape in it is unknown; and the literal for a text is cut off as one string, whatever follows it, and
has the text for its value. -/
theorem ofSource_literal (path : Option String) :
    (∀ text, ∀ token ∈ (ofSource (.ofString text path)).tokens, token.kind = .string →
      (∃ value, Escape.value token.text = .ok value) ∨
        ∃ c, Escape.value token.text = .error (.unknownEscape c)) ∧
    ∀ text more : String,
      (ofSource (.ofString (Escape.literal text ++ more) path)).tokens.head? =
        some ⟨.string, Escape.literal text, 0, 1⟩ ∧
      Escape.value (Escape.literal text) = .ok text := by
  refine ⟨?_, fun text more => ⟨?_, Escape.value_literal text⟩⟩
  · intro text token htoken hkind
    obtain ⟨c, cs, -, -, -, hscan⟩ := fair_ofSource text path token htoken [] nofun
    obtain ⟨inner, hinner, hclosed⟩ := Lexeme.exists_closed hscan hkind
    exact hclosed.value hinner
  · have hline : (Source.ofString (Escape.literal text ++ more) path).lineOf 0 = 1 :=
      Source.lineOf_eq ..
    have hrun : ofSource (.ofString (Escape.literal text ++ more) path) = _ :=
      congrArg (run _ #[] 0) String.toList_append
    rw [run_literal, hline] at hrun
    obtain ⟨tokens, ending, hmore, -⟩ := run_tiles (.ofString (Escape.literal text ++ more) path)
      (#[].push ⟨.string, Escape.literal text, 0, 1⟩) (0 + utf8Length (Escape.literal text).toList)
      more.toList
    rw [hrun, hmore]
    rfl

/-- Three backslashes before a quote, the third of which escapes it, and an escape that is unknown. -/
theorem ofSource_literal_backslashes :
    let token : Token := ⟨.string, "\"\\\\\\\"\\q\"", 0, 1⟩
    token ∈ (ofSource (.ofString "\"\\\\\\\"\\q\";" none)).tokens ∧
      ((∃ value, Escape.value token.text = .ok value) ∨
        ∃ c, Escape.value token.text = .error (.unknownEscape c)) := by
  intro token
  have hfirst : (ofSource (.ofString "\"\\\\\\\"\\q\";" none)).tokens.head? = some token := by decide +kernel
  have htoken := List.mem_of_mem_head? hfirst
  exact ⟨htoken, (ofSource_literal none).1 _ token htoken rfl⟩

end Scan

end BlockLang
