import Mathlib.Data.List.TakeWhile
import BlockLang.Proofs.Printing.Rows

namespace BlockLang

namespace Lexeme

variable {c : Char} {cs rest : List Char} {l : Lexeme}

/-- The token is the front of the characters, and it is found again in front of anything before which
words may end. -/
def Repeats (c : Char) (cs : List Char) (l : Lexeme) : Prop :=
  ∃ more, l.chars = c :: more ∧ cs = more ++ l.rest ∧
    ∀ rest, Parts rest → scan c (more ++ rest) = .ok ⟨l.kind, l.chars, rest⟩

/-- A string ends at its closing quote, whatever follows. -/
theorem stringBody?_again {body chars : List Char}
    (h : stringBody? false body cs = some (chars, rest)) :
    ∃ more, chars = body.reverse ++ more ∧ cs = more ++ rest ∧
      ∀ rest', stringBody? false body (more ++ rest') = some (chars, rest') := by
  obtain ⟨inner, hclosed, rfl, rfl⟩ := closed_of_stringBody? h
  refine ⟨inner ++ ['"'], rfl, by simp, fun rest' => ?_⟩
  rw [List.append_assoc, List.singleton_append]
  exact stringBody?_closed hclosed body rest'

/-- A sign is found again unless it could be longer. -/
theorem sign?_again {sign : Sign} {chars : List Char} (h : sign? c cs = some (sign, chars, rest)) :
    ∃ more, chars = c :: more ∧ cs = more ++ rest ∧
      ∀ rest' : List Char, rest'.head? ≠ some '|' → rest'.head? ≠ some '&' →
        sign? c (more ++ rest') = some (sign, chars, rest') := by
  unfold sign? at h
  split at h
  · split at h
    · cases h
      exact ⟨['|'], rfl, rfl, fun rest' _ _ => rfl⟩
    · cases h
      exact ⟨[], rfl, rfl, fun rest' hpipe _ => sign?_pipe hpipe⟩
  · split at h
    · cases h
      exact ⟨['&'], rfl, rfl, fun rest' _ _ => rfl⟩
    · cases h
      exact ⟨[], rfl, rfl, fun rest' _ hand => sign?_and hand⟩
  all_goals
    cases h
  all_goals exact ⟨[], rfl, rfl, fun rest' _ _ => rfl⟩

theorem repeats_operator (h : operator? c cs = some l) : Repeats c cs l := by
  obtain ⟨⟨sign, chars, after⟩, hsign, rfl⟩ := Option.map_eq_some_iff.mp h
  obtain ⟨more, rfl, rfl, hagain⟩ := sign?_again hsign
  by_cases hequals : ∃ rest, after = '=' :: rest
  · obtain ⟨rest, rfl⟩ := hequals
    refine ⟨more ++ ['='], rfl, by simp [operator], ?_⟩
    intro rest' _
    have hscan := scan_sign (hagain ('=' :: rest') (by simp) (by simp))
    simpa [operator] using hscan
  · have hstop : after.head? ≠ some '=' := by
      intro hhead
      cases after with
      | nil => cases hhead
      | cons d after =>
        cases hhead
        exact hequals ⟨after, rfl⟩
    dsimp only
    rw [operator_stop hstop]
    refine ⟨more, rfl, rfl, ?_⟩
    intro rest' hparts
    rw [scan_sign (hagain rest' (by grind [Parts]) (by grind [Parts])), operator_stop (by grind [Parts])]

theorem repeats_name (start : isNameStart c = true) : Repeats c cs (name c cs) := by
  refine ⟨cs.takeWhile isNameChar, rfl, List.takeWhile_append_dropWhile.symm, ?_⟩
  intro rest hparts
  exact scan_name start (fun _ => List.mem_takeWhile_imp) (hparts.all rfl rfl rfl rfl)

theorem endNumber_eq {kind : TokenKind} {chars : List Char} (h : endNumber kind chars rest = .ok l) :
    l = ⟨kind, chars, rest⟩ := by
  unfold endNumber at h
  split at h
  · split at h
    · exact (Except.ok.inj h).symm
    · cases h
  · exact (Except.ok.inj h).symm

theorem repeats_number (digit : c.isDigit = true) (h : number c cs = .ok l) : Repeats c cs l := by
  have hwhole : ∀ x ∈ c :: cs.takeWhile Char.isDigit, x.isDigit = true :=
    List.forall_mem_cons.mpr ⟨digit, fun _ => List.mem_takeWhile_imp⟩
  simp only [number] at h
  split at h
  · rename_i after hafter
    split at h
    · cases h
    · rename_i hfraction
      obtain rfl := endNumber_eq h
      refine ⟨cs.takeWhile Char.isDigit ++ '.' :: after.takeWhile Char.isDigit, rfl, ?_, ?_⟩
      · rw [List.append_assoc, List.cons_append, List.takeWhile_append_dropWhile, ← hafter,
          List.takeWhile_append_dropWhile]
      · intro rest hparts
        rw [List.append_assoc, List.cons_append]
        exact scan_decimal hwhole (fun _ => List.mem_takeWhile_imp) (by simpa using hfraction) hparts
  · obtain rfl := endNumber_eq h
    refine ⟨cs.takeWhile Char.isDigit, rfl, List.takeWhile_append_dropWhile.symm, ?_⟩
    intro rest hparts
    exact scan_number hwhole hparts

/-- Every token is found again. -/
theorem repeats_scan (h : scan c cs = .ok l) : Repeats c cs l := by
  unfold scan at h
  split at h
  · rename_i kind hsingle
    cases h
    exact ⟨[], rfl, rfl, fun rest _ => scan_single hsingle⟩
  · rename_i hsingle
    split at h
    · rename_i hquote
      subst hquote
      split at h
      · rename_i body rest hbody
        cases h
        obtain ⟨more, hmore, rfl, hagain⟩ := stringBody?_again hbody
        obtain rfl : body = more := hmore
        refine ⟨body, rfl, rfl, ?_⟩
        intro rest' _
        simp [scan, single?, hagain rest']
      · cases h
    · split at h
      · rename_i hstart
        cases h
        exact repeats_name hstart
      · split at h
        · rename_i hoperator
          cases h
          exact repeats_operator hoperator
        · split at h
          · rename_i hdigit
            exact repeats_number hdigit h
          · cases h

/-- The characters of a token are a word. -/
theorem fair_scan (h : scan c cs = .ok l) (blank : isBlank c = false)
    (comment : c = '/' → cs.head? ≠ some '/') : (Word.mk l.kind l.chars false).Fair := by
  obtain ⟨more, hchars, rfl, hagain⟩ := repeats_scan h
  intro rest hparts
  refine ⟨c, more, hchars, blank, ?_, hagain rest hparts⟩
  intro hslash
  cases more with
  | nil => grind [Parts]
  | cons d more => exact comment hslash

end Lexeme

end BlockLang
