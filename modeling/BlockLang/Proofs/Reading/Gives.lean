import BlockLang.Proofs.Reading.Steps
import BlockLang.Stmt.Parser

namespace BlockLang.Reader

variable {α β : Type} {ending : Ending} {tokens mid rest : List Token} {depth : Nat}

/-- From the tokens the reader gets to `rest` with a result that satisfies the predicate. -/
def Gives (ending : Ending) (x : Reader α) (tokens rest : List Token) (P : α → Prop) : Prop :=
  ∃ a, x ⟨tokens, ending⟩ = .ok (a, ⟨rest, ending⟩) ∧ P a

theorem Gives.pure {P : α → Prop} {a : α} (h : P a) :
    Gives ending (Pure.pure a) tokens tokens P :=
  ⟨a, rfl, h⟩

theorem Gives.bind {x : Reader α} {f : α → Reader β} {P : α → Prop} {Q : β → Prop}
    (hx : Gives ending x tokens mid P) (hf : ∀ a, P a → Gives ending (f a) mid rest Q) :
    Gives ending (x >>= f) tokens rest Q := by
  obtain ⟨a, ha, hP⟩ := hx
  obtain ⟨b, hb, hQ⟩ := hf a hP
  exact ⟨b, bind_ok.mpr ⟨a, _, ha, hb⟩, hQ⟩

/-- Where the first result is known. -/
theorem Gives.step {x : Reader α} {f : α → Reader β} {a : α} {Q : β → Prop}
    (hx : x ⟨tokens, ending⟩ = .ok (a, ⟨mid, ending⟩)) (hf : Gives ending (f a) mid rest Q) :
    Gives ending (x >>= f) tokens rest Q :=
  Gives.bind (P := fun b => b = a) ⟨a, hx, rfl⟩ fun _ hb => hb ▸ hf

theorem Gives.within {construct : Construct} {x : Reader α} {P : α → Prop}
    (h : Gives ending x tokens rest P) : Gives ending (within construct x) tokens rest P := by
  obtain ⟨a, ha, hP⟩ := h
  exact ⟨a, within_ok.mpr ha, hP⟩

/-- Where the token that is looked for comes next. -/
theorem Gives.found {kind : TokenKind} {token : Token} {x y : Reader α} {Q : α → Prop}
    (hkind : token.kind = kind) (hx : Gives ending x (token :: tokens) rest Q) :
    Gives ending (do if (← peekKind) = some kind then x else y) (token :: tokens) rest Q := by
  refine .step (peekKind_eq (clear_cons token)) ?_
  rw [List.head?_cons, Option.map_some, if_pos (congrArg some hkind)]
  exact hx

/-- Where it does not. -/
theorem Gives.missed {kind : TokenKind} {x y : Reader α} {Q : α → Prop}
    (clear : ending.Clear tokens) (hkind : tokens.head?.map (·.kind) ≠ some kind)
    (hy : Gives ending y tokens rest Q) :
    Gives ending (do if (← peekKind) = some kind then x else y) tokens rest Q := by
  refine .step (peekKind_eq clear) ?_
  rw [if_neg hkind]
  exact hy

theorem advance_eq (token : Token) :
    advance ⟨token :: tokens, ending⟩ = .ok ((), ⟨tokens, ending⟩) := rfl

theorem demand_eq (wanted : Wanted) (token : Token) :
    demand wanted ⟨token :: tokens, ending⟩ = .ok (token, ⟨token :: tokens, ending⟩) := rfl

theorem keyword_eq {word : Keyword} {token : Token} (h : token.kind = .keyword word) :
    keyword word ⟨token :: tokens, ending⟩ = .ok ((), ⟨tokens, ending⟩) :=
  within_ok.mpr (consume_eq h)

end BlockLang.Reader
