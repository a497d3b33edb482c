import BlockLang.Proofs.Running

namespace BlockLang

namespace Machine

variable {ε α β : Type} {b : Bytecode} {fails : ε → State → Prop}

/-- Where the evaluation has a result, the machine gets to a state that `P` relates to it. Where it
stops with a fault, the machine is in a state that `fails` in the same way. -/
def Follows (b : Bytecode) (fails : ε → State → Prop) (result : Except ε α) (s : State)
    (P : α → State → Prop) : Prop :=
  match result with
  | .ok a => ∃ n t, Steps b n s t ∧ P a t
  | .error e => fails e s

/-- A fault remains one if the steps that lead to it are put in front. -/
def Backward (b : Bytecode) (fails : ε → State → Prop) : Prop :=
  ∀ e s t, step b s = .ok (.next t) → fails e t → fails e s

theorem Backward.steps (h : Backward b fails) {n : Nat} {s t : State} (hs : Steps b n s t) {e : ε}
    (hf : fails e t) : fails e s := by
  induction n generalizing s with
  | zero =>
    cases hs
    exact hf
  | succ n ih =>
    obtain ⟨u, hu, hs⟩ := hs
    exact h e s u hu (ih hs)

theorem follows_ok {P : α → State → Prop} {a : α} {s : State} (h : P a s) :
    Follows b fails (.ok a) s P :=
  ⟨0, s, rfl, h⟩

/-- More steps may follow a result. -/
theorem Follows.onward {P Q : α → State → Prop} {result : Except ε α} {s : State}
    (h : Follows b fails result s P)
    (hf : ∀ a t, result = .ok a → P a t → Follows b fails (.ok a) t Q) :
    Follows b fails result s Q := by
  cases result with
  | error e => exact h
  | ok a =>
    obtain ⟨n, t, hs, hp⟩ := h
    obtain ⟨m, u, hs', hq⟩ := hf a t rfl hp
    exact ⟨n + m, u, hs.trans hs', hq⟩

theorem Follows.bind {P : α → State → Prop} {Q : β → State → Prop} {result : Except ε α}
    {f : α → Except ε β} {s : State} (hb : Backward b fails) (h : Follows b fails result s P)
    (hf : ∀ a t, P a t → Follows b fails (f a) t Q) : Follows b fails (result.bind f) s Q := by
  cases result with
  | error e => exact h
  | ok a =>
    obtain ⟨n, t, hs, hp⟩ := h
    have ht := hf a t hp
    change Follows b fails (f a) s Q
    cases hr : f a with
    | error e =>
      rw [hr] at ht
      exact hb.steps hs ht
    | ok c =>
      rw [hr] at ht
      obtain ⟨m, u, hs', hq⟩ := ht
      exact ⟨n + m, u, hs.trans hs', hq⟩

theorem Follows.map {P : α → State → Prop} {Q : β → State → Prop} {result : Except ε α}
    {f : α → β} {s : State} (h : Follows b fails result s P)
    (hf : ∀ a t, P a t → Follows b fails (.ok (f a)) t Q) :
    Follows b fails (result.map f) s Q := by
  cases result with
  | error e => exact h
  | ok a =>
    obtain ⟨n, t, hs, hp⟩ := h
    obtain ⟨m, u, hs', hq⟩ := hf a t hp
    exact ⟨n + m, u, hs.trans hs', hq⟩

/-- Steps are made before the rest is followed. -/
theorem Follows.steps {P : α → State → Prop} {result : Except ε α} {n : Nat} {s t : State}
    (hb : Backward b fails) (hs : Steps b n s t) (h : Follows b fails result t P) :
    Follows b fails result s P := by
  cases result with
  | error e => exact hb.steps hs h
  | ok a =>
    obtain ⟨m, u, hm, hp⟩ := h
    exact ⟨n + m, u, hs.trans hm, hp⟩

theorem Follows.step {P : α → State → Prop} {result : Except ε α} {s t : State}
    (hb : Backward b fails) (hs : step b s = .ok (.next t)) (h : Follows b fails result t P) :
    Follows b fails result s P :=
  h.steps hb (n := 1) ⟨t, hs, rfl⟩

/-- A step that gives the result. -/
theorem follows_step {P : α → State → Prop} {a : α} {s t : State}
    (hs : Machine.step b s = .ok (.next t)) (h : P a t) : Follows b fails (.ok a) s P :=
  ⟨1, t, ⟨t, hs, rfl⟩, h⟩

end Machine

end BlockLang
