import BlockLang.Proofs.Linking

namespace BlockLang

namespace Sweep

/-- Whatever a sweep finds is what decoding gives at its address. -/
theorem decode_of_mem_run {code : Bytes} {found : Array (Nat × Instruction Int16)} {address : Nat}
    (hf : ∀ p ∈ found.toList, p.1 < code.size ∧ Instruction.decode code p.1 = .ok p.2) :
    ∀ p ∈ (run code found address).found.toList,
      p.1 < code.size ∧ Instruction.decode code p.1 = .ok p.2 := by
  induction found, address using run.induct code with
  | case1 found address hlt i hdecode ih =>
    rw [run, if_pos hlt, hdecode]
    refine ih ?_
    intro p hp
    rw [Array.toList_push] at hp
    rcases List.mem_append.mp hp with hp | hp
    · exact hf p hp
    · rw [List.mem_singleton.mp hp]
      exact ⟨hlt, hdecode⟩
  | case2 found address hlt error hdecode =>
    rw [run, if_pos hlt, hdecode]
    exact hf
  | case3 found address hge =>
    rw [run, if_neg hge]
    exact hf

theorem decode_of_mem {code : Bytes} {p : Nat × Instruction Int16}
    (hp : p ∈ (ofCode code).found.toList) :
    p.1 < code.size ∧ Instruction.decode code p.1 = .ok p.2 :=
  decode_of_mem_run (by simp) p hp

end Sweep

/-- Where an instruction was found, a step performs it. -/
theorem Machine.step_of_mem {b : Bytecode} {s : State} {i : Instruction Int16}
    (hm : (s.pc, i) ∈ (Sweep.ofCode b.code).found.toList) :
    step b s = perform b i (s.pc + i.size) s := by
  obtain ⟨hlt, hdecode⟩ := Sweep.decode_of_mem hm
  rw [step, if_pos hlt, hdecode]

namespace Bytecode

open Machine

variable {b : Bytecode} {x y : Nat} {stack stack' : Stack} {locals : Array (Option Value)}
  {printed : Array String}

theorem Aims.size_eq {address : Nat} {j : Instruction Int16} {i : Instruction Nat}
    (h : b.Aims address j i) : j.size = i.size := by
  cases h <;> rfl

theorem At.lt_size {i : Instruction Nat} (h : b.At x i y) : x < b.code.size := by
  obtain ⟨j, hm, _⟩ := h.found
  exact (Sweep.decode_of_mem hm).1

/-- Stepping at an instruction is performing it. -/
theorem At.step_eq {i : Instruction Nat} (h : b.At x i y) :
    ∃ j, b.Aims x j i ∧ ∀ stack locals printed,
      step b ⟨x, stack, locals, printed⟩ = perform b j y ⟨x, stack, locals, printed⟩ := by
  obtain ⟨⟨j, hm, haims⟩, rfl⟩ := h
  refine ⟨j, haims, fun stack locals printed => ?_⟩
  rw [← haims.size_eq]
  exact step_of_mem hm

theorem At.step_plain {op : Opcode} (h : b.At x (.plain op) y) (hp : op ≠ .print) (hr : op ≠ .ret) :
    step b ⟨x, stack, locals, printed⟩ =
      (applyOp x stack op).map fun stack => .next ⟨y, stack, locals, printed⟩ := by
  obtain ⟨_, ⟨_⟩, hstep⟩ := h.step_eq
  rw [hstep]
  cases op <;> first | contradiction | rfl

theorem At.step_print {value : Value} (h : b.At x (.plain .print) y) :
    step b ⟨x, value :: stack, locals, printed⟩ =
      .ok (.next ⟨y, stack, locals, printed.push value.text⟩) := by
  obtain ⟨_, ⟨_⟩, hstep⟩ := h.step_eq
  rw [hstep]
  rfl

theorem At.step_ret (h : b.At x (.plain .ret) y) :
    step b ⟨x, stack, locals, printed⟩ = .ok (.returned printed) := by
  obtain ⟨_, ⟨_⟩, hstep⟩ := h.step_eq
  rw [hstep]
  rfl

theorem At.step_jump {branch : Branch} {target : Nat} {taken : Bool}
    (h : b.At x (.jump branch target) y) (ht : test x stack branch = .ok (taken, stack')) :
    step b ⟨x, stack, locals, printed⟩ =
      .ok (.next ⟨if taken then target else y, stack', locals, printed⟩) := by
  obtain ⟨_, haims, hstep⟩ := h.step_eq
  cases haims with
  | jump _ lands =>
    rw [hstep]
    simp only [perform, ht, Bind.bind, Except.bind]
    cases taken
    · rfl
    · simp only [lands, if_true]
      rfl

theorem At.step_goto {target : Nat} (h : b.At x (.jump .goto target) y) :
    step b ⟨x, stack, locals, printed⟩ = .ok (.next ⟨target, stack, locals, printed⟩) :=
  h.step_jump (show test x stack .goto = .ok (true, stack) from rfl)

theorem At.step_load {kind : Kind} {slot : UInt16} (h : b.At x (.access (.load kind) slot) y) :
    step b ⟨x, stack, locals, printed⟩ = load kind slot x y ⟨x, stack, locals, printed⟩ := by
  obtain ⟨_, ⟨_⟩, hstep⟩ := h.step_eq
  exact hstep ..

theorem At.step_store {kind : Kind} {slot : UInt16} (h : b.At x (.access (.store kind) slot) y) :
    step b ⟨x, stack, locals, printed⟩ = store kind slot x y ⟨x, stack, locals, printed⟩ := by
  obtain ⟨_, ⟨_⟩, hstep⟩ := h.step_eq
  exact hstep ..

theorem At.step_pushInt {value : Int32} (h : b.At x (.pushInt value) y) :
    step b ⟨x, stack, locals, printed⟩ = .ok (.next ⟨y, .int value :: stack, locals, printed⟩) := by
  obtain ⟨_, ⟨_⟩, hstep⟩ := h.step_eq
  exact hstep ..

theorem At.step_pushDouble {value : Double} (h : b.At x (.pushDouble value) y) :
    step b ⟨x, stack, locals, printed⟩ =
      .ok (.next ⟨y, .double value :: stack, locals, printed⟩) := by
  obtain ⟨_, ⟨_⟩, hstep⟩ := h.step_eq
  exact hstep ..

theorem At.step_pushString {index : UInt16} {text : String} (h : b.At x (.pushString index) y)
    (ht : b.strings[index.toNat]? = some text) :
    step b ⟨x, stack, locals, printed⟩ =
      .ok (.next ⟨y, .string text :: stack, locals, printed⟩) := by
  obtain ⟨_, ⟨_⟩, hstep⟩ := h.step_eq
  rw [hstep]
  simp only [perform, ht]

end Bytecode

namespace Machine

variable {b : Bytecode}

/-- The machine gets from one state to another by some number of steps. -/
def Steps (b : Bytecode) : Nat → State → State → Prop
  | 0, s, t => s = t
  | n + 1, s, t => ∃ u, step b s = .ok (.next u) ∧ Steps b n u t

theorem Steps.trans {n m : Nat} {s t u : State} (h : Steps b n s t) (h' : Steps b m t u) :
    Steps b (n + m) s u := by
  induction n generalizing s with
  | zero =>
    cases h
    rwa [Nat.zero_add]
  | succ n ih =>
    obtain ⟨v, hv, h⟩ := h
    rw [Nat.succ_add]
    exact ⟨v, hv, ih h⟩

theorem lt_size_of_step {s : State} {outcome : Outcome} (h : step b s = .ok outcome) :
    s.pc < b.code.size := by
  unfold step at h
  split at h
  · assumption
  · cases h

theorem lt_size_of_failed {s : State} {error : RunError} (h : step b s = .error error)
    (hinside : error ≠ .missingReturn) : s.pc < b.code.size := by
  unfold step at h
  split at h
  · assumption
  · cases h
    exact absurd rfl hinside

/-- What every step keeps holds wherever steps lead. -/
theorem Steps.keeps {I : State → Prop} (hI : ∀ s t, I s → step b s = .ok (.next t) → I t) {n : Nat}
    {s t : State} (h : Steps b n s t) (hs : I s) : I t := by
  induction n generalizing s with
  | zero => exact h ▸ hs
  | succ n ih =>
    obtain ⟨u, hu, h⟩ := h
    exact ih h (hI s u hs hu)

/-- A run that fails is cut short, or it comes to a state from which the step fails. -/
theorem runFrom_error {limit steps : Nat} {s : State} {error : RunError}
    (h : runFrom b limit steps s = .error error) :
    error = .stepLimit limit ∨ ∃ n t, Steps b n s t ∧ step b t = .error error := by
  induction steps generalizing s with
  | zero =>
    rw [runFrom] at h
    by_cases hlt : s.pc < b.code.size
    · rw [if_pos hlt] at h
      cases h
      exact .inl rfl
    · rw [if_neg hlt] at h
      cases h
      exact .inr ⟨0, s, rfl, by rw [step, if_neg hlt]⟩
  | succ steps ih =>
    rw [runFrom] at h
    split at h
    · rename_i hstep
      cases h
      exact .inr ⟨0, s, rfl, hstep⟩
    · cases h
    · rename_i t hstep
      rcases ih h with hcut | ⟨n, u, hs, he⟩
      · exact .inl hcut
      · exact .inr ⟨n + 1, u, ⟨t, hstep, hs⟩, he⟩

theorem run_error {limit : Nat} {error : RunError} (h : run b limit = .error error) :
    error = .stepLimit limit ∨ ∃ n t, Steps b n (start b) t ∧ step b t = .error error := by
  unfold run at h
  cases hr : runFrom b limit limit (start b) with
  | ok printed =>
    rw [hr] at h
    cases h
  | error e =>
    rw [hr] at h
    cases h
    exact runFrom_error hr

/-- A run that may make more steps than are known goes on from where they lead. -/
theorem Steps.runFrom_add {n : Nat} {s t : State} (h : Steps b n s t) (limit steps : Nat) :
    runFrom b limit (n + steps) s = runFrom b limit steps t := by
  induction n generalizing s with
  | zero =>
    cases h
    rw [Nat.zero_add]
  | succ n ih =>
    obtain ⟨u, hu, h⟩ := h
    rw [Nat.succ_add, runFrom, hu]
    exact ih h

/-- A run that may make fewer is cut short. -/
theorem Steps.runFrom_lt {n : Nat} {s t : State} (h : Steps b n s t) (limit : Nat) {steps : Nat}
    (hlt : steps < n) : runFrom b limit steps s = .error (.stepLimit limit) := by
  induction n generalizing s steps with
  | zero => omega
  | succ n ih =>
    obtain ⟨u, hu, h⟩ := h
    cases steps with
    | zero => rw [runFrom, if_pos (lt_size_of_step hu)]
    | succ steps =>
      rw [runFrom, hu]
      exact ih h (by omega)

/-- Allowed enough steps, a code ends with the result; with fewer it is cut short. -/
def Ends (b : Bytecode) (result : Except RunError (List String)) : Prop :=
  ∃ n, ∀ limit, run b limit = if n ≤ limit then result else .error (.stepLimit limit)

/-- How a run ends that comes to a state from which no step leads on. -/
theorem Steps.ends {n : Nat} {t : State} (hs : Steps b n (start b) t) (hlt : t.pc < b.code.size)
    {result : Except RunError (List String)}
    (hr : ∀ limit steps, (runFrom b limit (steps + 1) t).map (·.toList) = result) :
    Ends b result := by
  refine ⟨n + 1, fun limit => ?_⟩
  unfold run
  by_cases hle : n + 1 ≤ limit
  · obtain ⟨steps, rfl⟩ := Nat.exists_eq_add_of_le hle
    rw [if_pos hle, Nat.add_assoc, hs.runFrom_add, Nat.add_comm 1 steps]
    exact hr _ steps
  · rw [if_neg hle]
    by_cases he : limit = n
    · subst he
      have hcut := hs.runFrom_add limit 0
      rw [Nat.add_zero, runFrom, if_pos hlt] at hcut
      rw [hcut]
      rfl
    · rw [hs.runFrom_lt limit (by omega)]
      rfl

theorem Steps.ends_returned {n : Nat} {t : State} {printed : Array String}
    (hs : Steps b n (start b) t) (hr : step b t = .ok (.returned printed)) :
    Ends b (.ok printed.toList) :=
  hs.ends (lt_size_of_step hr) fun limit steps => by simp only [runFrom, hr, Except.map]

theorem Steps.ends_failed {n : Nat} {t : State} {error : RunError} (hs : Steps b n (start b) t)
    (he : step b t = .error error) (hne : error ≠ .missingReturn) : Ends b (.error error) :=
  hs.ends (lt_size_of_failed he hne) fun limit steps => by simp only [runFrom, he, Except.map]

theorem Steps.run_lt {n : Nat} {t : State} (hs : Steps b n (start b) t) {limit : Nat}
    (hlt : limit < n) : run b limit = .error (.stepLimit limit) := by
  rw [run, hs.runFrom_lt limit hlt]
  rfl

/-- A code that ends is not cut short at every limit. -/
theorem Ends.exists_limit {result : Except RunError (List String)} (h : Ends b result) :
    ∃ limit, run b limit ≠ .error (.stepLimit limit) := by
  obtain ⟨n, hn⟩ := h
  by_cases hr : run b n = .error (.stepLimit n)
  · refine ⟨n + 1, fun hr' => ?_⟩
    rw [hn, if_pos (Nat.le_refl n)] at hr
    rw [hn, if_pos (Nat.le_succ n), hr] at hr'
    simp at hr'
  · exact ⟨n, hr⟩

/-- A code ends in one way only. -/
theorem Ends.unique {result result' : Except RunError (List String)} (h : Ends b result)
    (h' : Ends b result') : result = result' := by
  obtain ⟨n, hn⟩ := h
  obtain ⟨m, hm⟩ := h'
  have hboth := (hn (max n m)).symm.trans (hm (max n m))
  rwa [if_pos (Nat.le_max_left n m), if_pos (Nat.le_max_right n m)] at hboth

end Machine

end BlockLang
