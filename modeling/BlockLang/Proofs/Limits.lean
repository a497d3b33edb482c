import BlockLang.Proofs.Performing

namespace BlockLang.Machine

variable {b : Bytecode} {s : State} {limit steps : Nat}

/-- No instruction knows how many are allowed. -/
theorem step_ne_stepLimit (b : Bytecode) (s : State) (limit : Nat) :
    step b s ≠ .error (.stepLimit limit) := by
  intro h
  rcases fails_of_step h with hend | ⟨_, hdecode⟩ | ⟨i, hi⟩
  · cases hend
  · cases hdecode
  · cases mayFail_perform hi with
    | stack cause => exact cause
    | stray _ lost => cases target_error lost

/-- Where the machine left the code, the steps that are left do not matter. -/
theorem runFrom_outside (h : ¬ s.pc < b.code.size) (limit steps : Nat) :
    runFrom b limit steps s = .error .missingReturn := by
  cases steps with
  | zero => rw [runFrom, if_neg h]
  | succ steps => rw [runFrom, step, if_neg h]

/-- A run that is not cut short makes no use of further steps. -/
theorem runFrom_more (h : runFrom b limit steps s ≠ .error (.stepLimit limit)) (limit' more : Nat) :
    runFrom b limit' (steps + more) s = runFrom b limit steps s := by
  induction steps generalizing s with
  | zero =>
    have hout : ¬ s.pc < b.code.size := by
      intro hlt
      rw [runFrom, if_pos hlt] at h
      exact h rfl
    rw [runFrom_outside hout, runFrom_outside hout]
  | succ steps ih =>
    rw [Nat.succ_add, runFrom, runFrom]
    rw [runFrom] at h
    cases hstep : step b s with
    | error error => rfl
    | ok outcome =>
      cases outcome with
      | returned printed => rfl
      | next t =>
        rw [hstep] at h
        exact ih h

/-- A run is cut short where its steps lead to an instruction. -/
theorem runFrom_cut_iff : runFrom b limit steps s = .error (.stepLimit limit) ↔
    ∃ t, Steps b steps s t ∧ t.pc < b.code.size := by
  constructor
  · intro h
    induction steps generalizing s with
    | zero =>
      refine ⟨s, rfl, ?_⟩
      by_contra hout
      rw [runFrom_outside hout] at h
      cases h
    | succ steps ih =>
      rw [runFrom] at h
      cases hstep : step b s with
      | error error =>
        rw [hstep] at h
        cases h
        exact absurd hstep (step_ne_stepLimit b s limit)
      | ok outcome =>
        rw [hstep] at h
        cases outcome with
        | returned printed => cases h
        | next u =>
          obtain ⟨t, hsteps, hlt⟩ := ih h
          exact ⟨t, ⟨u, hstep, hsteps⟩, hlt⟩
  · intro h
    obtain ⟨t, hsteps, hlt⟩ := h
    have hcut := hsteps.runFrom_add limit 0
    rwa [Nat.add_zero, runFrom, if_pos hlt] at hcut

/-- A run fails as its steps do. -/
theorem run_eq_error_iff {error : RunError} :
    run b limit = .error error ↔ runFrom b limit limit (start b) = .error error := by
  unfold run
  cases runFrom b limit limit (start b) with
  | ok printed => exact ⟨nofun, nofun⟩
  | error error => simp [Except.map]

/-- A run that is not cut short fails where one of its steps fails inside the code. -/
theorem run_failed_iff {error : RunError} (hcut : ∀ n, error ≠ .stepLimit n)
    (hinside : error ≠ .missingReturn) :
    run b limit = .error error ↔
      ∃ n t, n < limit ∧ Steps b n (start b) t ∧ step b t = .error error := by
  rw [run_eq_error_iff]
  constructor
  · intro h
    rcases runFrom_error h with hlimit | ⟨n, t, hsteps, he⟩
    · exact absurd hlimit (hcut limit)
    refine ⟨n, t, ?_, hsteps, he⟩
    by_contra hge
    have hlimit : runFrom b limit limit (start b) = .error (.stepLimit limit) := by
      rcases Nat.eq_or_lt_of_le (Nat.le_of_not_lt hge) with rfl | hlt
      · exact runFrom_cut_iff.mpr ⟨t, hsteps, lt_size_of_failed he hinside⟩
      · exact hsteps.runFrom_lt limit hlt
    rw [h] at hlimit
    exact hcut limit (Except.error.inj hlimit)
  · rintro ⟨n, t, hlt, hsteps, he⟩
    obtain ⟨more, rfl⟩ := Nat.exists_eq_add_of_lt hlt
    rw [Nat.add_assoc, hsteps.runFrom_add, runFrom, he]

/-- The limit only cuts runs short. One that ends otherwise ends so under every higher limit, and one is
cut short exactly if that many instructions are performed and another one comes next. -/
theorem run_limited (b : Bytecode) (n : Nat) :
    (∀ k, n ≤ k → run b n ≠ .error (.stepLimit n) → run b k = run b n) ∧
    (run b n = .error (.stepLimit n) ↔ ∃ t, Steps b n (start b) t ∧ t.pc < b.code.size) := by
  refine ⟨?_, run_eq_error_iff.trans runFrom_cut_iff⟩
  intro k hle hne
  obtain ⟨more, rfl⟩ := Nat.exists_eq_add_of_le hle
  have hfrom := runFrom_more (mt run_eq_error_iff.mpr hne) (n + more) more
  rw [run, hfrom, run]

/-- Three instructions, the last of which returns: three are enough, and two are not. -/
theorem run_limited_return :
    run ⟨0, #[], #[0x13, 0, 0, 0, 7, 0xcc, 0xb1]⟩ 3 = .ok ["7"] ∧
    run ⟨0, #[], #[0x13, 0, 0, 0, 7, 0xcc, 0xb1]⟩ 9 = .ok ["7"] ∧
    run ⟨0, #[], #[0x13, 0, 0, 0, 7, 0xcc, 0xb1]⟩ 2 = .error (.stepLimit 2) := by
  have hrun : run ⟨0, #[], #[0x13, 0, 0, 0, 7, 0xcc, 0xb1]⟩ 3 = .ok ["7"] := by decide +kernel
  refine ⟨hrun, ?_, ?_⟩
  · rw [(run_limited _ 3).1 9 (by decide) (by simp [hrun]), hrun]
  · refine (run_limited _ 2).2.mpr ⟨⟨6, [], #[], #["7"]⟩, ?_, by decide⟩
    exact ⟨⟨5, [.int 7], #[], #[]⟩, by decide +kernel, _, by decide +kernel, rfl⟩

end BlockLang.Machine
