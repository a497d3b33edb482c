import BlockLang.Proofs.Performing

namespace BlockLang

namespace Machine

variable {b : Bytecode} {s t : State} {slot : UInt16}

/-- Something is stored in the slot. -/
def State.Stored (slot : UInt16) (s : State) : Prop :=
  ∃ value, s.locals[slot.toNat]? = some (some value)

theorem State.Stored.perform {i : Instruction Int16} {next : Nat} (hs : s.Stored slot)
    (h : Machine.perform b i next s = .ok (.next t)) : t.Stored slot := by
  obtain ⟨value, hvalue⟩ := hs
  rcases (leads_perform h).2 with hsame | ⟨other, stored, hlt, hset⟩
  · exact ⟨value, by rw [hsame, hvalue]⟩
  · unfold State.Stored
    rw [hset, Array.getElem?_setIfInBounds]
    by_cases he : other.toNat = slot.toNat
    · rw [if_pos he, if_pos hlt]
      exact ⟨stored, rfl⟩
    · rw [if_neg he]
      exact ⟨value, hvalue⟩

/-- Only a load of the slot finds it uninitialized, and only if it is. -/
theorem State.Stored.perform_ne {i : Instruction Int16} {next : Nat} (hs : s.Stored slot) :
    Machine.perform b i next s ≠ .error (.uninitializedLocal slot) := by
  intro h
  obtain ⟨value, hvalue⟩ := hs
  cases mayFail_perform h with
  | stack cause => exact cause
  | unset found =>
    rw [hvalue] at found
    cases found
  | stray _ lost => cases target_error lost

theorem State.Stored.step (hs : s.Stored slot) (h : Machine.step b s = .ok (.next t)) :
    t.Stored slot := by
  obtain ⟨i, hi⟩ := performs_of_step h
  exact hs.perform hi

theorem State.Stored.step_ne (hs : s.Stored slot) :
    Machine.step b s ≠ .error (.uninitializedLocal slot) := by
  intro h
  rcases fails_of_step h with hend | ⟨_, hdecode⟩ | ⟨i, hi⟩
  · cases hend
  · cases hdecode
  · exact hs.perform_ne hi

/-- A slot that was written is never found uninitialized again. -/
theorem State.Stored.runFrom_ne (hs : s.Stored slot) (limit steps : Nat) :
    runFrom b limit steps s ≠ .error (.uninitializedLocal slot) := by
  intro h
  rcases runFrom_error h with hcut | ⟨n, t, hsteps, he⟩
  · cases hcut
  · have ht : t.Stored slot := hsteps.keeps (fun _ _ hu hstep => hu.step hstep) hs
    exact ht.step_ne he

/-- A store changes a local, but not their number. -/
theorem Writes.size_eq (h : Writes s t) : t.locals.size = s.locals.size := by
  rcases h with hsame | ⟨_, _, _, hset⟩
  · rw [hsame]
  · rw [hset, Array.size_setIfInBounds]

theorem size_locals_step (h : step b s = .ok (.next t)) : t.locals.size = s.locals.size := by
  obtain ⟨i, hi⟩ := performs_of_step h
  exact (leads_perform hi).2.size_eq

/-- However far a run has come, it has the locals that it began with. -/
theorem Steps.size_locals {n : Nat} (h : Steps b n (start b) s) :
    s.locals.size = b.maxLocals.toNat :=
  h.keeps (fun _ _ hu hstep => (size_locals_step hstep).trans hu) (by simp [start])

end Machine

end BlockLang
