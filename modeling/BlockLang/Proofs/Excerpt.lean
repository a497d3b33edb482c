import BlockLang.Proofs.Safety

namespace BlockLang

/-- An address between two of the entries, or at one of their ends. -/
def Between (entries : List Entry) (x : Nat) : Prop :=
  ∃ before after, entries = before ++ after ∧ codeSize before = x

theorem Between.left {xs : List Entry} {x : Nat} (h : Between xs x) (ys : List Entry) :
    Between (xs ++ ys) x := by
  obtain ⟨before, after, rfl, hx⟩ := h
  exact ⟨before, after ++ ys, List.append_assoc .., hx⟩

theorem Between.right {ys : List Entry} {y : Nat} (h : Between ys y) (xs : List Entry) :
    Between (xs ++ ys) (codeSize xs + y) := by
  obtain ⟨before, after, rfl, rfl⟩ := h
  exact ⟨xs ++ before, after, (List.append_assoc ..).symm, codeSize_append ..⟩

theorem Between.cases {xs ys : List Entry} {x : Nat} (h : Between (xs ++ ys) x) :
    Between xs x ∨ ∃ y, x = codeSize xs + y ∧ Between ys y := by
  obtain ⟨before, after, he, rfl⟩ := h
  rcases List.append_eq_append_iff.mp he with ⟨more, rfl, rfl⟩ | ⟨more, rfl, rfl⟩
  · exact .inr ⟨codeSize more, codeSize_append .., more, after, rfl, rfl⟩
  · exact .inl ⟨before, more, rfl, rfl⟩

theorem Between.le {entries : List Entry} {x : Nat} (h : Between entries x) :
    x ≤ codeSize entries := by
  obtain ⟨before, after, rfl, rfl⟩ := h
  rw [codeSize_append]
  omega

/-- As many returns as bytes are to be filled. -/
def returns (n : Nat) : List Entry :=
  List.replicate n (.instruction (.plain .ret))

@[simp] theorem codeSize_returns (n : Nat) : codeSize (returns n) = n := by
  induction n with
  | zero => rfl
  | succ n ih =>
    rw [returns, List.replicate_succ, codeSize_cons, ← returns, ih]
    exact Nat.add_comm 1 n

theorem between_returns {n x : Nat} (h : x ≤ n) : Between (returns n) x := by
  obtain ⟨more, rfl⟩ := Nat.exists_eq_add_of_le h
  exact ⟨returns x, returns more, (List.replicate_append_replicate ..).symm, codeSize_returns x⟩

namespace Assembly

/-- Entries in two parts are located in two parts. -/
theorem locate_append_iff {addresses : Array Nat} {address : Nat} {xs ys : List Entry}
    {found : List (Nat × Instruction Int16)} :
    locate addresses address (xs ++ ys) = .ok found ↔
      ∃ f g, locate addresses address xs = .ok f ∧
        locate addresses (address + codeSize xs) ys = .ok g ∧ found = f ++ g := by
  induction xs generalizing address found with
  | nil => simp [locate]
  | cons e xs ih =>
    cases e with
    | label l => simpa [locate, Entry.size] using ih
    | instruction i =>
      rw [List.cons_append, codeSize_cons, ← Nat.add_assoc, Entry.size]
      constructor
      · intro h
        obtain ⟨j, rest, hr, hl, rfl⟩ := locate_cons_ok h
        obtain ⟨f, g, hf, hg, rfl⟩ := ih.mp hl
        refine ⟨(address, j) :: f, g, ?_, hg, rfl⟩
        simp [locate, hr, hf, Except.bind, Except.map]
      · rintro ⟨f, g, hf, hg, rfl⟩
        obtain ⟨j, rest, hr, hl, rfl⟩ := locate_cons_ok hf
        have hrest := ih.mpr ⟨rest, g, hl, hg, rfl⟩
        simp [locate, hr, hrest, Except.bind, Except.map]

/-- An assembly of some of its entries only. Returns stand in place of all others, and one stands
behind the last of them. -/
def excerpt (A : Assembly) (front : Nat) (entries : List Entry) : Assembly :=
  { A with
    entries := (returns front ++
      (entries ++ returns (A.address + 1 - (front + codeSize entries)))).toArray
    address := A.address + 1 }

theorem mem_excerpt {A : Assembly} {front : Nat} {entries : List Entry} {i : Instruction Label}
    (h : .instruction i ∈ (A.excerpt front entries).entries.toList) :
    .instruction i ∈ entries ∨ i = .plain .ret := by
  simp only [excerpt, returns, List.mem_append, List.mem_replicate, Entry.instruction.injEq] at h
  rcases h with ⟨_, hi⟩ | hi | ⟨_, hi⟩
  · exact .inr hi
  · exact .inl hi
  · exact .inr hi

theorem Valid.excerpt {A : Assembly} (h : A.Valid) {before mid after : List Entry}
    (hA : A.entries.toList = before ++ (mid ++ after)) :
    (A.excerpt (codeSize before) mid).Valid := by
  have hsize := h.address
  rw [hA, codeSize_append, codeSize_append] at hsize
  have hmid {i : Instruction Label} (hi : .instruction i ∈ mid) :
      .instruction i ∈ A.entries.toList := by simp [hA, hi]
  refine ⟨?_, ?_, ?_, ?_, ?_, h.rooms, h.table⟩
  · simp only [Assembly.excerpt, codeSize_append, codeSize_returns]
    omega
  · intro n x hx
    have hbetween : Between (before ++ (mid ++ after)) x := hA ▸ h.bound n x hx
    change Between (returns _ ++ (mid ++ returns _)) x
    rcases hbetween.cases with hbefore | ⟨y, rfl, hrest⟩
    · exact (between_returns hbefore.le).left _
    have hkept : Between (mid ++ returns (A.address + 1 - (codeSize before + codeSize mid))) y := by
      rcases hrest.cases with hmid | ⟨z, rfl, hafter⟩
      · exact hmid.left _
      · have hle := hafter.le
        exact (between_returns (by omega)).right mid
    simpa using hkept.right (returns (codeSize before))
  · intro branch label hi
    rcases mem_excerpt hi with hi | hi
    · exact h.jumps branch label (hmid hi)
    · cases hi
  · intro op slot hi
    rcases mem_excerpt hi with hi | hi
    · exact h.accesses op slot (hmid hi)
    · cases hi
  · intro index hi
    rcases mem_excerpt hi with hi | hi
    · exact h.texts index (hmid hi)
    · cases hi

end Assembly

/-- `b'` has the instructions that `b` has between two addresses, and returns everywhere else. -/
structure Bytecode.Excerpts (b' b : Bytecode) (x y : Nat) : Prop where
  strings : b'.strings = b.strings
  size : b'.code.size = b.code.size + 1
  le : y ≤ b.code.size
  found : ∀ u j, (u, j) ∈ (Sweep.ofCode b'.code).found.toList →
    (x ≤ u ∧ u + j.size ≤ y ∧ (u, j) ∈ (Sweep.ofCode b.code).found.toList) ∨
      ((u < x ∨ y ≤ u) ∧ j = .plain .ret)

namespace Machine

variable {b : Bytecode} {x y : Nat}

/-- The next instruction is between two addresses. -/
def State.Within (s : State) (x y : Nat) : Prop :=
  x ≤ s.pc ∧ s.pc < y

/-- Steps of which each is made between two addresses. -/
def StepsWithin (b : Bytecode) (x y : Nat) : Nat → State → State → Prop
  | 0, s, t => s = t
  | n + 1, s, t => s.Within x y ∧ ∃ u, step b s = .ok (.next u) ∧ StepsWithin b x y n u t

/-- A jump to the end of the code is made between two addresses, which is an error. -/
def Strays (b : Bytecode) (x y : Nat) (s : State) : Prop :=
  ∃ n t, StepsWithin b x y n s t ∧ t.Within x y ∧ step b t = .error (.invalidJumpTarget t.pc)

/-- One more byte of code is one more place to jump to. -/
theorem target_succ (size address : Nat) (offset : Int16) :
    target size address offset = target (size + 1) address offset ∨
      (target (size + 1) address offset = .ok size ∧
        target size address offset = .error (.invalidJumpTarget address)) := by
  unfold target
  dsimp only
  by_cases hend : (address : Int) + offset.toInt = size
  · refine .inr ⟨?_, ?_⟩
    · rw [hend, if_pos (by omega), Int.toNat_natCast]
    · rw [if_neg (by omega)]
  · refine .inl (if_congr (by omega) rfl rfl)

end Machine

namespace Bytecode.Excerpts

open Machine

variable {A : Assembly} {b b' : Bytecode} {x y : Nat} {s t : State}

/-- The same instruction does the same in both codes, unless it jumps to the end. -/
theorem perform_cases (h : b'.Excerpts b x y) (j : Instruction Int16) (next : Nat) (s : State) :
    perform b j next s = perform b' j next s ∨
      ∃ t, perform b' j next s = .ok (.next t) ∧ t.pc = b.code.size ∧
        perform b j next s = .error (.invalidJumpTarget s.pc) := by
  obtain ⟨pc, stack, locals, printed⟩ := s
  cases j with
  | jump branch offset =>
    simp only [perform, h.size]
    cases ht : test pc stack branch with
    | error error => exact .inl rfl
    | ok r =>
      obtain ⟨taken, stack⟩ := r
      cases taken with
      | false => exact .inl rfl
      | true =>
        rcases target_succ b.code.size pc offset with hsame | ⟨hend, hlost⟩
        · exact .inl (by rw [hsame])
        · exact .inr ⟨⟨b.code.size, stack, locals, printed⟩, by rw [hend]; rfl, rfl,
            by rw [hlost]; rfl⟩
  | pushString index =>
    simp only [perform, h.strings]
    exact .inl trivial
  | plain op => cases op <;> exact .inl rfl
  | access op slot => cases op <;> exact .inl rfl
  | _ => exact .inl rfl

/-- Where the excerpt has an instruction of the code, both do the same, unless they jump to the
end. -/
theorem step_within (h : b'.Excerpts b x y) (hs : s.pc ∈ (Sweep.ofCode b'.code).addresses)
    (hin : s.Within x y) :
    step b s = step b' s ∨ ∃ t, step b' s = .ok (.next t) ∧ t.pc = b.code.size ∧
      step b s = .error (.invalidJumpTarget s.pc) := by
  obtain ⟨⟨_, j⟩, hm, rfl⟩ := List.mem_map.mp hs
  rw [step_of_mem hm]
  rcases h.found _ _ hm with ⟨_, _, hm'⟩ | ⟨hout, _⟩
  · rw [step_of_mem hm']
    exact h.perform_cases j _ s
  · obtain ⟨hx, hy⟩ := hin
    omega

/-- Everywhere else the excerpt returns. -/
theorem step_outside (h : b'.Excerpts b x y) (hs : s.pc ∈ (Sweep.ofCode b'.code).addresses)
    (hout : ¬ s.Within x y) : step b' s = .ok (.returned s.printed) := by
  obtain ⟨⟨_, j⟩, hm, rfl⟩ := List.mem_map.mp hs
  rw [step_of_mem hm]
  rcases h.found _ _ hm with ⟨hx, hy, _⟩ | ⟨_, rfl⟩
  · exact absurd ⟨hx, Nat.lt_of_lt_of_le (Nat.lt_add_of_pos_right j.size_pos) hy⟩ hout
  · rfl

/-- A step of the excerpt leads to where an instruction starts. -/
theorem step_mem (h : b'.Excerpts b x y) (placed : Placed A b')
    (hs : s.pc ∈ (Sweep.ofCode b'.code).addresses) (hstep : step b' s = .ok (.next t)) :
    t.pc ∈ (Sweep.ofCode b'.code).addresses := by
  obtain ⟨_, hsplits, hrefers⟩ := fault?_eq_none_iff.mp placed.faultless
  have hplace : s.InPlace b' := .inl hs
  refine (hplace.step hsplits hrefers hstep).resolve_right fun hend => ?_
  obtain ⟨⟨_, j⟩, hm, rfl⟩ := List.mem_map.mp hs
  rw [step_of_mem hm] at hstep
  rcases h.found _ _ hm with ⟨_, hy, _⟩ | ⟨_, rfl⟩
  · have hsize := h.size
    have hle := h.le
    rcases (leads_perform hstep).1 with hnext | ⟨_, _, _, hgoal⟩
    · omega
    · have := (target_eq_ok_iff.mp hgoal).2
      omega
  · cases hstep

/-- Steps of the excerpt are steps of the code, or the code strays where the excerpt gets to its
last instruction. -/
theorem steps (h : b'.Excerpts b x y) (placed : Placed A b') {n : Nat}
    (hs : s.pc ∈ (Sweep.ofCode b'.code).addresses) (hsteps : Steps b' n s t) :
    t.pc ∈ (Sweep.ofCode b'.code).addresses ∧
      (StepsWithin b x y n s t ∨ (t.pc = b.code.size ∧ Strays b x y s)) := by
  induction n generalizing s with
  | zero =>
    cases hsteps
    exact ⟨hs, .inl rfl⟩
  | succ n ih =>
    obtain ⟨u, hu, hsteps⟩ := hsteps
    have hin : s.Within x y := by
      by_contra hout
      rw [h.step_outside hs hout] at hu
      cases hu
    have hmem := h.step_mem placed hs hu
    obtain ⟨ht, hrest⟩ := ih hmem hsteps
    refine ⟨ht, ?_⟩
    rcases h.step_within hs hin with hsame | ⟨v, hv, hend, hlost⟩
    · rw [hu] at hsame
      refine hrest.imp (fun hwithin => ⟨hin, u, hsame, hwithin⟩) ?_
      rintro ⟨hend, m, v, hwithin, hv⟩
      exact ⟨hend, m + 1, v, ⟨hin, u, hsame, hwithin⟩, hv⟩
    · -- At the end the excerpt returns, so that it makes no more steps.
      obtain rfl : u = v := by simpa [hu] using hv
      have hle := h.le
      have hreturns := h.step_outside hmem fun ⟨_, hlt⟩ => by omega
      cases n with
      | zero =>
        cases hsteps
        exact .inr ⟨hend, 0, s, rfl, hin, hlost⟩
      | succ n =>
        obtain ⟨_, hnext, _⟩ := hsteps
        rw [hreturns] at hnext
        cases hnext

/-- An error of the excerpt is one of the code. -/
theorem step_error (h : b'.Excerpts b x y) (hs : s.pc ∈ (Sweep.ofCode b'.code).addresses)
    {error : RunError} (he : step b' s = .error error) :
    s.Within x y ∧ step b s = .error error := by
  have hin : s.Within x y := by
    by_contra hout
    rw [h.step_outside hs hout] at he
    cases he
  refine ⟨hin, ?_⟩
  rcases h.step_within hs hin with hsame | ⟨_, hnext, _⟩
  · exact hsame.trans he
  · rw [hnext] at he
    cases he

end Bytecode.Excerpts

end BlockLang
