import BlockLang.Proofs.Running

namespace BlockLang

/-- The errors that come from what is on the stack. -/
def RunError.OfStack : RunError → Prop
  | stackUnderflow _ | typeMismatch _ _ _ | divisionByZero _ => True
  | _ => False

namespace Machine

section Errors

variable {α β : Type}

/-- Where an operation fails, the stack is why. -/
def Pops (result : Except RunError α) : Prop :=
  ∀ error, result = .error error → error.OfStack

theorem pops_pure (a : α) : Pops (pure a) := nofun

theorem Pops.bind {result : Except RunError α} {f : α → Except RunError β} (h : Pops result)
    (hf : ∀ a, Pops (f a)) : Pops (result >>= f) := by
  intro error he
  cases result with
  | error e => exact h error (congrArg Except.error (Except.error.inj he))
  | ok a => exact hf a error he

theorem pops_pop (address : Nat) (stack : Stack) : Pops (pop address stack) := by
  intro error he
  cases stack with
  | nil =>
    cases he
    trivial
  | cons value stack => cases he

theorem pops_popInt (address : Nat) (stack : Stack) : Pops (popInt address stack) := by
  refine (pops_pop address stack).bind fun r => ?_
  split
  · exact pops_pure _
  · intro error he
    cases he
    trivial

theorem pops_popDouble (address : Nat) (stack : Stack) : Pops (popDouble address stack) := by
  refine (pops_pop address stack).bind fun r => ?_
  split
  · exact pops_pure _
  · intro error he
    cases he
    trivial

theorem pops_popInts (address : Nat) (stack : Stack) : Pops (popInts address stack) :=
  (pops_popInt address stack).bind fun r => (pops_popInt address r.2).bind fun _ => pops_pure _

theorem pops_popDoubles (address : Nat) (stack : Stack) : Pops (popDoubles address stack) :=
  (pops_popDouble address stack).bind fun r =>
    (pops_popDouble address r.2).bind fun _ => pops_pure _

theorem pops_applyOp (address : Nat) (stack : Stack) (op : Opcode) :
    Pops (applyOp address stack op) := by
  cases op with
  | pop | dup => exact (pops_pop address stack).bind fun _ => pops_pure _
  | intArith op =>
    refine (pops_popInts address stack).bind fun r => ?_
    dsimp only
    split
    · exact pops_pure _
    · intro error he
      cases he
      trivial
  | doubleArith op => exact (pops_popDoubles address stack).bind fun _ => pops_pure _
  | intNegate | intToDouble => exact (pops_popInt address stack).bind fun _ => pops_pure _
  | doubleNegate | doubleToInt => exact (pops_popDouble address stack).bind fun _ => pops_pure _
  | bit op => exact (pops_popInts address stack).bind fun _ => pops_pure _
  | compare high => exact (pops_popDoubles address stack).bind fun _ => pops_pure _
  | concat =>
    exact (pops_pop address stack).bind fun r => (pops_pop address r.2).bind fun _ => pops_pure _
  | print | ret => exact pops_pure _

theorem pops_test (address : Nat) (stack : Stack) (branch : Branch) :
    Pops (test address stack branch) := by
  cases branch with
  | goto => exact pops_pure _
  | zero relation => exact (pops_popInt address stack).bind fun _ => pops_pure _
  | ints relation => exact (pops_popInts address stack).bind fun _ => pops_pure _

end Errors

variable {b : Bytecode} {s t : State}

/-- The stack holds what an access takes from it. -/
def State.Supplies (s : State) : LocalOp → Prop
  | .load _ => True
  | .store kind => ∃ value rest, s.stack = value :: rest ∧ value.kind = kind

/-- Why an instruction can fail. -/
inductive MayFail (b : Bytecode) (i : Instruction Int16) (s : State) : RunError → Prop
  | stack {error} (cause : error.OfStack) : MayFail b i s error
  | range {op n} (access : i = .access op n) (outside : s.locals.size ≤ n.toNat)
      (supplied : s.Supplies op) : MayFail b i s (.invalidLocal n)
  | unset {n} (found : s.locals[n.toNat]? = some none) : MayFail b i s (.uninitializedLocal n)
  | stray {branch offset error} (jump : i = .jump branch offset)
      (lost : target b.code.size s.pc offset = .error error) : MayFail b i s error
  | missing {index} (push : i = .pushString index) (absent : b.strings[index.toNat]? = none) :
      MayFail b i s (.missingString index)

theorem mayFail_load {kind : Kind} {slot : UInt16} {address next : Nat} {error : RunError}
    (h : load kind slot address next s = .error error) :
    MayFail b (.access (.load kind) slot) s error := by
  obtain ⟨pc, stack, locals, printed⟩ := s
  simp only [load] at h
  split at h
  · rename_i outside
    cases h
    exact .range rfl (Array.getElem?_eq_none_iff.mp outside) trivial
  · rename_i found
    cases h
    exact .unset found
  · split at h
    · cases h
    · cases h
      exact .stack trivial

theorem mayFail_store {kind : Kind} {slot : UInt16} {address next : Nat} {error : RunError}
    (h : store kind slot address next s = .error error) :
    MayFail b (.access (.store kind) slot) s error := by
  obtain ⟨pc, stack, locals, printed⟩ := s
  simp only [store] at h
  split at h
  · cases h
    exact .stack trivial
  · rename_i value rest
    split at h
    · cases h
      exact .stack trivial
    · rename_i hkind
      split at h
      · cases h
      · rename_i outside
        cases h
        exact .range rfl (Nat.le_of_not_lt outside) ⟨value, rest, rfl, Decidable.not_not.mp hkind⟩

/-- An instruction fails for one of these reasons only. -/
theorem mayFail_perform {i : Instruction Int16} {next : Nat} {error : RunError}
    (h : perform b i next s = .error error) : MayFail b i s error := by
  obtain ⟨pc, stack, locals, printed⟩ := s
  cases i with
  | plain op =>
    cases op with
    | ret => cases h
    | print =>
      rcases bind_eq_error h with he | ⟨_, _, he⟩
      · exact .stack (pops_pop _ _ _ he)
      · cases he
    | _ =>
      rcases bind_eq_error h with he | ⟨_, _, he⟩
      · exact .stack (pops_applyOp _ _ _ _ he)
      · cases he
  | jump branch offset =>
    rcases bind_eq_error h with he | ⟨r, _, he⟩
    · exact .stack (pops_test _ _ _ _ he)
    · dsimp only at he
      split at he
      · rcases bind_eq_error he with lost | ⟨_, _, he⟩
        · exact .stray rfl lost
        · cases he
      · cases he
  | access op slot =>
    cases op with
    | load kind => exact mayFail_load h
    | store kind => exact mayFail_store h
  | pushString index =>
    simp only [perform] at h
    split at h
    · cases h
    · rename_i absent
      cases h
      exact .missing rfl absent
  | _ => cases h

/-- An access that is supplied fails outside the locals. -/
theorem perform_outside {op : LocalOp} {slot : UInt16} {next : Nat}
    (outside : s.locals.size ≤ slot.toNat) (supplied : s.Supplies op) :
    perform b (.access op slot) next s = .error (.invalidLocal slot) := by
  obtain ⟨pc, stack, locals, printed⟩ := s
  cases op with
  | load kind =>
    have hnone : locals[slot.toNat]? = none := Array.getElem?_eq_none_iff.mpr outside
    simp only [perform, load, hnone]
  | store kind =>
    obtain ⟨value, rest, rfl, hkind⟩ := supplied
    have hout : ¬ slot.toNat < locals.size := Nat.not_lt.mpr outside
    simp only [perform, store, hkind, ne_eq, not_true_eq_false, if_false, if_neg hout]

/-- Where an instruction leads: behind itself, or where its jump goes. -/
def Leads (b : Bytecode) (i : Instruction Int16) (next : Nat) (s t : State) : Prop :=
  t.pc = next ∨
    ∃ branch offset, i = .jump branch offset ∧ target b.code.size s.pc offset = .ok t.pc

/-- What an instruction does to the locals: nothing, or it puts a value into one of them. -/
def Writes (s t : State) : Prop :=
  t.locals = s.locals ∨ ∃ (slot : UInt16) (value : Value), slot.toNat < s.locals.size ∧
    t.locals = s.locals.setIfInBounds slot.toNat (some value)

/-- Only a jump leads elsewhere than behind itself, and only a store changes the locals. -/
theorem leads_perform {i : Instruction Int16} {next : Nat}
    (h : perform b i next s = .ok (.next t)) : Leads b i next s t ∧ Writes s t := by
  obtain ⟨pc, stack, locals, printed⟩ := s
  have onward : ∀ {stack' printed'}, Outcome.next ⟨next, stack', locals, printed'⟩ = .next t →
      Leads b i next ⟨pc, stack, locals, printed⟩ t ∧ Writes ⟨pc, stack, locals, printed⟩ t := by
    intro _ _ he
    cases he
    exact ⟨.inl rfl, .inl rfl⟩
  cases i with
  | plain op =>
    cases op with
    | ret => cases h
    | _ =>
      obtain ⟨_, _, hr⟩ := bind_eq_ok h
      exact onward (Except.ok.inj hr)
  | jump branch offset =>
    obtain ⟨r, _, hr⟩ := bind_eq_ok h
    dsimp only at hr
    split at hr
    · obtain ⟨goal, hgoal, hr⟩ := bind_eq_ok hr
      cases hr
      exact ⟨.inr ⟨branch, offset, rfl, hgoal⟩, .inl rfl⟩
    · exact onward (Except.ok.inj hr)
  | access op slot =>
    cases op with
    | load kind =>
      simp only [perform, load] at h
      split at h
      · cases h
      · cases h
      · split at h
        · exact onward (Except.ok.inj h)
        · cases h
    | store kind =>
      simp only [perform, store] at h
      split at h
      · cases h
      · split at h
        · cases h
        · split at h
          · rename_i hlt
            cases h
            exact ⟨.inl rfl, .inr ⟨slot, _, hlt, rfl⟩⟩
          · cases h
  | pushString index =>
    simp only [perform] at h
    split at h
    · exact onward (Except.ok.inj h)
    · cases h
  | _ => exact onward (Except.ok.inj h)

/-- A step that does not fail has performed an instruction. -/
theorem performs_of_step {outcome : Outcome} (h : step b s = .ok outcome) :
    ∃ i, perform b i (s.pc + i.size) s = .ok outcome := by
  unfold step at h
  split at h
  · split at h
    · cases h
    · exact ⟨_, h⟩
  · cases h

/-- A step that fails has found no instruction, or one that fails. -/
theorem fails_of_step {error : RunError} (h : step b s = .error error) :
    error = .missingReturn ∨ (∃ cause, error = .decode cause) ∨
      ∃ i, perform b i (s.pc + i.size) s = .error error := by
  unfold step at h
  split at h
  · split at h
    · cases h
      exact .inr (.inl ⟨_, rfl⟩)
    · exact .inr (.inr ⟨_, h⟩)
  · cases h
    exact .inl rfl

end Machine

end BlockLang
