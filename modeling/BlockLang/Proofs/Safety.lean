import BlockLang.Bytecode.Disassembly
import BlockLang.Proofs.Performing
import BlockLang.Proofs.Validity
import BlockLang.Text.Blank

namespace BlockLang

/-- The errors that come from the code, whatever is on the stack and in the locals. -/
def RunError.OfCode : RunError → Prop
  | decode _ | missingString _ | invalidJumpTarget _ => True
  | _ => False

theorem RunError.OfStack.not_ofCode {error : RunError} (h : error.OfStack) : ¬ error.OfCode := by
  cases error <;> simp_all [OfStack, OfCode]

namespace Splits

variable {code : Bytes} {found : List (Nat × Instruction Int16)}

theorem addresses_eq (h : Splits code found) :
    (Sweep.ofCode code).addresses = found.map (·.1) := by
  rw [Sweep.addresses, h.sweep_eq]

/-- Behind each instruction another one starts, or the code ends. -/
theorem next (h : Splits code found) {x : Nat} {i : Instruction Int16} (hm : (x, i) ∈ found) :
    x + i.size ∈ (Sweep.ofCode code).addresses ∨ x + i.size = code.size := by
  have hnext := h.consecutive.next hm
  rwa [h.length_eq, Nat.zero_add, ← h.addresses_eq] at hnext

/-- Code that is not empty begins with an instruction. -/
theorem zero_mem (h : Splits code found) :
    0 ∈ (Sweep.ofCode code).addresses ∨ 0 = code.size := by
  have hlength := h.length_eq
  rw [h.addresses_eq]
  cases found with
  | nil => exact .inr hlength
  | cons p found =>
    obtain ⟨x, i⟩ := p
    obtain ⟨rfl, _⟩ := h.consecutive
    exact .inl (by simp)

end Splits

namespace Machine

variable {b : Bytecode} {s t : State} {found : List (Nat × Instruction Int16)}

/-- The machine is where an instruction starts, or at the end. -/
def State.InPlace (b : Bytecode) (s : State) : Prop :=
  s.pc ∈ (Sweep.ofCode b.code).addresses ∨ s.pc = b.code.size

/-- A step is at the end, or it performs one of the instructions that a sweep finds. -/
theorem State.InPlace.step_cases (h : s.InPlace b) :
    Machine.step b s = .error .missingReturn ∨
      ∃ i, (s.pc, i) ∈ (Sweep.ofCode b.code).found.toList ∧
        Machine.step b s = perform b i (s.pc + i.size) s := by
  rcases h with hmem | hend
  · obtain ⟨⟨_, i⟩, hm, rfl⟩ := List.mem_map.mp hmem
    exact .inr ⟨i, hm, step_of_mem hm⟩
  · refine .inl ?_
    rw [Machine.step, if_neg (by omega)]

/-- A jump of a module that was read goes where an instruction starts. -/
theorem target_of_refers (hs : Splits b.code found) (hr : b.Refers found) {x : Nat}
    {branch : Branch} {offset : Int16} (hm : (x, .jump branch offset) ∈ found) :
    ∃ y ∈ (Sweep.ofCode b.code).addresses, (x : Int) + offset.toInt = y ∧
      target b.code.size x offset = .ok y := by
  obtain ⟨y, hy, hgoal⟩ := hr.jumps x branch offset hm
  rw [← hs.addresses_eq] at hy
  refine ⟨y, hy, hgoal, ?_⟩
  obtain ⟨p, hp, rfl⟩ := List.mem_map.mp hy
  exact target_eq_ok_iff.mpr ⟨hgoal, (Sweep.decode_of_mem hp).1⟩

/-- Jumps that do not leave the code go where instructions start. -/
def Lands (b : Bytecode) : Prop :=
  ∀ x branch offset y, (x, .jump branch offset) ∈ (Sweep.ofCode b.code).found.toList →
    target b.code.size x offset = .ok y → y ∈ (Sweep.ofCode b.code).addresses

theorem lands_of_refers (hs : Splits b.code found) (hr : b.Refers found) : Lands b := by
  intro x branch offset y hm hgoal
  rw [hs.sweep_eq] at hm
  obtain ⟨z, hz, _, htarget⟩ := target_of_refers hs hr hm
  rw [htarget] at hgoal
  cases hgoal
  exact hz

/-- If jumps land, a step from where an instruction starts leads to where one starts, or to the end. -/
theorem State.InPlace.step_of_lands (hs : Splits b.code found) (hl : Lands b) (h : s.InPlace b)
    (hstep : Machine.step b s = .ok (.next t)) : t.InPlace b := by
  rcases h.step_cases with hend | ⟨i, hm, he⟩
  · rw [hend] at hstep
    cases hstep
  rw [he] at hstep
  rcases (leads_perform hstep).1 with hnext | ⟨branch, offset, rfl, hgoal⟩
  · rw [State.InPlace, hnext]
    rw [hs.sweep_eq] at hm
    exact hs.next hm
  · exact .inl (hl _ _ _ _ hm hgoal)

/-- A step from where an instruction starts leads to where one starts, or to the end. -/
theorem State.InPlace.step (hs : Splits b.code found) (hr : b.Refers found) (h : s.InPlace b)
    (hstep : Machine.step b s = .ok (.next t)) : t.InPlace b :=
  h.step_of_lands hs (lands_of_refers hs hr) hstep

/-- No step from where an instruction starts finds fault with the code. -/
theorem State.InPlace.step_error (hs : Splits b.code found) (hr : b.Refers found)
    (h : s.InPlace b) {error : RunError} (hstep : Machine.step b s = .error error) :
    ¬ error.OfCode := by
  rcases h.step_cases with hend | ⟨i, hm, he⟩
  · rw [hend] at hstep
    cases hstep
    exact id
  rw [he] at hstep
  rw [hs.sweep_eq] at hm
  cases mayFail_perform hstep with
  | stack cause => exact cause.not_ofCode
  | range | unset _ => exact id
  | stray jump lost =>
    subst jump
    obtain ⟨y, _, _, htarget⟩ := target_of_refers hs hr hm
    rw [htarget] at lost
    cases lost
  | missing push absent =>
    subst push
    have hlt := hr.strings _ _ hm
    rw [Array.getElem?_eq_none_iff] at absent
    omega

end Machine

namespace Bytecode

open Machine

variable {b : Bytecode}

/-- What a listing says before the code. -/
def heading (b : Bytecode) : String :=
  "max locals: " ++ toString b.maxLocals.toNat ++ "\nstrings:\n" ++
    String.join (b.strings.toList.zipIdx.map fun (text, index) =>
      "    #" ++ toString index ++ " = " ++ Quoted.string text ++ "\n") ++ "code:\n"

/-- A module that was read needs no further check. Its runs stay where instructions start, or end
behind the last one, and never find fault with the code. Its listing has a line for each instruction,
which shows the address of the instruction behind blanks, and a jump shows the address of one of them. -/
theorem decode_safe {bytes : Bytes} (h : decode bytes = .ok b) :
    (∀ n s, Steps b n (start b) s → s.InPlace b) ∧
    (∀ limit error, run b limit = .error error → ¬ error.OfCode) ∧
    b.disassemble = .ok (b.heading ++ String.join ((Sweep.ofCode b.code).found.toList.map fun (x, i) =>
      String.ofList (List.replicate (6 - (toString x).length) ' ') ++ toString x ++ ": " ++
        i.text (fun offset => toString ((x : Int) + offset.toInt)) ++ "\n")) ∧
    ∀ x branch offset, (x, .jump branch offset) ∈ (Sweep.ofCode b.code).found.toList →
      ∃ y ∈ (Sweep.ofCode b.code).addresses,
        (Instruction.jump branch offset).text (fun offset => toString ((x : Int) + offset.toInt)) =
          branch.mnemonic ++ " " ++ toString y := by
  obtain ⟨_, hvalid⟩ := (decode_eq_ok_iff bytes b).mp h
  obtain ⟨found, hs, hr⟩ := hvalid.code
  have hkeeps : ∀ n s, Steps b n (start b) s → s.InPlace b := fun n s hsteps =>
    hsteps.keeps (fun _ _ hu hstep => hu.step hs hr hstep) hs.zero_mem
  have hstop : (Sweep.ofCode b.code).stop = none := by rw [hs.sweep_eq]
  refine ⟨hkeeps, ?_, ?_, ?_⟩
  · intro limit error herror
    rcases run_error herror with rfl | ⟨n, t, hsteps, he⟩
    · exact id
    · exact (hkeeps n t hsteps).step_error hs hr he
  · simp only [disassemble, hstop, instructionLine, Report.padLeft, pushn_blank]
    rfl
  · intro x branch offset hm
    rw [hs.sweep_eq] at hm
    obtain ⟨y, hy, hgoal, _⟩ := target_of_refers hs hr hm
    refine ⟨y, hy, ?_⟩
    rw [Instruction.text, hgoal]
    rfl

/-- A module with a string and a jump back to its start. -/
theorem decode_safe_back :
    ∃ b, decode #[0x42, 0x52, 0x43, 0x43, 0, 1, 0, 0, 0, 1, 0, 1, 0x61, 0, 0, 0, 13,
        0x12, 0, 0, 0xcc, 0x13, 0, 0, 0, 0, 0x9a, 0xff, 0xf7, 0xb1] = .ok b ∧
      ∀ n s, Steps b n (start b) s → s.pc ∈ [0, 3, 4, 9, 12, 13] := by
  have h : decode #[0x42, 0x52, 0x43, 0x43, 0, 1, 0, 0, 0, 1, 0, 1, 0x61, 0, 0, 0, 13,
      0x12, 0, 0, 0xcc, 0x13, 0, 0, 0, 0, 0x9a, 0xff, 0xf7, 0xb1] =
      .ok ⟨0, #["a"], #[0x12, 0, 0, 0xcc, 0x13, 0, 0, 0, 0, 0x9a, 0xff, 0xf7, 0xb1]⟩ := by
    decide +kernel
  have ha : (Sweep.ofCode #[0x12, 0, 0, 0xcc, 0x13, 0, 0, 0, 0, 0x9a, 0xff, 0xf7, 0xb1]).addresses =
      [0, 3, 4, 9, 12] := by
    decide +kernel
  refine ⟨_, h, fun n s hs => ?_⟩
  rcases (decode_safe h).1 n s hs with hmem | hend
  · rw [ha] at hmem
    exact List.mem_append_left [13] hmem
  · rw [hend]
    decide

end Bytecode

end BlockLang
