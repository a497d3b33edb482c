import Mathlib.Algebra.Ring.Nat
import BlockLang.Proofs.Format

namespace BlockLang

/-- The instructions that a code is made of, from address zero on. -/
structure Splits (code : Bytes) (found : List (Nat × Instruction Int16)) : Prop where
  consecutive : Consecutive 0 found
  bytes : encodeAll found = code.toList

namespace Splits

variable {code : Bytes} {found : List (Nat × Instruction Int16)}

theorem length_eq (h : Splits code found) : (encodeAll found).length = code.size := by
  rw [h.bytes, Array.length_toList]

/-- A sweep finds the instructions that a code is made of. -/
theorem sweep_eq (h : Splits code found) : Sweep.ofCode code = ⟨found.toArray, none⟩ := by
  have hs : Stands code 0 (encodeAll found) := ⟨[], [], by simp [h.bytes], rfl⟩
  have hend : 0 + (encodeAll found).length = code.size := by rw [Nat.zero_add, h.length_eq]
  rw [Sweep.ofCode, sweep_run h.consecutive hs hend]
  simp

end Splits

/-- A sweep that comes to the end has split the code. -/
theorem splits_of_sweep {code : Bytes} (h : (Sweep.ofCode code).stop = none) :
    Splits code (Sweep.ofCode code).found.toList := by
  obtain ⟨found, hfound, hc, hs, hend⟩ := run_split (Nat.zero_le code.size) h
  have hlist : (Sweep.ofCode code).found.toList = found := by
    rw [Sweep.ofCode, hfound]
    simp
  rw [hlist]
  exact ⟨hc, (hs.eq_of_length (by omega)).symm⟩

namespace Bytecode

/-- The instructions name strings that exist, and each jump lands where one of them starts. -/
structure Refers (b : Bytecode) (found : List (Nat × Instruction Int16)) : Prop where
  strings : ∀ x index, (x, .pushString index) ∈ found → index.toNat < b.strings.size
  jumps : ∀ x branch offset, (x, .jump branch offset) ∈ found →
    ∃ y : Nat, y ∈ found.map (·.1) ∧ (x : Int) + offset.toInt = y

/-- A module in the sense of the format. -/
structure Valid (b : Bytecode) : Prop where
  count : b.strings.size ≤ 65535
  lengths : ∀ text ∈ b.strings, text.utf8ByteSize ≤ 65535
  size : b.code.size ≤ 2 ^ 32 - 1
  code : ∃ found, Splits b.code found ∧ b.Refers found

variable {b : Bytecode}

/-- Nothing is wrong with code exactly if it is split into instructions whose operands are right. -/
theorem fault?_eq_none_iff :
    b.fault? = none ↔ ∃ found, Splits b.code found ∧ b.Refers found := by
  simp only [fault?, Option.or_eq_none_iff, missingString?_eq_none_iff, strayJump?_eq_none_iff]
  constructor
  · rintro ⟨hstrings, hstop, hjumps⟩
    exact ⟨_, splits_of_sweep hstop, hstrings, hjumps⟩
  · rintro ⟨found, hsplits, hrefers⟩
    rw [Sweep.addresses, hsplits.sweep_eq]
    exact ⟨hrefers.strings, rfl, hrefers.jumps⟩

theorem encodable_iff_valid : b.Encodable ↔ b.Valid := by
  constructor
  · intro h
    exact ⟨Nat.le_of_lt_succ h.count, fun text ht => Nat.le_of_lt_succ (h.lengths text ht),
      Nat.le_of_lt_succ h.size, fault?_eq_none_iff.mp h.faultless⟩
  · intro h
    exact ⟨Nat.lt_succ_of_le h.count, fun text ht => Nat.lt_succ_of_le (h.lengths text ht),
      Nat.lt_succ_of_le h.size, fault?_eq_none_iff.mpr h.code⟩

/-- What is read are the encodings of valid modules, and each is read as what it encodes. -/
theorem decode_eq_ok_iff (bytes : Bytes) (b : Bytecode) :
    decode bytes = .ok b ↔ bytes = b.encode ∧ b.Valid := by
  rw [decode_iff_encode, encodable_iff_valid]

end Bytecode

end BlockLang
