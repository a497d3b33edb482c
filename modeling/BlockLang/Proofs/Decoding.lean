import BlockLang.Proofs.Bytes

namespace BlockLang

theorem takeNumber_cases (bytes : Bytes) (offset width : Nat) :
    (∃ n, takeNumber bytes offset width = .ok n) ∨
      (bytes.size < offset + width ∧
        takeNumber bytes offset width = .error (.unexpectedEnd offset)) := by
  unfold takeNumber take
  split
  · exact .inl ⟨_, rfl⟩
  · rename_i hout
    exact .inr ⟨Nat.lt_of_not_le hout, rfl⟩

theorem Stands.extract {bytes : Bytes} {offset : Nat} {xs : List UInt8} (h : Stands bytes offset xs) :
    (bytes.extract offset (offset + xs.length)).toList = xs := by
  have htake := h.take rfl
  rw [BlockLang.take, if_pos h.length_le] at htake
  rw [Except.ok.inj htake]

theorem stands_extract {bytes : Bytes} {offset count : Nat} (h : offset + count ≤ bytes.size) :
    Stands bytes offset (bytes.extract offset (offset + count)).toList :=
  stands_take (if_pos h)

namespace Instruction

variable {code code' : Bytes} {address : Nat} {byte : UInt8} {i j : Instruction Int16}
  {r : Except DecodeError (Instruction Int16)}

/-- The size of the instructions that a byte begins. -/
def sizeFrom? (byte : UInt8) : Option Nat :=
  if (Opcode.ofByte? byte).isSome then some 1
  else if (Branch.ofByte? byte).isSome || (LocalOp.ofByte? byte).isSome || byte = stringByte then some 3
  else if byte = intByte then some 5
  else if byte = doubleByte then some 9
  else none

theorem sizeFrom?_of_head (h : i.encode.head? = some byte) : sizeFrom? byte = some i.size := by
  cases i <;> cases h
  case plain op => simp [sizeFrom?, size, Opcode.ofByte?_byte]
  case jump branch offset => simp [sizeFrom?, size, opcode_branch, Branch.ofByte?_byte]
  case access op slot => simp [sizeFrom?, size, opcode_local, LocalOp.ofByte?_byte]
  all_goals rfl

/-- Instructions that begin alike have the same size. -/
theorem size_eq_of_head (hi : i.encode.head? = some byte) (hj : j.encode.head? = some byte) :
    i.size = j.size :=
  Option.some.inj ((sizeFrom?_of_head hi).symm.trans (sizeFrom?_of_head hj))

/-- What reading an instruction at an address comes to. -/
inductive Decodes (code : Bytes) (address : Nat) :
    Except DecodeError (Instruction Int16) → Prop where
  /-- All bytes of an instruction are there. -/
  | whole (i : Instruction Int16) (inside : address + i.size ≤ code.size)
      (bytes : (code.extract address (address + i.size)).toList = i.encode) :
      Decodes code address (.ok i)
  /-- The byte there begins no instruction. -/
  | unknown (byte : UInt8) (found : code[address]? = some byte)
      (stray : ∀ i : Instruction Int16, i.encode.head? ≠ some byte) :
      Decodes code address (.error (.unknownOpcode address byte))
  /-- The byte there begins instructions, and the code ends within all of them. -/
  | short (byte : UInt8) (found : code[address]? = some byte)
      (begun : ∃ i : Instruction Int16, i.encode.head? = some byte)
      (cut : ∀ i : Instruction Int16, i.encode.head? = some byte → code.size < address + i.size) :
      Decodes code address (.error (.unexpectedEnd (address + 1)))
  /-- The address is not in the code. -/
  | outside (beyond : code.size ≤ address) : Decodes code address (.error (.unexpectedEnd address))

theorem Decodes.of_ok (h : decode code address = .ok i) : Decodes code address (.ok i) := by
  have hs := stands_decode h
  refine .whole i ?_ ?_
  · rw [← length_encode]
    exact hs.length_le
  · rw [← length_encode]
    exact hs.extract

/-- The operand after a first byte is read whole, or every instruction that begins so is cut off. -/
theorem decodes_operand {width : Nat} {f : Nat → Instruction Int16} (hbyte : code[address]? = some byte)
    (hbegun : (f 0).encode.head? = some byte) (hsize : (f 0).size = 1 + width)
    (h : decode code address = (takeNumber code (address + 1) width).map f) :
    Decodes code address (decode code address) := by
  obtain ⟨n, hn⟩ | ⟨hout, hn⟩ := takeNumber_cases code (address + 1) width
  · have hread : decode code address = .ok (f n) := by rw [h, hn]; rfl
    rw [hread]
    exact .of_ok hread
  · have hread : decode code address = .error (.unexpectedEnd (address + 1)) := by rw [h, hn]; rfl
    rw [hread]
    refine .short byte hbyte ⟨f 0, hbegun⟩ fun i hi => ?_
    rw [size_eq_of_head hi hbegun, hsize]
    omega

/-- Reading comes to what stands there. The cases are those of the first byte, in the order in which the
tables of instructions are searched. -/
theorem decodes_decode (code : Bytes) (address : Nat) : Decodes code address (decode code address) := by
  cases hbyte : code[address]? with
  | none =>
    have hread : decode code address = .error (.unexpectedEnd address) := by rw [decode, hbyte]
    rw [hread]
    exact .outside (Array.getElem?_eq_none_iff.mp hbyte)
  | some byte =>
    have hread : decode code address = decodeOperand code address byte := by rw [decode, hbyte]
    unfold decodeOperand at hread
    split at hread
    · rw [hread]
      exact .of_ok hread
    rename_i hop
    split at hread
    · rename_i branch hbranch
      refine decodes_operand hbyte ?_ rfl hread
      rw [encode, branch_byte hbranch]
      rfl
    rename_i hbranch
    split at hread
    · rename_i op hlocal
      refine decodes_operand hbyte ?_ rfl hread
      rw [encode, local_byte hlocal]
      rfl
    rename_i hlocal
    split at hread
    · rename_i hint
      refine decodes_operand hbyte ?_ rfl hread
      exact congrArg some hint.symm
    rename_i hint
    split at hread
    · rename_i hdouble
      refine decodes_operand hbyte ?_ rfl hread
      exact congrArg some hdouble.symm
    rename_i hdouble
    split at hread
    · rename_i hstring
      refine decodes_operand hbyte ?_ rfl hread
      exact congrArg some hstring.symm
    rename_i hstring
    rw [hread]
    refine .unknown byte hbyte fun i hi => ?_
    have hsize := sizeFrom?_of_head hi
    simp [sizeFrom?, hop, hbranch, hlocal, hint, hdouble, hstring] at hsize

theorem Decodes.stands (h : Decodes code address (.ok i)) : Stands code address i.encode := by
  obtain ⟨_, inside, bytes⟩ := h
  have hs := stands_extract inside
  rwa [bytes] at hs

theorem Decodes.head (h : Decodes code address (.ok i)) : i.encode.head? = code[address]? := by
  have hs := h.stands
  cases he : i.encode with
  | nil =>
    have hpos := i.size_pos
    rw [← length_encode, he] at hpos
    exact absurd hpos (Nat.lt_irrefl 0)
  | cons byte rest =>
    rw [he] at hs
    exact hs.head.symm

/-- Only one thing stands at an address, so it is what reading comes to. -/
theorem Decodes.decode_eq (h : Decodes code address r) : decode code address = r := by
  have hread := decodes_decode code address
  cases h with
  | whole i inside bytes => exact decode_encode (Decodes.whole i inside bytes).stands
  | unknown byte found stray =>
    generalize decode code address = r at hread ⊢
    cases hread with
    | whole j inside bytes =>
      exact absurd ((Decodes.whole j inside bytes).head.trans found) (stray j)
    | unknown byte' found' _ => rw [Option.some.inj (found'.symm.trans found)]
    | short byte' found' begun _ =>
      obtain ⟨i, hi⟩ := begun
      exact absurd (hi.trans (found'.symm.trans found)) (stray i)
    | outside beyond => exact absurd (Array.getElem?_eq_some_iff.mp found).1 (Nat.not_lt.mpr beyond)
  | short byte found begun cut =>
    generalize decode code address = r at hread ⊢
    cases hread with
    | whole j inside bytes =>
      have hcut := cut j ((Decodes.whole j inside bytes).head.trans found)
      exact absurd inside (Nat.not_le.mpr hcut)
    | unknown byte' found' stray =>
      obtain ⟨i, hi⟩ := begun
      exact absurd (hi.trans (found.symm.trans found')) (stray i)
    | short => rfl
    | outside beyond => exact absurd (Array.getElem?_eq_some_iff.mp found).1 (Nat.not_lt.mpr beyond)
  | outside beyond => rw [decode, Array.getElem?_eq_none beyond]

/-- How many bytes from the address on decide an answer. -/
def looked (address : Nat) : Except DecodeError (Instruction Int16) → Nat
  | .ok i => i.size
  | .error (.unexpectedEnd offset) => offset - address
  | .error _ => 1

/-- What is looked at is in the code. -/
theorem Decodes.looked_inside (h : Decodes code address r) :
    address + looked address r ≤ max address code.size := by
  cases h with
  | whole i inside bytes => exact Nat.le_trans inside (Nat.le_max_right _ _)
  | unknown byte found _ =>
    have hlt := (Array.getElem?_eq_some_iff.mp found).1
    simp only [looked]
    omega
  | short byte found _ _ =>
    have hlt := (Array.getElem?_eq_some_iff.mp found).1
    simp only [looked]
    omega
  | outside beyond =>
    simp only [looked]
    omega

/-- What is not looked at can be anything. -/
theorem Decodes.of_same (h : Decodes code address r) (hsize : code'.size = code.size)
    (hsame : ∀ k < looked address r, code'[address + k]? = code[address + k]?) :
    Decodes code' address r := by
  cases h with
  | whole i inside bytes =>
    refine .whole i (by omega) ?_
    rw [← bytes]
    refine congrArg Array.toList (Array.ext_getElem? fun k => ?_)
    rw [Array.getElem?_extract, Array.getElem?_extract, hsize]
    split
    · exact hsame k (by simp only [looked]; omega)
    · rfl
  | unknown byte found stray =>
    exact .unknown byte ((hsame 0 Nat.one_pos).trans found) stray
  | short byte found begun cut =>
    refine .short byte ((hsame 0 ?_).trans found) begun ?_
    · simp only [looked]
      omega
    · rwa [hsize]
  | outside beyond => exact .outside (by omega)

/-- Every instruction is read back from its bytes in any surroundings. What is read at an address stands
there byte for byte, and if nothing is, the byte there is unknown or the code ends too early. No byte
outside of the code is looked at, nor one behind the instruction. -/
theorem decode_exact :
    (∀ (i : Instruction Int16) (before after : List UInt8), i.encode.length = i.size ∧
      decode (before ++ i.encode ++ after).toArray before.length = .ok i) ∧
    ∀ (code : Bytes) (address : Nat),
      (∀ r, decode code address = r ↔ Decodes code address r) ∧
      (∀ k < looked address (decode code address), address + k < code.size) ∧
      ∀ code' : Bytes, code'.size = code.size →
        (∀ k < looked address (decode code address), code'[address + k]? = code[address + k]?) →
        decode code' address = decode code address := by
  refine ⟨fun i before after => ⟨i.length_encode, decode_encode ⟨before, after, rfl, rfl⟩⟩,
    fun code address => ⟨fun r => ⟨?_, Decodes.decode_eq⟩, fun k hk => ?_,
      fun code' hsize hsame => ?_⟩⟩
  · rintro rfl
    exact decodes_decode code address
  · have hinside := (decodes_decode code address).looked_inside
    omega
  · exact ((decodes_decode code address).of_same hsize hsame).decode_eq

end Instruction

end BlockLang
