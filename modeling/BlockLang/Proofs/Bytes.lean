import Mathlib.Data.List.Induction
import BlockLang.Bytecode

namespace BlockLang

theorem bind_eq_ok {ε α β : Type} {x : Except ε α} {f : α → Except ε β} {r : β}
    (h : (x >>= f) = .ok r) : ∃ a, x = .ok a ∧ f a = .ok r := by
  cases x with
  | error e => cases h
  | ok a => exact ⟨a, rfl, h⟩

theorem bind_eq_error {ε α β : Type} {x : Except ε α} {f : α → Except ε β} {e : ε}
    (h : (x >>= f) = .error e) : x = .error e ∨ ∃ a, x = .ok a ∧ f a = .error e := by
  cases x with
  | error e' => exact .inl (congrArg Except.error (Except.error.inj h))
  | ok a => exact .inr ⟨a, rfl, h⟩

/-- `xs` stands at `offset` among the bytes. -/
def Stands (bytes : Bytes) (offset : Nat) (xs : List UInt8) : Prop :=
  ∃ before after, bytes.toList = before ++ xs ++ after ∧ before.length = offset

theorem Stands.append {bytes : Bytes} {offset : Nat} {xs ys : List UInt8}
    (h : Stands bytes offset (xs ++ ys)) :
    Stands bytes offset xs ∧ Stands bytes (offset + xs.length) ys := by
  obtain ⟨before, after, he, hl⟩ := h
  refine ⟨⟨before, ys ++ after, by simp [he], hl⟩, ⟨before ++ xs, after, by simp [he], ?_⟩⟩
  simp [hl]

theorem Stands.tail {bytes : Bytes} {offset : Nat} {x : UInt8} {xs : List UInt8}
    (h : Stands bytes offset (x :: xs)) : Stands bytes (offset + 1) xs := by
  have hs : Stands bytes offset ([x] ++ xs) := h
  exact hs.append.2

theorem Stands.head {bytes : Bytes} {offset : Nat} {x : UInt8} {xs : List UInt8}
    (h : Stands bytes offset (x :: xs)) : bytes[offset]? = some x := by
  obtain ⟨before, after, he, hl⟩ := h
  rw [← Array.getElem?_toList, he]
  simp [← hl]

theorem Stands.length_le {bytes : Bytes} {offset : Nat} {xs : List UInt8}
    (h : Stands bytes offset xs) : offset + xs.length ≤ bytes.size := by
  obtain ⟨before, after, he, hl⟩ := h
  have := congrArg List.length he
  simp only [Array.length_toList, List.length_append] at this
  omega

theorem Stands.take {bytes : Bytes} {offset count : Nat} {xs : List UInt8}
    (h : Stands bytes offset xs) (hc : xs.length = count) :
    take bytes offset count = .ok xs.toArray := by
  have hle := h.length_le
  obtain ⟨before, after, he, hl⟩ := h
  subst hc hl
  rw [BlockLang.take, if_pos hle]
  refine congrArg _ (Array.ext' ?_)
  simp [he]

/-- What stands next to each other stands there as one. -/
theorem Stands.concat {bytes : Bytes} {offset : Nat} {xs ys : List UInt8}
    (h : Stands bytes offset xs) (h' : Stands bytes (offset + xs.length) ys) :
    Stands bytes offset (xs ++ ys) := by
  obtain ⟨before, after, he, hl⟩ := h
  obtain ⟨before', after', he', hl'⟩ := h'
  have hboth : (before ++ xs) ++ after = before' ++ (ys ++ after') := by
    rw [← he, he', List.append_assoc]
  have hlength : (before ++ xs).length = before'.length := by
    rw [List.length_append, hl, hl']
  obtain ⟨_, hafter⟩ := List.append_inj hboth hlength
  exact ⟨before, after', by rw [he, hafter]; simp, hl⟩

/-- What stands at the start and is as long as the bytes is all of them. -/
theorem Stands.eq_of_length {bytes : Bytes} {xs : List UInt8} (h : Stands bytes 0 xs)
    (hl : bytes.size ≤ xs.length) : bytes.toList = xs := by
  obtain ⟨before, after, he, hbefore⟩ := h
  have hlen := congrArg List.length he
  rw [List.eq_nil_of_length_eq_zero hbefore] at he hlen
  simp only [Array.length_toList, List.nil_append, List.length_append] at hlen
  have hafter : after = [] := List.eq_nil_of_length_eq_zero (by omega)
  rw [he, hafter]
  simp

theorem stands_between {bytes : Bytes} {offset count : Nat} (h : offset + count ≤ bytes.size) :
    Stands bytes offset ((bytes.toList.drop offset).take count) := by
  refine ⟨bytes.toList.take offset, bytes.toList.drop (offset + count), ?_, ?_⟩
  · rw [← List.drop_drop, List.append_assoc, List.take_append_drop, List.take_append_drop]
  · rw [List.length_take, Array.length_toList]
    omega

theorem stands_nil {bytes : Bytes} {offset : Nat} (h : offset ≤ bytes.size) :
    Stands bytes offset [] :=
  stands_between (show offset + 0 ≤ bytes.size from h)

theorem Stands.cons {bytes : Bytes} {offset : Nat} {x : UInt8} {xs : List UInt8}
    (h : bytes[offset]? = some x) (hs : Stands bytes (offset + 1) xs) :
    Stands bytes offset (x :: xs) := by
  obtain ⟨hlt, rfl⟩ := Array.getElem?_eq_some_iff.mp h
  have hhead := stands_between (show offset + 1 ≤ bytes.size from hlt)
  rw [List.drop_eq_getElem_cons hlt, List.take_succ_cons, List.take_zero] at hhead
  exact hhead.concat hs

theorem take_ok {bytes taken : Bytes} {offset count : Nat}
    (h : take bytes offset count = .ok taken) :
    offset + count ≤ bytes.size ∧ taken.size = count := by
  unfold take at h
  split at h
  · cases h
    refine ⟨by assumption, ?_⟩
    rw [Array.size_extract]
    omega
  · cases h

/-- What is taken stood there. -/
theorem stands_take {bytes taken : Bytes} {offset count : Nat}
    (h : take bytes offset count = .ok taken) : Stands bytes offset taken.toList := by
  unfold take at h
  split at h
  · rename_i hle
    cases h
    rw [Array.toList_extract, List.extract_eq_take_drop, Nat.add_sub_cancel_left]
    exact stands_between hle
  · cases h

/-- How many numbers some bytes can tell apart. -/
def byteValues : (width : Nat) → Nat
  | 0 => 1
  | width + 1 => 256 * byteValues width

/-- What follows a last byte counts 256 times as much as it. -/
theorem ofBigEndian_concat (xs : List UInt8) (b : UInt8) :
    ofBigEndian (xs ++ [b]) = 256 * ofBigEndian xs + b.toNat := by
  simp [ofBigEndian]

theorem ofBigEndian_bigEndian (width n : Nat) :
    ofBigEndian (bigEndian width n) = n % byteValues width := by
  induction width generalizing n with
  | zero => simp [bigEndian, ofBigEndian, byteValues, Nat.mod_one]
  | succ width ih =>
    have hb : (UInt8.ofNat n).toNat = n % 256 := by simp
    rw [bigEndian, ofBigEndian_concat, ih, hb, byteValues, Nat.mod_mul]
    omega

/-- Bytes are those of the number that they spell. -/
theorem bigEndian_ofBigEndian (xs : List UInt8) : bigEndian xs.length (ofBigEndian xs) = xs := by
  induction xs using List.reverseRecOn with
  | nil => rfl
  | append_singleton xs b ih =>
    have hb := b.toNat_lt
    have hhigh : (256 * ofBigEndian xs + b.toNat) / 256 = ofBigEndian xs := by omega
    have hlow : UInt8.ofNat (256 * ofBigEndian xs + b.toNat) = b := by
      apply UInt8.toNat_inj.mp
      simp
    rw [ofBigEndian_concat, List.length_append, List.length_singleton, bigEndian, hhigh, hlow, ih]

/-- Bytes spell no number that takes more of them. -/
theorem ofBigEndian_lt (xs : List UInt8) : ofBigEndian xs < byteValues xs.length := by
  have grow : ∀ n, xs.foldl (fun n b => 256 * n + b.toNat) n < (n + 1) * byteValues xs.length := by
    induction xs with
    | nil => simp [byteValues]
    | cons x xs ih =>
      intro n
      have hx := x.toNat_lt
      have hle : (256 * n + x.toNat + 1) * byteValues xs.length ≤
          (n + 1) * 256 * byteValues xs.length := Nat.mul_le_mul_right _ (by omega)
      rw [List.length_cons, byteValues, ← Nat.mul_assoc, List.foldl_cons]
      exact Nat.lt_of_lt_of_le (ih _) hle
  simpa [ofBigEndian] using grow 0

theorem takeNumber_ok {bytes : Bytes} {offset width n : Nat}
    (h : takeNumber bytes offset width = .ok n) :
    offset + width ≤ bytes.size ∧ n < byteValues width := by
  unfold takeNumber at h
  cases ht : take bytes offset width with
  | error e =>
    rw [ht] at h
    cases h
  | ok taken =>
    rw [ht] at h
    cases h
    obtain ⟨hle, hsize⟩ := take_ok ht
    have hlt := ofBigEndian_lt taken.toList
    rw [Array.length_toList, hsize] at hlt
    exact ⟨hle, hlt⟩

/-- The number that is taken stood there. -/
theorem stands_takeNumber {bytes : Bytes} {offset width n : Nat}
    (h : takeNumber bytes offset width = .ok n) : Stands bytes offset (bigEndian width n) := by
  unfold takeNumber at h
  cases ht : take bytes offset width with
  | error e =>
    rw [ht] at h
    cases h
  | ok taken =>
    rw [ht] at h
    cases h
    have hspelt := bigEndian_ofBigEndian taken.toList
    rw [Array.length_toList, (take_ok ht).2] at hspelt
    rw [hspelt]
    exact stands_take ht

theorem Stands.takeNumber {bytes : Bytes} {offset width n : Nat}
    (h : Stands bytes offset (bigEndian width n)) (hn : n < byteValues width) :
    takeNumber bytes offset width = .ok n := by
  rw [BlockLang.takeNumber, h.take (length_bigEndian width n)]
  simp [Except.map, ofBigEndian_bigEndian, Nat.mod_eq_of_lt hn]

namespace Instruction

theorem opcode_branch (b : Branch) : Opcode.ofByte? b.byte = none := by
  rcases b with r | r | _
  · cases r <;> rfl
  · cases r <;> rfl
  · rfl

theorem opcode_local (op : LocalOp) : Opcode.ofByte? op.byte = none := by
  rcases op with k | k <;> cases k <;> rfl

theorem branch_local (op : LocalOp) : Branch.ofByte? op.byte = none := by
  rcases op with k | k <;> cases k <;> rfl

/-- The bytes that push constants begin no other instruction. -/
theorem constant_only {byte : UInt8} (h : byte = intByte ∨ byte = doubleByte ∨ byte = stringByte) :
    Opcode.ofByte? byte = none ∧ Branch.ofByte? byte = none ∧ LocalOp.ofByte? byte = none := by
  rcases h with rfl | rfl | rfl <;> exact ⟨rfl, rfl, rfl⟩

/-- No bytes around an instruction, before or behind, change how it is read. -/
theorem decode_encode {code : Bytes} {address : Nat} {i : Instruction Int16}
    (h : Stands code address i.encode) : decode code address = .ok i := by
  cases i with
  | plain op => simp [decode, decodeOperand, h.head, Opcode.ofByte?_byte]
  | jump branch offset =>
    have hn := h.tail.takeNumber (UInt16.toNat_lt _)
    simp [decode, decodeOperand, h.head, opcode_branch, Branch.ofByte?_byte, hn, Except.map]
  | access op slot =>
    have hn := h.tail.takeNumber (UInt16.toNat_lt _)
    simp [decode, decodeOperand, h.head, opcode_local, branch_local, LocalOp.ofByte?_byte, hn,
      Except.map]
  | pushInt value =>
    have hn := h.tail.takeNumber (UInt32.toNat_lt _)
    obtain ⟨ho, hb, hl⟩ := constant_only (.inl rfl)
    simp [decode, decodeOperand, h.head, ho, hb, hl, hn, Except.map]
  | pushDouble value =>
    have hn := h.tail.takeNumber (UInt64.toNat_lt _)
    obtain ⟨ho, hb, hl⟩ := constant_only (.inr (.inl rfl))
    have hi : doubleByte ≠ intByte := by decide
    simp [decode, decodeOperand, h.head, ho, hb, hl, hi, hn, Except.map]
  | pushString index =>
    have hn := h.tail.takeNumber (UInt16.toNat_lt _)
    obtain ⟨ho, hb, hl⟩ := constant_only (.inr (.inr rfl))
    have hi : stringByte ≠ intByte := by decide
    have hd : stringByte ≠ doubleByte := by decide
    simp [decode, decodeOperand, h.head, ho, hb, hl, hi, hd, hn, Except.map]

theorem opcode_byte {byte : UInt8} {op : Opcode} (h : Opcode.ofByte? byte = some op) :
    op.byte = byte := by
  unfold Opcode.ofByte? at h
  split at h <;> cases h <;> rfl

theorem branch_byte {byte : UInt8} {b : Branch} (h : Branch.ofByte? byte = some b) :
    b.byte = byte := by
  unfold Branch.ofByte? at h
  split at h <;> cases h <;> rfl

theorem local_byte {byte : UInt8} {op : LocalOp} (h : LocalOp.ofByte? byte = some op) :
    op.byte = byte := by
  unfold LocalOp.ofByte? at h
  split at h <;> cases h <;> rfl

/-- An operand of `width` bytes and the byte before it. -/
theorem stands_operand {α : Type} {code : Bytes} {address width : Nat} {byte : UInt8} {f : Nat → α}
    {a : α} (hbyte : code[address]? = some byte)
    (h : (takeNumber code (address + 1) width).map f = .ok a) :
    ∃ n, n < byteValues width ∧ f n = a ∧ Stands code address (byte :: bigEndian width n) := by
  cases hn : takeNumber code (address + 1) width with
  | error e =>
    rw [hn] at h
    cases h
  | ok n =>
    rw [hn] at h
    exact ⟨n, (takeNumber_ok hn).2, Except.ok.inj h, .cons hbyte (stands_takeNumber hn)⟩

theorem stands_decodeOperand {code : Bytes} {address : Nat} {byte : UInt8} {i : Instruction Int16}
    (hbyte : code[address]? = some byte) (h : decodeOperand code address byte = .ok i) :
    Stands code address i.encode := by
  unfold decodeOperand at h
  split at h
  · rename_i op hop
    cases h
    rw [encode, opcode_byte hop]
    exact .cons hbyte (stands_nil (Array.getElem?_eq_some_iff.mp hbyte).1)
  split at h
  · rename_i branch hbranch
    obtain ⟨n, hlt, rfl, hs⟩ := stands_operand hbyte h
    rwa [encode, branch_byte hbranch, UInt16.toUInt16_toInt16, UInt16.toNat_ofNat_of_lt' hlt]
  split at h
  · rename_i op hop
    obtain ⟨n, hlt, rfl, hs⟩ := stands_operand hbyte h
    rwa [encode, local_byte hop, UInt16.toNat_ofNat_of_lt' hlt]
  split at h
  · rename_i hint
    obtain ⟨n, hlt, rfl, hs⟩ := stands_operand hbyte h
    rwa [encode, ← hint, UInt32.toUInt32_toInt32, UInt32.toNat_ofNat_of_lt' hlt]
  split at h
  · rename_i hdouble
    obtain ⟨n, hlt, rfl, hs⟩ := stands_operand hbyte h
    rwa [encode, ← hdouble, UInt64.toNat_ofNat_of_lt' hlt]
  split at h
  · rename_i hstring
    obtain ⟨n, hlt, rfl, hs⟩ := stands_operand hbyte h
    rwa [encode, ← hstring, UInt16.toNat_ofNat_of_lt' hlt]
  · cases h

/-- An instruction that is read is there. -/
theorem stands_decode {code : Bytes} {address : Nat} {i : Instruction Int16}
    (h : decode code address = .ok i) : Stands code address i.encode := by
  unfold decode at h
  split at h
  · rename_i hbyte
    exact stands_decodeOperand hbyte h
  · cases h

end Instruction

end BlockLang
