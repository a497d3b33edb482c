import BlockLang.Proofs.Format

namespace BlockLang

theorem Stands.of_front {bytes whole : Bytes} {offset : Nat} {xs : List UInt8}
    (h : Stands bytes offset xs) (front : bytes.toList <+: whole.toList) : Stands whole offset xs := by
  obtain ⟨before, after, he, hl⟩ := h
  obtain ⟨more, hmore⟩ := front
  exact ⟨before, after ++ more, by rw [← hmore, he, List.append_assoc], hl⟩

/-- What is taken from a front is there in the whole. -/
theorem take_of_front {bytes whole taken : Bytes} {offset count : Nat}
    (front : bytes.toList <+: whole.toList) (h : take bytes offset count = .ok taken) :
    take whole offset count = .ok taken := by
  have hs := (stands_take h).of_front front
  rw [hs.take (by rw [Array.length_toList, (take_ok h).2]), Array.toArray_toList]

theorem takeNumber_of_front {bytes whole : Bytes} {offset width n : Nat}
    (front : bytes.toList <+: whole.toList) (h : takeNumber bytes offset width = .ok n) :
    takeNumber whole offset width = .ok n :=
  ((stands_takeNumber h).of_front front).takeNumber (takeNumber_ok h).2

theorem takeStrings_of_front {bytes whole : Bytes} {found strings : Array String}
    {offset offset' count : Nat} (front : bytes.toList <+: whole.toList)
    (h : Bytecode.takeStrings bytes found offset count = .ok (strings, offset'))
    (ho : offset ≤ bytes.size) :
    Bytecode.takeStrings whole found offset count = .ok (strings, offset') := by
  obtain ⟨texts, rfl, rfl, lengths, stands, rfl⟩ := Bytecode.takeStrings_ok h ho
  exact Bytecode.takeStrings_encodeString (stands.of_front front) lengths found

/-- A read of the bytes comes to `v`, or it needs more than there are from somewhere on. -/
def ComesTo {α : Type} (bytes : Bytes) (read : Except DecodeError α) (v : α) : Prop :=
  read = .ok v ∨ ∃ p, p ≤ bytes.size ∧ read = .error (.unexpectedEnd p)

namespace ComesTo

variable {α β : Type} {bytes whole : Bytes} {offset : Nat}

theorem bind {x : Except DecodeError α} {f : α → Except DecodeError β} {v : α} {w : β}
    (hx : ComesTo bytes x v) (hf : x = .ok v → ComesTo bytes (f v) w) :
    ComesTo bytes (x >>= f) w := by
  rcases hx with rfl | ⟨p, hp, rfl⟩
  · exact hf rfl
  · exact .inr ⟨p, hp, rfl⟩

theorem map {x : Except DecodeError α} {v : α} (hx : ComesTo bytes x v) (f : α → β) :
    ComesTo bytes (x.map f) (f v) := by
  rcases hx with rfl | ⟨p, hp, rfl⟩
  · exact .inl rfl
  · exact .inr ⟨p, hp, rfl⟩

theorem take {count : Nat} {taken : Bytes} (front : bytes.toList <+: whole.toList)
    (h : take whole offset count = .ok taken) (ho : offset ≤ bytes.size) :
    ComesTo bytes (take bytes offset count) taken := by
  by_cases hle : offset + count ≤ bytes.size
  · have hfront : BlockLang.take bytes offset count = .ok _ := if_pos hle
    have hsame := (take_of_front front hfront).symm.trans h
    exact .inl (hfront.trans hsame)
  · exact .inr ⟨offset, ho, if_neg hle⟩

theorem takeNumber {width n : Nat} (front : bytes.toList <+: whole.toList)
    (h : takeNumber whole offset width = .ok n) (ho : offset ≤ bytes.size) :
    ComesTo bytes (takeNumber bytes offset width) n := by
  unfold BlockLang.takeNumber at h ⊢
  cases ht : BlockLang.take whole offset width with
  | error e =>
    rw [ht] at h
    cases h
  | ok taken =>
    rw [ht] at h
    cases h
    exact (ComesTo.take front ht ho).map _

theorem takeStrings {found strings : Array String} {offset' count : Nat}
    (front : bytes.toList <+: whole.toList)
    (h : Bytecode.takeStrings whole found offset count = .ok (strings, offset'))
    (ho : offset ≤ bytes.size) :
    ComesTo bytes (Bytecode.takeStrings bytes found offset count) (strings, offset') := by
  induction count generalizing found offset with
  | zero => exact .inl h
  | succ count ih =>
    obtain ⟨length, hlength, h⟩ := bind_eq_ok h
    obtain ⟨raw, hraw, h⟩ := bind_eq_ok h
    refine (ComesTo.takeNumber front hlength ho).bind fun hlength' => ?_
    refine (ComesTo.take front hraw (takeNumber_ok hlength').1).bind fun hraw' => ?_
    split at h
    · exact ih h (take_ok hraw').1
    · cases h

end ComesTo

namespace Bytecode

variable {b : Bytecode}

/-- A front of bytes that are read is read as they are, or it ends too early. -/
theorem decode_front {bytes whole : Bytes} (front : bytes.toList <+: whole.toList)
    (h : decode whole = .ok b) : ComesTo bytes (decode bytes) b := by
  obtain ⟨count, offset, size, reads⟩ := reads_of_decode h
  have hsize : bytes.size ≤ whole.size := front.length_le
  have hends : ¬ offset + 4 + size < bytes.size := Nat.not_lt.mpr (Nat.le_trans hsize reads.ends)
  have hsame : (⟨UInt16.ofNat b.maxLocals.toNat, b.strings, b.code⟩ : Bytecode) = b := by
    rw [UInt16.ofNat_toNat]
  unfold decode
  refine (ComesTo.take front reads.front (Nat.zero_le _)).bind fun hfront => ?_
  simp only [ne_eq, not_true_eq_false, if_false]
  refine (ComesTo.takeNumber front reads.revision (take_ok hfront).1).bind fun hrevision => ?_
  simp only [not_true_eq_false, if_false]
  refine (ComesTo.takeNumber front reads.maxLocals (takeNumber_ok hrevision).1).bind fun hlocals => ?_
  refine (ComesTo.takeNumber front reads.number (takeNumber_ok hlocals).1).bind fun hnumber => ?_
  have hten := (takeNumber_ok hnumber).1
  refine (ComesTo.takeStrings front reads.strings hten).bind fun hstrings => ?_
  obtain ⟨_, _, _, _, stands, rfl⟩ := takeStrings_ok hstrings hten
  refine (ComesTo.takeNumber front reads.length stands.length_le).bind fun hlength => ?_
  refine (ComesTo.take front reads.code (takeNumber_ok hlength).1).bind fun hcode => ?_
  simp only [if_neg hends, hsame, reads.faultless]
  exact .inl rfl

/-- Behind bytes that are read, more of them are counted, whatever they are. -/
theorem decode_of_front {bytes whole : Bytes} (front : bytes.toList <+: whole.toList)
    (h : decode bytes = .ok b) (longer : bytes.size < whole.size) :
    decode whole = .error (.trailingBytes (whole.size - bytes.size)) := by
  obtain ⟨count, offset, size, reads⟩ := reads_of_decode h
  have hend : offset + 4 + size = bytes.size := Nat.le_antisymm (take_ok reads.code).1 reads.ends
  have hlonger : offset + 4 + size < whole.size := hend ▸ longer
  simp only [decode, take_of_front front reads.front, takeNumber_of_front front reads.revision,
    takeNumber_of_front front reads.maxLocals, takeNumber_of_front front reads.number,
    takeStrings_of_front front reads.strings (takeNumber_ok reads.number).1,
    takeNumber_of_front front reads.length, take_of_front front reads.code, Bind.bind, Except.bind,
    ne_eq, not_true_eq_false, if_false, if_pos hlonger]
  rw [← hend]
  rfl

/-- What is left of an encoding that was cut off ends too early, behind an offset that it still has; and
bytes that were added to one are counted. -/
theorem decode_damaged (h : decode b.encode = .ok b) :
    (∀ n < b.encode.size, ∃ p ≤ n, decode (b.encode.take n) = .error (.unexpectedEnd p)) ∧
    ∀ extra : Bytes, 0 < extra.size →
      decode (b.encode ++ extra) = .error (.trailingBytes extra.size) := by
  constructor
  · intro n hn
    have hsize : (b.encode.take n).size = n := by
      simp only [Array.take_eq_extract, Array.size_extract]
      omega
    have hfront : (b.encode.take n).toList <+: b.encode.toList := by
      simpa using List.take_prefix n b.encode.toList
    rcases decode_front hfront h with hok | ⟨p, hp, herror⟩
    · have hwhole := congrArg Array.size (decode_iff_encode.mp hok).1
      omega
    · exact ⟨p, hsize ▸ hp, herror⟩
  · intro extra hextra
    have hfront : b.encode.toList <+: (b.encode ++ extra).toList := ⟨extra.toList, by simp⟩
    have hmore := decode_of_front hfront h (by simpa using hextra)
    simpa using hmore

/-- The cut goes through a character. -/
theorem decode_damaged_text :
    let b : Bytecode := ⟨0, #["é"], #[18, 0, 0, 204, 177]⟩
    decode b.encode = .ok b ∧
      (∃ p ≤ 13, decode (b.encode.take 13) = .error (.unexpectedEnd p)) ∧
      decode (b.encode ++ #[0, 0]) = .error (.trailingBytes 2) := by
  intro b
  have hread : decode b.encode = .ok b := by decide +kernel
  have hsize : 13 < b.encode.size := by decide +kernel
  obtain ⟨hcut, hmore⟩ := decode_damaged hread
  exact ⟨hread, hcut 13 hsize, hmore #[0, 0] (by decide)⟩

end Bytecode

end BlockLang
