import BlockLang.Bytecode.Format
import BlockLang.Proofs.Compilation
import BlockLang.Proofs.Starts

namespace BlockLang

namespace Bytecode

/-- What the lengths of the format can tell, and reading does not complain about. -/
structure Encodable (b : Bytecode) : Prop where
  count : b.strings.size < 65536
  lengths : ∀ text ∈ b.strings, text.utf8ByteSize < 65536
  size : b.code.size < 0x100000000
  faultless : b.fault? = none

theorem length_encodeString (text : String) :
    (encodeString text).length = 2 + text.utf8ByteSize := by
  simp [encodeString, length_bigEndian, utf8]

/-- The UTF-8 of a string is read as that string. -/
theorem fromUTF8?_utf8 (text : String) : String.fromUTF8? ⟨utf8 text⟩ = some text := by
  have hv : (ByteArray.mk (utf8 text)).IsValidUTF8 := text.isValidUTF8
  rw [String.fromUTF8?, dif_pos hv]
  rfl

/-- A string that was read has the bytes that it was read from. -/
theorem utf8_of_fromUTF8? {raw : Bytes} {text : String} (h : String.fromUTF8? ⟨raw⟩ = some text) :
    utf8 text = raw := by
  rw [String.fromUTF8?] at h
  split at h
  · cases h
    rfl
  · cases h

/-- Strings are read back from where their bytes stand. -/
theorem takeStrings_encodeString {bytes : Bytes} {texts : List String} {offset : Nat}
    (hs : Stands bytes offset (texts.flatMap encodeString))
    (hl : ∀ text ∈ texts, text.utf8ByteSize < 65536) (found : Array String) :
    takeStrings bytes found offset texts.length =
      .ok (found ++ texts.toArray, offset + (texts.flatMap encodeString).length) := by
  induction texts generalizing offset found with
  | nil => simp [takeStrings]
  | cons text texts ih =>
    obtain ⟨hlt, hl⟩ := List.forall_mem_cons.mp hl
    rw [List.flatMap_cons] at hs
    obtain ⟨hfirst, hrest⟩ := hs.append
    obtain ⟨hlength, hraw⟩ := hfirst.append
    rw [length_bigEndian] at hraw
    rw [length_encodeString, ← Nat.add_assoc] at hrest
    have hsize : (utf8 text).toList.length = text.utf8ByteSize := by simp [utf8]
    simp only [List.length_cons, takeStrings, hlength.takeNumber hlt, hraw.take hsize, Bind.bind,
      Except.bind, Array.toArray_toList, fromUTF8?_utf8]
    rw [ih hrest hl]
    simp [length_encodeString, Nat.add_assoc]

/-- Strings that are read are as many as were asked for, their bytes stand there, and none is longer
than two bytes tell. -/
theorem takeStrings_ok {bytes : Bytes} {found strings : Array String} {offset offset' count : Nat}
    (h : takeStrings bytes found offset count = .ok (strings, offset')) (ho : offset ≤ bytes.size) :
    ∃ texts : List String, strings = found ++ texts.toArray ∧ texts.length = count ∧
      (∀ text ∈ texts, text.utf8ByteSize < 65536) ∧
      Stands bytes offset (texts.flatMap encodeString) ∧
      offset' = offset + (texts.flatMap encodeString).length := by
  induction count generalizing found offset with
  | zero =>
    cases h
    exact ⟨[], by simp, rfl, nofun, stands_nil ho, rfl⟩
  | succ count ih =>
    obtain ⟨length, hlength, h⟩ := bind_eq_ok h
    obtain ⟨raw, hraw, h⟩ := bind_eq_ok h
    split at h
    · rename_i text htext
      obtain ⟨hle, hsize⟩ := take_ok hraw
      obtain ⟨texts, rfl, hcount, hlengths, hrest, rfl⟩ := ih h hle
      rw [← utf8_of_fromUTF8? htext] at hraw hsize
      have hlt : text.utf8ByteSize = length := by rw [← hsize]; simp [utf8]
      subst hlt
      have hnumber := stands_takeNumber hlength
      have htext' := stands_take hraw
      rw [← length_bigEndian 2 text.utf8ByteSize] at htext'
      have hfirst : Stands bytes offset (encodeString text) := hnumber.concat htext'
      rw [Nat.add_assoc, ← length_encodeString] at hrest
      refine ⟨text :: texts, by simp, by simp [hcount], ?_, hfirst.concat hrest, ?_⟩
      · exact List.forall_mem_cons.mpr ⟨(takeNumber_ok hlength).2, hlengths⟩
      · rw [List.flatMap_cons, List.length_append, length_encodeString]
        omega
    · cases h

/-- What reading finds in the bytes of a compiled program, in the order in which it stands. -/
structure Reads (bytes : Bytes) (b : Bytecode) (count offset size : Nat) : Prop where
  front : take bytes 0 4 = .ok magic.toArray
  revision : takeNumber bytes 4 2 = .ok version
  maxLocals : takeNumber bytes 6 2 = .ok b.maxLocals.toNat
  number : takeNumber bytes 8 2 = .ok count
  strings : takeStrings bytes #[] 10 count = .ok (b.strings, offset)
  length : takeNumber bytes offset 4 = .ok size
  code : take bytes (offset + 4) size = .ok b.code
  ends : bytes.size ≤ offset + 4 + size
  faultless : b.fault? = none

theorem reads_of_decode {bytes : Bytes} {b : Bytecode} (h : decode bytes = .ok b) :
    ∃ count offset size, Reads bytes b count offset size := by
  unfold decode at h
  obtain ⟨front, hfront, h⟩ := bind_eq_ok h
  dsimp only at h
  split at h
  · cases h
  rename_i hmagic
  obtain ⟨found, hversion, h⟩ := bind_eq_ok h
  split at h
  · cases h
  rename_i hfound
  obtain ⟨locals, hlocals, h⟩ := bind_eq_ok h
  obtain ⟨count, hcount, h⟩ := bind_eq_ok h
  obtain ⟨⟨strings, offset⟩, hstrings, h⟩ := bind_eq_ok h
  obtain ⟨size, hsize, h⟩ := bind_eq_ok h
  obtain ⟨code, hcode, h⟩ := bind_eq_ok h
  split at h
  · cases h
  rename_i hend
  split at h
  · cases h
  · rename_i hfault
    cases h
    have hlt : locals < 65536 := (takeNumber_ok hlocals).2
    have hto : (UInt16.ofNat locals).toNat = locals := by
      simp only [UInt16.toNat_ofNat']
      omega
    obtain rfl := Decidable.of_not_not hfound
    refine ⟨count, offset, size, ?_, hversion, ?_, hcount, hstrings, hsize, hcode,
      Nat.not_lt.mp hend, hfault⟩
    · rw [hfront, ← Decidable.of_not_not hmagic]
    · rw [hlocals, hto]

theorem Reads.decode {bytes : Bytes} {b : Bytecode} {count offset size : Nat}
    (h : Reads bytes b count offset size) : decode bytes = .ok b := by
  have hfault : (Bytecode.mk (UInt16.ofNat b.maxLocals.toNat) b.strings b.code).fault? = none := by
    rw [UInt16.ofNat_toNat]
    exact h.faultless
  simp only [Bytecode.decode, h.front, h.revision, h.maxLocals, h.number, h.strings, h.length,
    h.code, Bind.bind, Except.bind, ne_eq, not_true_eq_false, if_false, if_neg (Nat.not_lt.mpr h.ends),
    hfault]
  rw [UInt16.ofNat_toNat]
  rfl

theorem Reads.strings_ok {bytes : Bytes} {b : Bytecode} {count offset size : Nat}
    (h : Reads bytes b count offset size) :
    count = b.strings.size ∧ (∀ text ∈ b.strings, text.utf8ByteSize < 65536) ∧
      Stands bytes 10 (b.strings.toList.flatMap encodeString) ∧
      offset = 10 + (b.strings.toList.flatMap encodeString).length := by
  have hten : 10 ≤ bytes.size := (takeNumber_ok h.number).1
  obtain ⟨texts, hstrings, rfl, hlengths, htexts, rfl⟩ := takeStrings_ok h.strings hten
  have hlist : b.strings.toList = texts := by simp [hstrings]
  rw [← hlist] at hlengths htexts ⊢
  exact ⟨rfl, by simpa using hlengths, htexts, rfl⟩

/-- Whatever is read could be written. -/
theorem Reads.encodable {bytes : Bytes} {b : Bytecode} {count offset size : Nat}
    (h : Reads bytes b count offset size) : b.Encodable := by
  obtain ⟨rfl, hlengths, _, _⟩ := h.strings_ok
  refine ⟨(takeNumber_ok h.number).2, hlengths, ?_, h.faultless⟩
  rw [(take_ok h.code).2]
  exact (takeNumber_ok h.length).2

/-- The parts of the format in order. -/
def parts (b : Bytecode) : List UInt8 :=
  magic ++ (bigEndian 2 version ++ (bigEndian 2 b.maxLocals.toNat ++
    (bigEndian 2 b.strings.size ++ (b.strings.toList.flatMap encodeString ++
    (bigEndian 4 b.code.size ++ b.code.toList)))))

theorem toList_encode (b : Bytecode) : b.encode.toList = b.parts := by
  simp [encode, parts]

/-- Everything in the format stands in its place. -/
theorem stands_encode (b : Bytecode) : Stands b.encode 0 b.parts :=
  ⟨[], [], by simp [toList_encode], rfl⟩

theorem length_parts (b : Bytecode) :
    b.parts.length = 10 + (b.strings.toList.flatMap encodeString).length + 4 + b.code.size := by
  simp only [parts, List.length_append, length_bigEndian, Array.length_toList, magic,
    List.length_cons, List.length_nil]
  omega

/-- The bytes that are read are those that would be written. -/
theorem Reads.bytes_eq {bytes : Bytes} {b : Bytecode} {count offset size : Nat}
    (h : Reads bytes b count offset size) : bytes = b.encode := by
  obtain ⟨rfl, _, hstrings, rfl⟩ := h.strings_ok
  obtain ⟨hend, rfl⟩ := take_ok h.code
  have hwhole : Stands bytes 0 b.parts :=
    (stands_take h.front).concat <| (stands_takeNumber h.revision).concat <|
      (stands_takeNumber h.maxLocals).concat <| (stands_takeNumber h.number).concat <|
      hstrings.concat <| (stands_takeNumber h.length).concat (stands_take h.code)
  have hsize := h.ends
  rw [← length_parts] at hsize
  exact Array.ext' ((hwhole.eq_of_length hsize).trans b.toList_encode.symm)

theorem Encodable.reads {b : Bytecode} (h : b.Encodable) :
    Reads b.encode b b.strings.size (10 + (b.strings.toList.flatMap encodeString).length)
      b.code.size := by
  obtain ⟨hmagic, hs⟩ := b.stands_encode.append
  obtain ⟨hversion, hs⟩ := hs.append
  obtain ⟨hlocals, hs⟩ := hs.append
  obtain ⟨hcount, hs⟩ := hs.append
  obtain ⟨hstrings, hs⟩ := hs.append
  obtain ⟨hsize, hcode⟩ := hs.append
  have hm : magic.length = 4 := rfl
  simp only [hm, length_bigEndian, Nat.zero_add, Nat.reduceAdd]
    at hversion hlocals hcount hstrings hsize hcode
  have hread := takeStrings_encodeString hstrings (by simpa using h.lengths) #[]
  exact {
    front := hmagic.take rfl
    revision := hversion.takeNumber (by decide)
    maxLocals := hlocals.takeNumber (UInt16.toNat_lt _)
    number := hcount.takeNumber h.count
    strings := by simpa using hread
    length := hsize.takeNumber h.size
    code := by simpa using hcode.take (Array.length_toList ..)
    ends := Nat.le_of_eq (by rw [← length_parts, ← toList_encode, Array.length_toList])
    faultless := h.faultless }

/-- What is read is what was written, and the format could tell it. -/
theorem decode_iff_encode {bytes : Bytes} {b : Bytecode} :
    decode bytes = .ok b ↔ bytes = b.encode ∧ b.Encodable := by
  constructor
  · intro h
    obtain ⟨_, _, _, hreads⟩ := reads_of_decode h
    exact ⟨hreads.bytes_eq, hreads.encodable⟩
  · rintro ⟨rfl, h⟩
    exact h.reads.decode

/-- What is written is read back exactly if the format can tell it. -/
theorem decode_encode_iff {b : Bytecode} : decode b.encode = .ok b ↔ b.Encodable := by
  rw [decode_iff_encode]
  exact and_iff_right rfl

/-- No string is missing where every index that is named is below their number. -/
theorem missingString?_eq_none_iff {b : Bytecode} {sweep : Sweep} :
    b.missingString? sweep = none ↔
      ∀ x index, (x, .pushString index) ∈ sweep.found.toList → index.toNat < b.strings.size := by
  rw [missingString?, List.findSome?_eq_none_iff]
  constructor
  · intro h x index hm
    have hx := h _ hm
    dsimp only at hx
    split at hx
    · assumption
    · cases hx
  · rintro h ⟨x, i⟩ hm
    cases i with
    | pushString index => simp [h x index hm]
    | _ => rfl

/-- No jump strays where every one lands where an instruction starts. -/
theorem strayJump?_eq_none_iff {sweep : Sweep} :
    strayJump? sweep = none ↔
      ∀ x branch offset, (x, .jump branch offset) ∈ sweep.found.toList →
        ∃ y ∈ sweep.addresses, (x : Int) + offset.toInt = y := by
  have hstarts (goal : Int) :
      (Std.TreeSet.ofList (sweep.addresses.map Int.ofNat)).contains goal = true ↔
        ∃ y ∈ sweep.addresses, goal = y := by
    rw [Std.TreeSet.contains_ofList, List.contains_iff_mem, List.mem_map]
    exact exists_congr fun y => and_congr_right fun _ => eq_comm
  rw [strayJump?, List.findSome?_eq_none_iff]
  constructor
  · intro h x branch offset hm
    have hx := h _ hm
    dsimp only at hx
    split at hx
    · exact (hstarts _).mp (by assumption)
    · cases hx
  · rintro h ⟨x, i⟩ hm
    cases i with
    | jump branch offset => exact if_pos ((hstarts _).mpr (h x branch offset hm))
    | _ => rfl

end Bytecode

namespace Placed

open Bytecode

variable {a : Assembly} {b : Bytecode}

/-- The code of an assembly names strings that exist. -/
theorem missingString? (h : Placed a b) : b.missingString? (Sweep.ofCode b.code) = none := by
  refine missingString?_eq_none_iff.mpr fun x index hm => ?_
  obtain ⟨i, haims, _⟩ := h.at_found hm
  cases haims with
  | pushString known => exact known

/-- Its jumps land on instructions. -/
theorem strayJump? (h : Placed a b) : Bytecode.strayJump? (Sweep.ofCode b.code) = none := by
  refine strayJump?_eq_none_iff.mpr fun x branch offset hm => ?_
  obtain ⟨i, haims, hat⟩ := h.at_found hm
  cases haims with
  | @jump _ _ goal lands =>
    exact ⟨goal, h.lands hat, (Machine.target_eq_ok_iff.mp lands).1⟩

/-- Nothing is wrong with the code of an assembly. -/
theorem faultless (h : Placed a b) : b.fault? = none := by
  obtain ⟨_, _, hs, _, _⟩ := h.sweep
  rw [fault?, h.missingString?, h.strayJump?, hs]
  rfl

end Placed

/-- The format has room for all finished code, but its strings may be one too many. -/
theorem Linked.encodable_iff {a : Assembly} {b : Bytecode} (h : Linked a b) :
    b.Encodable ↔ b.strings.size ≠ 65536 := by
  have hcount := h.valid.table.count
  rw [← h.strings] at hcount
  constructor
  · intro he hs
    exact absurd he.count (by omega)
  · intro hs
    refine ⟨by omega, ?_, ?_, h.faultless⟩
    · intro text ht
      rw [h.strings] at ht
      exact Nat.lt_succ_of_le (h.valid.table.lengths text ht)
    · obtain ⟨_, _, _, _, hsize⟩ := h.sweep
      rw [hsize]
      exact (Assembly.finish_ok h.finish).2.1

/-- A compiled program has at most one string more than the format can count, and unless it has,
what is written of it is read back as it was. -/
theorem Source.reads_back_iff {source : Source} {typing : BranchTyping} {b : Bytecode}
    (h : source.compile typing = .ok b) :
    b.strings.size ≤ 65536 ∧ (Bytecode.decode b.encode = .ok b ↔ b.strings.size ≠ 65536) := by
  obtain ⟨checked, hc, _⟩ := compile_ok h
  obtain ⟨a, hlinked⟩ := (Source.compiled h hc).linked
  refine ⟨?_, Bytecode.decode_encode_iff.trans hlinked.encodable_iff⟩
  rw [hlinked.strings]
  exact hlinked.valid.table.count

/-- A program with one string. -/
theorem Source.reads_back_iff_text :
    ∃ b, (Source.ofString "print(\"a\");").compile .identical = .ok b ∧
      Bytecode.decode b.encode = .ok b := by
  have h : (Source.ofString "print(\"a\");").compile .identical =
      .ok ⟨0, #["a"], #[18, 0, 0, 204, 177]⟩ := by
    decide +kernel
  exact ⟨_, h, (Source.reads_back_iff h).2.mpr (by decide)⟩

end BlockLang
