import BlockLang.Emit

namespace BlockLang

def Entry.size : Entry → Nat
  | .label _ => 0
  | .instruction i => i.size

/-- The bytes that entries take. -/
def codeSize : List Entry → Nat
  | [] => 0
  | e :: entries => e.size + codeSize entries

@[simp] theorem codeSize_nil : codeSize [] = 0 := rfl

@[simp] theorem codeSize_cons (e : Entry) (entries : List Entry) :
    codeSize (e :: entries) = e.size + codeSize entries := rfl

@[simp] theorem codeSize_append (xs ys : List Entry) :
    codeSize (xs ++ ys) = codeSize xs + codeSize ys := by
  induction xs with
  | nil => simp
  | cons e xs ih =>
    rw [List.cons_append, codeSize_cons, codeSize_cons, ih]
    omega

namespace StringTable

/-- Places have two bytes, and so have lengths; each string is where its place says. -/
structure Valid (table : StringTable) : Prop where
  count : table.entries.size ≤ 65536
  lengths : ∀ text ∈ table.entries, text.utf8ByteSize ≤ 65535
  places : ∀ (text : String) (place : UInt16), table.places[text]? = some place →
    table.entries[place.toNat]? = some text

theorem Valid.empty : Valid .empty :=
  ⟨by simp [StringTable.empty], by simp [StringTable.empty], by simp [StringTable.empty]⟩

/-- What becomes of a text: the place it has; or none, as it is too long or one too many; or the next
one. -/
inductive Places (table : StringTable) (text : String) :
    Except AssemblyError UInt16 → StringTable → Prop
  | known {place : UInt16} (old : table.places[text]? = some place) :
      Places table text (.ok place) table
  | tooLong (new : table.places[text]? = none) (long : 65535 < text.utf8ByteSize) :
      Places table text (.error (.stringTooLong text.utf8ByteSize)) table
  | full (new : table.places[text]? = none) (short : text.utf8ByteSize ≤ 65535)
      (many : 65535 < table.entries.size) : Places table text (.error .tooManyStrings) table
  | next (new : table.places[text]? = none) (short : text.utf8ByteSize ≤ 65535)
      (few : table.entries.size ≤ 65535) :
      Places table text (.ok (UInt16.ofNat table.entries.size))
        ⟨table.entries.push text, table.places.insert text (UInt16.ofNat table.entries.size)⟩

variable {table table' : StringTable} {text : String} {result : Except AssemblyError UInt16}

theorem places_of_place (hp : table.place text = (result, table')) :
    table.Places text result table' := by
  unfold StringTable.place at hp
  split at hp
  · rename_i hold
    cases hp
    exact .known hold
  · rename_i hnew
    split at hp
    · rename_i hlong
      cases hp
      exact .tooLong hnew hlong
    · rename_i hshort
      split at hp
      · rename_i hmany
        cases hp
        exact .full hnew (Nat.le_of_not_lt hshort) hmany
      · rename_i hfew
        cases hp
        exact .next hnew (Nat.le_of_not_lt hshort) (Nat.le_of_not_lt hfew)

theorem toNat_next (few : table.entries.size ≤ 65535) :
    (UInt16.ofNat table.entries.size).toNat = table.entries.size := by
  simp only [UInt16.toNat_ofNat']
  omega

/-- The table only grows, and a place that is given away holds its string. -/
theorem Valid.place (h : Valid table) (hp : table.place text = (result, table')) :
    Valid table' ∧ table.entries.toList <+: table'.entries.toList ∧
      ∀ place, result = .ok place → table'.entries[place.toNat]? = some text := by
  cases places_of_place hp with
  | known old =>
    refine ⟨h, List.prefix_rfl, ?_⟩
    rintro _ ⟨⟩
    exact h.places text _ old
  | tooLong new long => exact ⟨h, List.prefix_rfl, nofun⟩
  | full new short many => exact ⟨h, List.prefix_rfl, nofun⟩
  | next new short few =>
    have hto := toNat_next few
    refine ⟨⟨?_, ?_, ?_⟩, by simp, ?_⟩
    · simp only [Array.size_push]
      omega
    · intro t ht
      rcases Array.mem_push.mp ht with ht | rfl
      · exact h.lengths t ht
      · exact short
    · intro t place ht
      rw [Std.TreeMap.getElem?_insert] at ht
      split at ht
      · rename_i he
        rw [Std.LawfulEqCmp.compare_eq_iff_eq] at he
        cases ht
        subst he
        simp [hto]
      · have hold := h.places t place ht
        have hlt : place.toNat < table.entries.size :=
          (Array.getElem?_eq_some_iff.mp hold).1
        rw [Array.getElem?_push, if_neg (by omega)]
        exact hold
    · rintro place ⟨⟩
      simp [hto]

end StringTable

namespace Assembly

/-- Counters agree with the entries: the address is the size of the code, a bound label stands
between two entries, and what instructions name exists. -/
structure Valid (a : Assembly) : Prop where
  address : a.address = codeSize a.entries.toList
  bound : ∀ n x : Nat, a.labels[n]? = some (some x) →
    ∃ before after, a.entries.toList = before ++ after ∧ codeSize before = x
  jumps : ∀ branch label, .instruction (.jump branch label) ∈ a.entries.toList →
    label.number < a.labels.size
  accesses : ∀ op slot, .instruction (.access op slot) ∈ a.entries.toList →
    min (slot.toNat + 1) 65535 ≤ a.maxLocals
  texts : ∀ index, .instruction (.pushString index) ∈ a.entries.toList →
    index.toNat < a.strings.entries.size
  rooms : a.maxLocals ≤ 65535
  table : a.strings.Valid

/-- What a later assembly has kept of an earlier one. -/
structure Extends (a a' : Assembly) : Prop where
  entries : a.entries.toList <+: a'.entries.toList
  labels : ∀ n x : Nat, a.labels[n]? = some (some x) → a'.labels[n]? = some (some x)
  count : a.labels.size ≤ a'.labels.size
  strings : a.strings.entries.toList <+: a'.strings.entries.toList
  maxLocals : a.maxLocals ≤ a'.maxLocals

theorem Extends.refl (a : Assembly) : a.Extends a :=
  ⟨List.prefix_rfl, fun _ _ h => h, Nat.le_refl _, List.prefix_rfl, Nat.le_refl _⟩

theorem Extends.trans {a a' a'' : Assembly} (h : a.Extends a') (h' : a'.Extends a'') :
    a.Extends a'' :=
  ⟨h.entries.trans h'.entries, fun n x hx => h'.labels n x (h.labels n x hx),
    Nat.le_trans h.count h'.count, h.strings.trans h'.strings,
    Nat.le_trans h.maxLocals h'.maxLocals⟩

/-- What was added from `a` to `a'` stands in `A` at the same address, whatever stands around it, and
`A` has the labels and strings it names. -/
structure Holds (A a a' : Assembly) : Prop where
  entries : ∃ before added after, a'.entries.toList = a.entries.toList ++ added ∧
    A.entries.toList = before ++ (added ++ after) ∧ codeSize before = codeSize a.entries.toList
  labels : ∀ n x : Nat, a'.labels[n]? = some (some x) → A.labels[n]? = some (some x)
  strings : a'.strings.entries.toList <+: A.strings.entries.toList

theorem Extends.holds {a a' A : Assembly} (h : a.Extends a') (h' : a'.Extends A) :
    A.Holds a a' := by
  obtain ⟨added, hadded⟩ := h.entries
  obtain ⟨after, hafter⟩ := h'.entries
  refine ⟨⟨_, added, after, hadded.symm, ?_, rfl⟩, h'.labels, h'.strings⟩
  rw [← hafter, ← hadded, List.append_assoc]

/-- What was added in two parts is held in two parts. -/
theorem Holds.parts {A a m a' : Assembly} (h : A.Holds a a') (hm : a.Extends m)
    (hm' : m.Extends a') : A.Holds a m ∧ A.Holds m a' := by
  obtain ⟨before, added, after, hadded, hA, hsize⟩ := h.entries
  obtain ⟨first, hfirst⟩ := hm.entries
  obtain ⟨second, hsecond⟩ := hm'.entries
  have hboth : added = first ++ second := by
    rw [← hsecond, ← hfirst, List.append_assoc] at hadded
    exact (List.append_cancel_left hadded).symm
  subst hboth
  refine ⟨⟨⟨before, first, second ++ after, hfirst.symm, by rw [hA, List.append_assoc], hsize⟩, ?_,
    hm'.strings.trans h.strings⟩,
    ⟨before ++ first, second, after, hsecond.symm, by simp [hA], ?_⟩, h.labels, h.strings⟩
  · exact fun n x hx => h.labels n x (hm'.labels n x hx)
  · rw [← hfirst, codeSize_append, codeSize_append, hsize]

theorem Valid.empty : Valid .empty :=
  ⟨rfl, by simp [Assembly.empty], by simp [Assembly.empty], by simp [Assembly.empty],
    by simp [Assembly.empty], by simp [Assembly.empty], .empty⟩

/-- Appending an instruction whose operand exists. -/
theorem Valid.push {a : Assembly} {i : Instruction Label} (h : a.Valid)
    (hj : ∀ branch label, i = .jump branch label → label.number < a.labels.size)
    (ha : ∀ op slot, i = .access op slot → min (slot.toNat + 1) 65535 ≤ a.maxLocals)
    (ht : ∀ index, i = .pushString index → index.toNat < a.strings.entries.size) :
    (a.push i).Valid := by
  have mem {i' : Instruction Label} (hm : Entry.instruction i' ∈ (a.push i).entries.toList) :
      .instruction i' ∈ a.entries.toList ∨ i = i' := by
    simpa [Assembly.push, eq_comm] using hm
  refine ⟨?_, ?_, ?_, ?_, ?_, h.rooms, h.table⟩
  · simp [Assembly.push, h.address, Entry.size]
  · intro n x hx
    obtain ⟨before, after, he, hs⟩ := h.bound n x hx
    exact ⟨before, after ++ [.instruction i], by simp [Assembly.push, he], hs⟩
  · intro branch label hm
    rcases mem hm with hm | rfl
    · exact h.jumps branch label hm
    · exact hj branch label rfl
  · intro op slot hm
    rcases mem hm with hm | rfl
    · exact h.accesses op slot hm
    · exact ha op slot rfl
  · intro index hm
    rcases mem hm with hm | rfl
    · exact h.texts index hm
    · exact ht index rfl

theorem extends_push (a : Assembly) (i : Instruction Label) : a.Extends (a.push i) :=
  ⟨by simp [Assembly.push], fun _ _ h => h, Nat.le_refl _, List.prefix_rfl, Nat.le_refl _⟩

theorem Valid.reserve {a : Assembly} (h : a.Valid) {count : Nat} (hc : count ≤ 65535) :
    (a.reserve count).Valid :=
  { h with
    accesses := fun op slot hm => Nat.le_trans (h.accesses op slot hm) (Nat.le_max_left _ _)
    rooms := Nat.max_le.mpr ⟨h.rooms, hc⟩ }

theorem extends_reserve (a : Assembly) (count : Nat) : a.Extends (a.reserve count) :=
  { Extends.refl a with maxLocals := Nat.le_max_left _ _ }

theorem Valid.newLabel {a : Assembly} (h : a.Valid) : a.newLabel.2.Valid :=
  { h with
    bound := by
      intro n x hx
      rw [Assembly.newLabel, Array.getElem?_push] at hx
      split at hx
      · simp at hx
      · exact h.bound n x hx
    jumps := fun branch label hm =>
      Nat.lt_of_lt_of_le (h.jumps branch label hm) (by simp [Assembly.newLabel]) }

theorem extends_newLabel (a : Assembly) : a.Extends a.newLabel.2 := by
  refine ⟨List.prefix_rfl, ?_, by simp [Assembly.newLabel], List.prefix_rfl, Nat.le_refl _⟩
  intro n x hx
  have hlt := (Array.getElem?_eq_some_iff.mp hx).1
  rw [Assembly.newLabel, Array.getElem?_push, if_neg (by omega)]
  exact hx

/-- A jump is added exactly if its label was created. -/
theorem jump_cases {a a' : Assembly} {branch : Branch} {label : Label}
    {result : Except AssemblyError Unit} (h : a.jump branch label = (result, a')) :
    (a.labels.size ≤ label.number ∧ result = .error (.unknownLabel label) ∧ a' = a) ∨
    (label.number < a.labels.size ∧ result = .ok () ∧ a' = a.push (.jump branch label)) := by
  unfold Assembly.jump at h
  split at h <;> cases h
  · rename_i hlt
    exact .inr ⟨hlt, rfl, rfl⟩
  · rename_i hge
    exact .inl ⟨Nat.le_of_not_lt hge, rfl, rfl⟩

/-- A string constant is added exactly if the table has a place for it. -/
theorem pushString_cases {a a' : Assembly} {text : String} {result : Except AssemblyError Unit}
    (h : a.pushString text = (result, a')) :
    (∃ error, a.strings.place text = (.error error, a.strings) ∧ result = .error error ∧ a' = a) ∨
    ∃ i table, a.strings.place text = (.ok i, table) ∧ result = .ok () ∧
      a' = push { a with strings := table } (.pushString i) := by
  obtain ⟨entries, labels, address, table, maxLocals⟩ := a
  simp only [Assembly.pushString] at h
  rcases hp : table.place text with ⟨error | i, table'⟩ <;> rw [hp] at h <;> cases h
  · obtain rfl : table' = table := by cases StringTable.places_of_place hp <;> rfl
    exact .inl ⟨error, rfl, rfl, rfl⟩
  · exact .inr ⟨i, table', rfl, rfl, rfl⟩

/-- Binding succeeds only for a label that is not bound, which then has the current address. -/
theorem bind_cases {a a' : Assembly} {label : Label} {result : Except AssemblyError Unit}
    (h : a.bind label = (result, a')) :
    ((∃ error, result = .error error) ∧ a' = a) ∨
    (result = .ok () ∧ a.labels[label.number]? = some none ∧
      a' = { a with
        labels := a.labels.setIfInBounds label.number (some a.address)
        entries := a.entries.push (.label label) }) := by
  unfold Assembly.bind at h
  split at h
  · cases h
    exact .inl ⟨⟨_, rfl⟩, rfl⟩
  · cases h
    exact .inl ⟨⟨_, rfl⟩, rfl⟩
  · rename_i hn
    cases h
    exact .inr ⟨rfl, hn, rfl⟩

theorem Valid.bind {a a' : Assembly} {label : Label} {result : Except AssemblyError Unit}
    (h : a.Valid) (hb : a.bind label = (result, a')) : a'.Valid := by
  obtain ⟨_, rfl⟩ | ⟨_, hn, rfl⟩ := bind_cases hb
  · exact h
  refine ⟨?_, ?_, ?_, ?_, ?_, h.rooms, h.table⟩
  · simp [h.address, Entry.size]
  · intro n x hx
    rw [Array.getElem?_setIfInBounds] at hx
    split at hx
    · split at hx
      · cases hx
        exact ⟨a.entries.toList, [.label label], by simp, h.address.symm⟩
      · cases hx
    · obtain ⟨before, after, he, hs⟩ := h.bound n x hx
      exact ⟨before, after ++ [.label label], by simp [he], hs⟩
  · intro branch l hm
    simpa using h.jumps branch l (by simpa using hm)
  · intro op slot hm
    exact h.accesses op slot (by simpa using hm)
  · intro index hm
    exact h.texts index (by simpa using hm)

theorem extends_bind {a a' : Assembly} {label : Label} {result : Except AssemblyError Unit}
    (hb : a.bind label = (result, a')) : a.Extends a' := by
  obtain ⟨_, rfl⟩ | ⟨_, hn, rfl⟩ := bind_cases hb
  · exact .refl _
  refine ⟨by simp, ?_, by simp, List.prefix_rfl, Nat.le_refl _⟩
  intro n x hx
  rw [Array.getElem?_setIfInBounds, if_neg]
  · exact hx
  · rintro rfl
    rw [hn] at hx
    cases hx

end Assembly

end BlockLang
