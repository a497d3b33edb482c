import BlockLang.Proofs.Running

namespace BlockLang

/-- Behind an instruction stands the next one, or nothing more. -/
theorem Consecutive.next {address : Nat} {found : List (Nat × Instruction Int16)}
    (hc : Consecutive address found) {p : Nat × Instruction Int16} (hp : p ∈ found) :
    p.1 + p.2.size ∈ found.map (·.1) ∨ p.1 + p.2.size = address + (encodeAll found).length := by
  induction found generalizing address with
  | nil => cases hp
  | cons q found ih =>
    obtain ⟨x, i⟩ := q
    obtain ⟨rfl, hc⟩ := hc
    have hlen : x + (encodeAll ((x, i) :: found)).length =
        x + i.size + (encodeAll found).length := by
      simp only [encodeAll, List.flatMap_cons, List.length_append, Instruction.length_encode]
      omega
    rw [hlen, List.map_cons, List.mem_cons]
    rcases List.mem_cons.mp hp with rfl | hp
    · cases found with
      | nil => exact .inr rfl
      | cons q found =>
        obtain ⟨y, k⟩ := q
        obtain ⟨rfl, _⟩ := hc
        exact .inl (.inr List.mem_cons_self)
    · rcases ih hc hp with hnext | hend
      · exact .inl (.inr hnext)
      · exact .inr hend

/-- Entries that take bytes hold an instruction, before which none are taken. -/
theorem exists_first {entries : List Entry} (h : 0 < codeSize entries) :
    ∃ before i after, entries = before ++ .instruction i :: after ∧ codeSize before = 0 := by
  induction entries with
  | nil => cases h
  | cons e entries ih =>
    cases e with
    | instruction i => exact ⟨[], i, entries, rfl, rfl⟩
    | label l =>
      obtain ⟨before, i, after, rfl, hb⟩ := ih (by simpa [Entry.size] using h)
      exact ⟨.label l :: before, i, after, rfl, by simpa [Entry.size] using hb⟩

namespace Bytecode

variable {b : Bytecode} {x x' y y' : Nat} {i i' : Instruction Nat}

theorem Aims.unique {j : Instruction Int16} (h : b.Aims x j i) (h' : b.Aims x j i') : i = i' := by
  cases h with
  | jump branch lands =>
    cases h' with
    | jump _ lands' => rw [Except.ok.inj (lands.symm.trans lands')]
  | _ => cases h'; rfl

theorem At.lt_next (h : b.At x i y) : x < y := by
  rw [h.next]
  cases i <;> simp [Instruction.size]

theorem At.mem_addresses (h : b.At x i y) : x ∈ (Sweep.ofCode b.code).addresses := by
  obtain ⟨j, hm, _⟩ := h.found
  exact List.mem_map.mpr ⟨(x, j), hm, rfl⟩

end Bytecode

namespace Placed

variable {a : Assembly} {b : Bytecode} {x x' y y' : Nat} {i i' : Instruction Nat}

/-- Whatever a sweep finds stands for an instruction of the assembly. -/
theorem at_found (h : Placed a b) {j : Instruction Int16}
    (hm : (x, j) ∈ (Sweep.ofCode b.code).found.toList) :
    ∃ i, b.Aims x j i ∧ b.At x i (x + i.size) := by
  obtain ⟨found, hl, hs, hc, _⟩ := h.sweep
  have hm' := hm
  rw [hs] at hm'
  obtain ⟨before, after, i, he, hx, _⟩ := Assembly.mem_locate hl hm'
  have hat := h.at_entry he
  rw [Nat.zero_add] at hx
  rw [← hx] at hat
  obtain ⟨k, hk, haims⟩ := hat.found
  have hk' := hk
  rw [hs] at hk'
  have hpos := j.size_pos
  cases hc.apart hm' hk' (Nat.le_refl x) (by simp only; omega)
  exact ⟨_, haims, ⟨j, hm, haims⟩, rfl⟩

theorem at_address (h : Placed a b) (hx : x ∈ (Sweep.ofCode b.code).addresses) :
    ∃ i, b.At x i (x + i.size) := by
  obtain ⟨⟨_, j⟩, hm, rfl⟩ := List.mem_map.mp hx
  obtain ⟨i, _, hat⟩ := h.at_found hm
  exact ⟨i, hat⟩

/-- No instruction starts inside another one. -/
theorem apart (h : Placed a b) (hx : b.At x i y) (hx' : b.At x' i' y') (hle : x ≤ x')
    (hlt : x' < y) : x' = x ∧ i' = i ∧ y' = y := by
  obtain ⟨found, _, hs, hc, _⟩ := h.sweep
  obtain ⟨⟨j, hm, haims⟩, rfl⟩ := hx
  obtain ⟨⟨j', hm', haims'⟩, rfl⟩ := hx'
  rw [hs] at hm hm'
  rw [← haims.size_eq] at hlt
  cases hc.apart hm hm' hle hlt
  cases haims.unique haims'
  exact ⟨rfl, rfl, rfl⟩

theorem at_next (h : Placed a b) (hx : b.At x i y) :
    y ∈ (Sweep.ofCode b.code).addresses ∨ y = b.code.size := by
  obtain ⟨found, hl, hs, hc, hsize⟩ := h.sweep
  obtain ⟨⟨j, hm, haims⟩, rfl⟩ := hx
  rw [hs] at hm
  rw [← haims.size_eq, Sweep.addresses, hs]
  rcases hc.next hm with hnext | hend
  · exact .inl hnext
  · refine .inr (hend.trans ?_)
    rw [Nat.zero_add, (Assembly.consecutive_locate hl).2, hsize, h.valid.address]

/-- Behind entries that are not the last ones an instruction starts. -/
theorem mem_of_entries (h : Placed a b) {before after : List Entry}
    (he : a.entries.toList = before ++ after) (hlt : codeSize before < a.address) :
    codeSize before ∈ (Sweep.ofCode b.code).addresses := by
  rw [h.valid.address, he, codeSize_append] at hlt
  obtain ⟨labels, i, rest, rfl, hlabels⟩ := exists_first (show 0 < codeSize after by omega)
  rw [← List.append_assoc] at he
  have hat := (h.at_entry he).mem_addresses
  rwa [codeSize_append, hlabels, Nat.add_zero] at hat

/-- Code that is not empty begins with an instruction. -/
theorem zero_mem (h : Placed a b) (hpos : 0 < b.code.size) :
    0 ∈ (Sweep.ofCode b.code).addresses := by
  obtain ⟨_, _, _, _, hsize⟩ := h.sweep
  exact h.mem_of_entries (List.nil_append _).symm (hsize ▸ hpos)

/-- Where a label is bound an instruction starts. -/
theorem place_mem (h : Placed a b) {label : Label} (hl : label.number < a.labels.size) :
    a.place label ∈ (Sweep.ofCode b.code).addresses := by
  obtain ⟨z, hz⟩ := h.bound _ hl
  obtain ⟨before, after, he, rfl⟩ := h.valid.bound _ _ hz
  rw [Assembly.place_of_bound hz]
  exact h.mem_of_entries he (h.inside _ _ hz)

/-- A jump lands where an instruction starts. -/
theorem lands (h : Placed a b) {branch : Branch} {target : Nat}
    (hx : b.At x (.jump branch target) y) : target ∈ (Sweep.ofCode b.code).addresses := by
  obtain ⟨found, hl, hs, _, _⟩ := h.sweep
  obtain ⟨j, hm, haims⟩ := hx.found
  rw [hs] at hm
  obtain ⟨before, after, i, he, rfl, hr⟩ := Assembly.mem_locate hl hm
  have hat := h.at_entry he
  rw [Nat.zero_add] at hx
  obtain ⟨_, hi, _⟩ := h.apart hat hx (Nat.le_refl _) hat.lt_next
  cases i with
  | jump branch label =>
    cases hi
    exact h.place_mem (h.valid.jumps branch label (by simp [he]))
  | _ => cases hi

end Placed

end BlockLang
