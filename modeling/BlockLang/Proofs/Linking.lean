import BlockLang.Machine
import BlockLang.Proofs.Assembly
import BlockLang.Proofs.Bytes

namespace BlockLang

/-- Instructions with their addresses, each right behind the one before. -/
def Consecutive (address : Nat) : List (Nat × Instruction Int16) → Prop
  | [] => True
  | (x, i) :: found => x = address ∧ Consecutive (address + i.size) found

/-- The bytes of instructions in order. -/
def encodeAll (found : List (Nat × Instruction Int16)) : List UInt8 :=
  found.flatMap (·.2.encode)

/-- A sweep over consecutive instructions finds them and nothing else. -/
theorem sweep_run {code : Bytes} {address : Nat} {found : List (Nat × Instruction Int16)}
    (hc : Consecutive address found) (hs : Stands code address (encodeAll found))
    (he : address + (encodeAll found).length = code.size) (acc : Array (Nat × Instruction Int16)) :
    Sweep.run code acc address = ⟨acc ++ found.toArray, none⟩ := by
  induction found generalizing address acc with
  | nil =>
    have hend : ¬ address < code.size := by simp [encodeAll] at he; omega
    rw [Sweep.run, if_neg hend]
    simp
  | cons p found ih =>
    obtain ⟨x, i⟩ := p
    obtain ⟨rfl, hc⟩ := hc
    have hs : Stands code x (i.encode ++ encodeAll found) := by simpa [encodeAll] using hs
    obtain ⟨hi, hs⟩ := hs.append
    have hpos := i.size_pos
    simp only [encodeAll, List.flatMap_cons, List.length_append, Instruction.length_encode] at he
    rw [Sweep.run, if_pos (by omega), Instruction.decode_encode hi]
    simp only
    rw [Instruction.length_encode] at hs
    rw [ih hc hs (by rw [encodeAll]; omega)]
    simp

/-- A sweep that comes to the end has found consecutive instructions, which make up the bytes. -/
theorem run_split {code : Bytes} {address : Nat} {acc : Array (Nat × Instruction Int16)}
    (ha : address ≤ code.size) (h : (Sweep.run code acc address).stop = none) :
    ∃ found, (Sweep.run code acc address).found = acc ++ found.toArray ∧
      Consecutive address found ∧ Stands code address (encodeAll found) ∧
      address + (encodeAll found).length = code.size := by
  induction acc, address using Sweep.run.induct code with
  | case1 acc address hlt i hdecode ih =>
    have hs := Instruction.stands_decode hdecode
    have hle := hs.length_le
    rw [Instruction.length_encode] at hle
    rw [Sweep.run, if_pos hlt, hdecode] at h ⊢
    obtain ⟨found, hfound, hc, hrest, hend⟩ := ih hle h
    refine ⟨(address, i) :: found, ?_, ⟨rfl, hc⟩, ?_, ?_⟩
    · rw [hfound]
      simp
    · rw [← Instruction.length_encode] at hrest
      exact hs.concat hrest
    · simp only [encodeAll, List.flatMap_cons, List.length_append, Instruction.length_encode]
        at hend ⊢
      omega
  | case2 acc address hlt error hdecode =>
    rw [Sweep.run, if_pos hlt, hdecode] at h
    cases h
  | case3 acc address hge =>
    rw [Sweep.run, if_neg hge]
    refine ⟨[], by simp, trivial, stands_nil ha, ?_⟩
    simp only [encodeAll, List.flatMap_nil, List.length_nil]
    omega

theorem Consecutive.address_le {address : Nat} {found : List (Nat × Instruction Int16)}
    (hc : Consecutive address found) : ∀ p ∈ found, address ≤ p.1 := by
  induction found generalizing address with
  | nil => simp
  | cons p found ih =>
    obtain ⟨x, i⟩ := p
    obtain ⟨rfl, hc⟩ := hc
    intro q hq
    rcases List.mem_cons.mp hq with rfl | hq
    · exact Nat.le_refl _
    · exact Nat.le_trans (Nat.le_add_right _ _) (ih hc q hq)

/-- No instruction starts inside another one. -/
theorem Consecutive.apart {address : Nat} {found : List (Nat × Instruction Int16)}
    (hc : Consecutive address found) {p q : Nat × Instruction Int16} (hp : p ∈ found)
    (hq : q ∈ found) (hle : p.1 ≤ q.1) (hlt : q.1 < p.1 + p.2.size) : q = p := by
  induction found generalizing address with
  | nil => cases hp
  | cons r found ih =>
    obtain ⟨x, i⟩ := r
    obtain ⟨rfl, hc⟩ := hc
    have hpos := i.size_pos
    rcases List.mem_cons.mp hp with rfl | hp <;> rcases List.mem_cons.mp hq with rfl | hq
    · rfl
    · have := hc.address_le q hq
      simp only at hlt
      omega
    · have := hc.address_le p hp
      simp only at hle
      omega
    · exact ih hc hp hq

namespace Assembly

/-- The instructions among entries with their jumps resolved, from an address on. -/
def locate (addresses : Array Nat) (address : Nat) :
    List Entry → Except AssemblyError (List (Nat × Instruction Int16))
  | [] => .ok []
  | .label _ :: entries => locate addresses address entries
  | .instruction i :: entries =>
    (resolve addresses address i).bind fun j =>
      (locate addresses (address + i.size) entries).map ((address, j) :: ·)

theorem size_resolve {addresses : Array Nat} {address : Nat} {i : Instruction Label}
    {j : Instruction Int16} (h : resolve addresses address i = .ok j) : j.size = i.size := by
  cases i with
  | jump branch label =>
    simp only [resolve] at h
    cases ho : offset address (addresses.getD label.number 0) with
    | error e => simp only [ho, Except.map, reduceCtorEq] at h
    | ok o =>
      simp only [ho, Except.map, Except.ok.injEq] at h
      subst h
      rfl
  | _ => cases h; rfl

/-- Encoding is locating, and then writing the bytes one behind the other. -/
theorem encode_eq (addresses : Array Nat) (code : Bytes) (entries : List Entry) :
    encode addresses code entries =
      (locate addresses code.size entries).map fun found => code ++ (encodeAll found).toArray := by
  induction entries generalizing code with
  | nil => simp [encode, locate, Except.map, encodeAll]
  | cons e entries ih =>
    cases e with
    | label l => simp only [encode, locate, ih]
    | instruction i =>
      simp only [encode, locate]
      cases hr : resolve addresses code.size i with
      | error e => rfl
      | ok j =>
        have hsize : (code ++ j.encode).size = code.size + i.size := by
          rw [← Array.length_toList, Array.toList_appendList, List.length_append,
            Instruction.length_encode, size_resolve hr, Array.length_toList]
        simp only [ih, hsize, Except.bind]
        cases locate addresses (code.size + i.size) entries with
        | error e => rfl
        | ok found =>
          refine congrArg Except.ok (Array.ext' ?_)
          simp [encodeAll]

theorem locate_cons_ok {addresses : Array Nat} {address : Nat} {i : Instruction Label}
    {entries : List Entry} {found : List (Nat × Instruction Int16)}
    (h : locate addresses address (.instruction i :: entries) = .ok found) :
    ∃ j rest, resolve addresses address i = .ok j ∧
      locate addresses (address + i.size) entries = .ok rest ∧ found = (address, j) :: rest := by
  simp only [locate] at h
  cases hr : resolve addresses address i with
  | error e => simp [hr, Except.bind] at h
  | ok j =>
    cases hl : locate addresses (address + i.size) entries with
    | error e => simp [hr, hl, Except.bind, Except.map] at h
    | ok rest =>
      simp only [hr, hl, Except.bind, Except.map, Except.ok.injEq] at h
      exact ⟨j, rest, rfl, rfl, h.symm⟩

theorem consecutive_locate {addresses : Array Nat} {address : Nat} {entries : List Entry}
    {found : List (Nat × Instruction Int16)} (h : locate addresses address entries = .ok found) :
    Consecutive address found ∧ (encodeAll found).length = codeSize entries := by
  induction entries generalizing address found with
  | nil => cases h; exact ⟨trivial, rfl⟩
  | cons e entries ih =>
    cases e with
    | label l => simpa [Entry.size] using ih h
    | instruction i =>
      obtain ⟨j, rest, hr, hl, rfl⟩ := locate_cons_ok h
      obtain ⟨hc, hs⟩ := ih hl
      have hsize := size_resolve hr
      refine ⟨⟨rfl, by rwa [hsize]⟩, ?_⟩
      simp only [encodeAll, List.flatMap_cons, List.length_append, Instruction.length_encode,
        codeSize_cons, Entry.size, hsize]
      rw [← hs, encodeAll]

/-- Each instruction among the entries is located behind the size of those before it. -/
theorem locate_mem {addresses : Array Nat} {address : Nat} {before after : List Entry}
    {i : Instruction Label} {found : List (Nat × Instruction Int16)}
    (h : locate addresses address (before ++ .instruction i :: after) = .ok found) :
    ∃ j, resolve addresses (address + codeSize before) i = .ok j ∧
      (address + codeSize before, j) ∈ found := by
  induction before generalizing address found with
  | nil =>
    obtain ⟨j, rest, hr, _, rfl⟩ := locate_cons_ok h
    exact ⟨j, hr, List.mem_cons_self⟩
  | cons e before ih =>
    cases e with
    | label l => simpa [Entry.size] using ih h
    | instruction k =>
      obtain ⟨_, rest, _, hl, rfl⟩ := locate_cons_ok h
      obtain ⟨j, hr, hm⟩ := ih hl
      rw [Nat.add_assoc] at hr hm
      exact ⟨j, by simpa [Entry.size] using hr, List.mem_cons_of_mem _ (by
        simpa [Entry.size] using hm)⟩

/-- What is located comes from an entry. -/
theorem mem_locate {addresses : Array Nat} {address : Nat} {entries : List Entry}
    {found : List (Nat × Instruction Int16)} (h : locate addresses address entries = .ok found)
    {x : Nat} {j : Instruction Int16} (hm : (x, j) ∈ found) :
    ∃ before after i, entries = before ++ .instruction i :: after ∧
      x = address + codeSize before ∧ resolve addresses x i = .ok j := by
  induction entries generalizing address found with
  | nil => cases h; cases hm
  | cons e entries ih =>
    cases e with
    | label l =>
      obtain ⟨before, after, i, rfl, hx, hr⟩ := ih h hm
      exact ⟨.label l :: before, after, i, rfl, by simp [Entry.size, hx], hr⟩
    | instruction k =>
      obtain ⟨k', rest, hk, hl, rfl⟩ := locate_cons_ok h
      rcases List.mem_cons.mp hm with he | hm
      · cases he
        exact ⟨[], entries, k, rfl, rfl, hk⟩
      · obtain ⟨before, after, i, rfl, hx, hr⟩ := ih hl hm
        refine ⟨.instruction k :: before, after, i, rfl, ?_, hr⟩
        simp only [hx, codeSize_cons, Entry.size]
        omega

/-- A sweep of what was located finds it again. -/
theorem Valid.sweep_located {a : Assembly} (h : a.Valid) {addresses : Array Nat}
    {found : List (Nat × Instruction Int16)}
    (hl : locate addresses 0 a.entries.toList = .ok found) :
    Sweep.ofCode (encodeAll found).toArray = ⟨found.toArray, none⟩ ∧ Consecutive 0 found ∧
      (encodeAll found).length = a.address := by
  obtain ⟨hc, hs⟩ := consecutive_locate hl
  have hstands : Stands (encodeAll found).toArray 0 (encodeAll found) := ⟨[], [], by simp, rfl⟩
  refine ⟨?_, hc, by rw [hs, h.address]⟩
  rw [Sweep.ofCode, sweep_run hc hstands (by simp)]
  simp

/-- The address a label is bound to. -/
def place (a : Assembly) (label : Label) : Nat :=
  (a.labels.map (·.getD 0)).getD label.number 0

theorem place_of_bound {a : Assembly} {label : Label} {x : Nat}
    (h : a.labels[label.number]? = some (some x)) : a.place label = x := by
  simp [place, h]

/-- The rooms of a valid assembly are few enough to be counted in two bytes. -/
theorem Valid.toNat_maxLocals {a : Assembly} (h : a.Valid) :
    (UInt16.ofNat a.maxLocals).toNat = a.maxLocals :=
  UInt16.toNat_ofNat_of_lt (Nat.lt_succ_of_le h.rooms)

/-- Code is finished exactly when every label is bound, its size has four bytes, and every
instruction is located. -/
theorem finish_ok {a : Assembly} {b : Bytecode} (h : a.finish = .ok b) :
    (∀ n, n < a.labels.size → ∃ x, a.labels[n]? = some (some x)) ∧ a.address < 0x100000000 ∧
    ∃ found, locate (a.labels.map (·.getD 0)) 0 a.entries.toList = .ok found ∧
      b = ⟨UInt16.ofNat a.maxLocals, a.strings.entries, (encodeAll found).toArray⟩ := by
  unfold finish at h
  split at h
  · cases h
  · rename_i hn
    split at h
    · cases h
    · refine ⟨?_, by omega, ?_⟩
      · intro n hlt
        have hsome := Array.findIdx?_eq_none_iff.mp hn a.labels[n] (Array.getElem_mem hlt)
        cases hx : a.labels[n] with
        | none => simp [hx] at hsome
        | some x => exact ⟨x, by simp [hlt, hx]⟩
      · rw [encode_eq] at h
        cases hl : locate (a.labels.map (·.getD 0)) 0 a.entries.toList with
        | error e => simp [hl, Except.map] at h
        | ok found =>
          simp only [hl, Except.map, List.size_toArray, List.length_nil, Except.ok.injEq] at h
          exact ⟨found, rfl, by simp [← h]⟩

/-- The offset of a jump leads back to its goal. -/
theorem offset_ok {origin goal : Nat} {o : Int16} (h : offset origin goal = .ok o) :
    (origin : Int) + o.toInt = goal := by
  unfold offset at h
  dsimp only at h
  split at h
  · cases h
    rw [Int16.toInt_ofInt_of_le (by omega) (by omega)]
    omega
  · cases h

end Assembly

def Instruction.map {α β : Type} (f : α → β) : Instruction α → Instruction β
  | .plain op => .plain op
  | .jump branch target => .jump branch (f target)
  | .access op slot => .access op slot
  | .pushInt value => .pushInt value
  | .pushDouble value => .pushDouble value
  | .pushString index => .pushString index

namespace Bytecode

/-- What an instruction at an address stands for when its jump is named by where it goes. A slot is
within the room that was made for it, as far as rooms are counted. -/
inductive Aims (b : Bytecode) (address : Nat) : Instruction Int16 → Instruction Nat → Prop
  | plain (op : Opcode) : Aims b address (.plain op) (.plain op)
  | jump (branch : Branch) {offset : Int16} {goal : Nat}
      (lands : Machine.target b.code.size address offset = .ok goal) :
      Aims b address (.jump branch offset) (.jump branch goal)
  | access (op : LocalOp) {slot : UInt16}
      (room : min (slot.toNat + 1) 65535 ≤ b.maxLocals.toNat) :
      Aims b address (.access op slot) (.access op slot)
  | pushInt (value : Int32) : Aims b address (.pushInt value) (.pushInt value)
  | pushDouble (value : Double) : Aims b address (.pushDouble value) (.pushDouble value)
  | pushString {index : UInt16} (known : index.toNat < b.strings.size) :
      Aims b address (.pushString index) (.pushString index)

/-- The instruction at `x` is `i`, and the one behind it is at `y`. -/
structure At (b : Bytecode) (x : Nat) (i : Instruction Nat) (y : Nat) : Prop where
  found : ∃ j, (x, j) ∈ (Sweep.ofCode b.code).found.toList ∧ b.Aims x j i
  next : y = x + i.size

end Bytecode

/-- `b` is the code of a valid assembly in which every label is bound, none of them behind the last
instruction. -/
structure Placed (a : Assembly) (b : Bytecode) : Prop where
  valid : a.Valid
  bound : ∀ n, n < a.labels.size → ∃ x, a.labels[n]? = some (some x)
  code : ∃ found, Assembly.locate (a.labels.map (·.getD 0)) 0 a.entries.toList = .ok found ∧
    b = ⟨UInt16.ofNat a.maxLocals, a.strings.entries, (encodeAll found).toArray⟩
  inside : ∀ n x : Nat, a.labels[n]? = some (some x) → x < a.address

namespace Placed

variable {a : Assembly} {b : Bytecode}

/-- The sweep of the code is what was located. -/
theorem sweep (h : Placed a b) :
    ∃ found, Assembly.locate (a.labels.map (·.getD 0)) 0 a.entries.toList = .ok found ∧
      Sweep.ofCode b.code = ⟨found.toArray, none⟩ ∧ Consecutive 0 found ∧
      b.code.size = a.address := by
  obtain ⟨found, hl, rfl⟩ := h.code
  obtain ⟨hs, hc, hsize⟩ := h.valid.sweep_located hl
  exact ⟨found, hl, hs, hc, by simpa using hsize⟩

theorem maxLocals (h : Placed a b) : b.maxLocals.toNat = a.maxLocals := by
  obtain ⟨_, _, rfl⟩ := h.code
  exact h.valid.toNat_maxLocals

theorem strings (h : Placed a b) : b.strings = a.strings.entries := by
  obtain ⟨_, _, rfl⟩ := h.code
  rfl

/-- Each instruction of the assembly stands in the code where the assembly counted it. -/
theorem at_entry (h : Placed a b) {before after : List Entry} {i : Instruction Label}
    (he : a.entries.toList = before ++ .instruction i :: after) :
    b.At (codeSize before) (i.map a.place) (codeSize before + i.size) := by
  obtain ⟨found, hl, hs, _, hsize⟩ := h.sweep
  have hmem : .instruction i ∈ a.entries.toList := by simp [he]
  rw [he] at hl
  obtain ⟨j, hr, hm⟩ := Assembly.locate_mem hl
  rw [Nat.zero_add] at hr hm
  refine ⟨⟨j, by simpa [hs] using hm, ?_⟩, by cases i <;> rfl⟩
  cases i with
  | plain op => cases hr; exact .plain op
  | pushInt value => cases hr; exact .pushInt value
  | pushDouble value => cases hr; exact .pushDouble value
  | access op slot =>
    cases hr
    exact .access op (h.maxLocals ▸ h.valid.accesses op slot hmem)
  | pushString index =>
    cases hr
    exact .pushString (h.strings ▸ h.valid.texts index hmem)
  | jump branch label =>
    obtain ⟨x, hx⟩ := h.bound _ (h.valid.jumps branch label hmem)
    have hin := h.inside _ _ hx
    have hplace := Assembly.place_of_bound hx
    simp only [Assembly.resolve] at hr
    change (Assembly.offset _ (a.place label)).map _ = _ at hr
    cases ho : Assembly.offset (codeSize before) (a.place label) with
    | error e => simp [ho, Except.map] at hr
    | ok o =>
      simp only [ho, Except.map, Except.ok.injEq] at hr
      subst hr
      exact .jump branch (Machine.target_eq_ok_iff.mpr ⟨Assembly.offset_ok ho, by omega⟩)

end Placed

/-- `b` is the finished code of a valid assembly in which no label stands behind the last
instruction. -/
structure Linked (a : Assembly) (b : Bytecode) : Prop extends Placed a b where
  finish : a.finish = .ok b

theorem Assembly.Valid.linked {a : Assembly} {b : Bytecode} (h : a.Valid) (hf : a.finish = .ok b)
    (inside : ∀ n x : Nat, a.labels[n]? = some (some x) → x < a.address) : Linked a b :=
  have ⟨hbound, _, hcode⟩ := Assembly.finish_ok hf
  ⟨⟨h, hbound, hcode, inside⟩, hf⟩

end BlockLang
