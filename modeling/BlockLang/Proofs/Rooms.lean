import BlockLang.Proofs.Bookkeeping
import BlockLang.Proofs.Limits
import BlockLang.Proofs.Locals

namespace BlockLang

namespace Instruction

variable {α β : Type} {f : α → β} {i : Instruction α}

theorem map_eq_access_iff {op : LocalOp} {slot : UInt16} :
    i.map f = .access op slot ↔ i = .access op slot := by
  cases i <;> simp [Instruction.map]

theorem map_eq_jump {branch : Branch} {target : β} (h : i.map f = .jump branch target) :
    ∃ t, i = .jump branch t ∧ f t = target := by
  cases i with
  | jump =>
    cases h
    exact ⟨_, rfl, rfl⟩
  | _ => cases h

end Instruction

/-- The first instruction behind a label is there, or the code ends. -/
theorem Bytecode.behind_mem (b : Bytecode) (entries : List Entry) (label : Label) :
    b.behind entries label ∈ (Sweep.ofCode b.code).addresses ∨
      b.behind entries label = b.code.size := by
  unfold behind
  dsimp only
  generalize (emitted _).length = k
  cases hk : (Sweep.ofCode b.code).addresses[k]? with
  | none => exact .inr rfl
  | some x => exact .inl (List.mem_of_getElem? hk)

namespace Bytecode.Renders

open Machine

variable {b : Bytecode} {entries : List Entry} {s : State}

theorem mem_iff (h : b.Renders entries) (i : Instruction Int) :
    (∃ p ∈ (Sweep.ofCode b.code).found.toList, aimed p = i) ↔
      ∃ j ∈ emitted entries, (j.map fun label => (b.behind entries label : Int)) = i := by
  rw [← List.mem_map, h.instructions, List.mem_map]

/-- The slots that are named in the code are those that the entries name. -/
theorem access_iff (h : b.Renders entries) {op : LocalOp} {slot : UInt16} :
    (∃ x, (x, .access op slot) ∈ (Sweep.ofCode b.code).found.toList) ↔
      .instruction (.access op slot) ∈ entries := by
  have hsame := h.mem_iff (.access op slot)
  simp only [Prod.exists, aimed, Instruction.map_eq_access_iff, exists_eq_right] at hsame
  rw [hsame, mem_emitted_iff]

/-- Jumps go to labels, hence where instructions start. -/
theorem lands (h : b.Renders entries) : Lands b := by
  intro x branch offset y hm hgoal
  obtain ⟨hy, hlt⟩ := target_eq_ok_iff.mp hgoal
  obtain ⟨j, _, hj⟩ := (h.mem_iff _).mp ⟨_, hm, rfl⟩
  obtain ⟨label, rfl, hlabel⟩ := Instruction.map_eq_jump hj
  obtain rfl : b.behind entries label = y := Int.ofNat_inj.mp (hlabel.trans hy)
  exact (behind_mem b entries label).resolve_right (Nat.ne_of_lt hlt)

/-- Runs stay where instructions start, or at the end. -/
theorem inPlace (h : b.Renders entries) {n : Nat} (hs : Steps b n (start b) s) : s.InPlace b := by
  have hsplits := splits_of_sweep h.whole
  exact hs.keeps (fun _ _ hu hstep => hu.step_of_lands hsplits h.lands hstep) hsplits.zero_mem

end Bytecode.Renders

namespace Bytecode

/-- There is room for every slot that the code names. -/
def HasRoom (b : Bytecode) : Prop :=
  ∀ x op slot, (x, .access op slot) ∈ (Sweep.ofCode b.code).found.toList →
    slot.toNat < b.maxLocals.toNat

/-- Room is made for every slot that the code names, as far as rooms are counted. -/
def MakesRoom (b : Bytecode) : Prop :=
  ∀ x op slot, (x, .access op slot) ∈ (Sweep.ofCode b.code).found.toList →
    min (slot.toNat + 1) 65535 ≤ b.maxLocals.toNat

variable {b : Bytecode} {slot : UInt16}

/-- Rooms are counted in two bytes, so there is none for the last slot. -/
theorem maxLocals_le (b : Bytecode) : b.maxLocals.toNat ≤ 65535 :=
  Nat.le_of_lt_succ b.maxLocals.toNat_lt

/-- Where room is made for a slot and yet there is none, the slot is the last one. -/
theorem eq_last_of_room (made : min (slot.toNat + 1) 65535 ≤ b.maxLocals.toNat)
    (none : b.maxLocals.toNat ≤ slot.toNat) : slot = 65535 := by
  have hlt := slot.toNat_lt
  refine UInt16.toNat_inj.mp ?_
  change slot.toNat = 65535
  omega

theorem MakesRoom.hasRoom_iff (h : b.MakesRoom) :
    b.HasRoom ↔ ∀ x op, (x, .access op 65535) ∉ (Sweep.ofCode b.code).found.toList := by
  constructor
  · intro hroom x op hm
    exact Nat.not_lt.mpr b.maxLocals_le (hroom x op _ hm)
  · intro hlast x op slot hm
    by_contra hnone
    obtain rfl := eq_last_of_room (h x op slot hm) (Nat.le_of_not_lt hnone)
    exact hlast x op hm

end Bytecode

/-- Finishing gives the code the room that was made. -/
theorem Assembly.Valid.makesRoom {a : Assembly} {b : Bytecode} (ha : a.Valid) (ht : a.Tracks)
    (h : a.finish = .ok b) : b.MakesRoom := by
  intro x op slot hm
  have hentry := (ht.renders ha h).access_iff.mp ⟨x, hm⟩
  have hrooms : b.maxLocals.toNat = a.maxLocals := by
    obtain ⟨_, _, _, _, rfl⟩ := finish_ok h
    exact ha.toNat_maxLocals
  rw [hrooms]
  exact ha.accesses op slot hentry

namespace Machine

variable {b : Bytecode} {s : State} {slot : UInt16} {limit : Nat}

/-- The machine is at an access to a slot, for which the stack holds what it takes. -/
def State.Accesses (b : Bytecode) (slot : UInt16) (s : State) : Prop :=
  ∃ op, (s.pc, .access op slot) ∈ (Sweep.ofCode b.code).found.toList ∧ s.Supplies op

/-- A step fails for its slot exactly if it is an access to one that is not among the locals. -/
theorem State.InPlace.step_invalidLocal_iff (h : s.InPlace b) :
    Machine.step b s = .error (.invalidLocal slot) ↔
      s.Accesses b slot ∧ s.locals.size ≤ slot.toNat := by
  constructor
  · intro hstep
    rcases h.step_cases with hend | ⟨i, hm, he⟩
    · rw [hend] at hstep
      cases hstep
    rw [he] at hstep
    cases mayFail_perform hstep with
    | stack cause => exact cause.elim
    | range access outside supplied => exact ⟨⟨_, access ▸ hm, supplied⟩, outside⟩
    | stray _ lost => cases target_error lost
  · rintro ⟨⟨op, hm, supplied⟩, outside⟩
    rw [step_of_mem hm, perform_outside outside supplied]

/-- A run of code for which room is made fails for a slot exactly if it comes to an access to the last
one. -/
theorem run_invalidLocal_iff {entries : List Entry} (hr : b.Renders entries) (hroom : b.MakesRoom) :
    run b limit = .error (.invalidLocal slot) ↔
      slot = 65535 ∧ ∃ n s, n < limit ∧ Steps b n (start b) s ∧ s.Accesses b 65535 := by
  refine Iff.trans (run_failed_iff nofun nofun) ?_
  constructor
  · rintro ⟨n, s, hlt, hs, hstep⟩
    obtain ⟨⟨op, hm, supplied⟩, outside⟩ := (hr.inPlace hs).step_invalidLocal_iff.mp hstep
    rw [hs.size_locals] at outside
    obtain rfl := Bytecode.eq_last_of_room (hroom _ op slot hm) outside
    exact ⟨rfl, n, s, hlt, hs, op, hm, supplied⟩
  · rintro ⟨rfl, n, s, hlt, hs, haccess⟩
    refine ⟨n, s, hlt, hs, (hr.inPlace hs).step_invalidLocal_iff.mpr ⟨haccess, ?_⟩⟩
    rw [hs.size_locals]
    exact b.maxLocals_le

end Machine

namespace History

open Machine

variable {h : History} {r : Request} {op : LocalOp} {slot : UInt16}

/-- An access is never refused. -/
theorem access_mem_ask_iff :
    .access op slot ∈ (h.ask r).done ↔ .access op slot ∈ h.done ∨ .access op slot = r := by
  unfold ask
  rcases hp : r.perform h.assembly with ⟨error | ⟨⟩, a⟩
  · obtain ⟨_, hrefused⟩ := Request.perform_error hp
    have hne : .access op slot ≠ r := by
      rintro rfl
      cases hrefused
    simp [hne]
  · simp

theorem access_mem_foldl_iff (requests : List Request) :
    .access op slot ∈ (requests.foldl ask h).done ↔
      .access op slot ∈ h.done ∨ .access op slot ∈ requests := by
  induction requests generalizing h with
  | nil => simp
  | cons r requests ih => rw [List.foldl_cons, ih, access_mem_ask_iff, List.mem_cons, or_assoc]

/-- The slots that the entries name are those that were asked for. -/
theorem access_mem_entries_iff (requests : List Request) :
    .instruction (.access op slot) ∈ (of requests).assembly.entries.toList ↔
      .access op slot ∈ requests := by
  have hdone : .access op slot ∈ (of requests).done ↔ .access op slot ∈ requests := by
    rw [of, access_mem_foldl_iff]
    exact or_iff_right List.not_mem_nil
  rw [(kept_of requests).entries, List.mem_filterMap, ← hdone]
  constructor
  · rintro ⟨r, hr, he⟩
    cases r with
    | access => cases he; exact hr
    | _ => cases he
  · exact fun hr => ⟨_, hr, rfl⟩

/-- Whatever was asked, finished code has room for all the slots that it names exactly if the last slot
was not asked for, and then no run fails for a slot. In any case a run fails for a slot exactly if this
is the last one and the run comes to an access to it. -/
theorem finish_hasRoom_iff {requests : List Request} {b : Bytecode}
    (h : (of requests).assembly.finish = .ok b) :
    (b.HasRoom ↔ ∀ op, .access op 65535 ∉ requests) ∧
    (b.HasRoom → ∀ limit slot, run b limit ≠ .error (.invalidLocal slot)) ∧
    ∀ limit slot, run b limit = .error (.invalidLocal slot) ↔
      slot = 65535 ∧ ∃ n s, n < limit ∧ Steps b n (Machine.start b) s ∧ s.Accesses b 65535 := by
  have hkept := kept_of requests
  have hrenders := hkept.calls.tracks.renders hkept.calls.valid h
  have hmade := hkept.calls.valid.makesRoom hkept.calls.tracks h
  refine ⟨?_, ?_, fun limit slot => run_invalidLocal_iff hrenders hmade⟩
  · rw [hmade.hasRoom_iff, forall_comm]
    refine forall_congr' fun op => ?_
    rw [← not_exists, hrenders.access_iff, access_mem_entries_iff]
  · intro hroom limit slot hrun
    obtain ⟨_, _, s, _, _, op, hm, _⟩ := (run_invalidLocal_iff hrenders hmade).mp hrun
    exact hmade.hasRoom_iff.mp hroom s.pc op hm

/-- A value is stored in the last slot but one, and in the last. -/
theorem finish_hasRoom_iff_last :
    (∃ b, (of [.pushInt 1, .access (.store .int) 65534, .op .ret]).assembly.finish = .ok b ∧
      b.HasRoom) ∧
    ∃ b, (of [.pushInt 1, .access (.store .int) 65535, .op .ret]).assembly.finish = .ok b ∧
      ¬ b.HasRoom ∧ run b 3 = .error (.invalidLocal 65535) := by
  constructor
  · have h : (of [.pushInt 1, .access (.store .int) 65534, .op .ret]).assembly.finish =
        .ok ⟨65535, #[], #[0x13, 0, 0, 0, 1, 0x36, 0xff, 0xfe, 0xb1]⟩ := by
      decide +kernel
    refine ⟨_, h, (finish_hasRoom_iff h).1.mpr ?_⟩
    intro op
    simp
  · have h : (of [.pushInt 1, .access (.store .int) 65535, .op .ret]).assembly.finish =
        .ok ⟨65535, #[], #[0x13, 0, 0, 0, 1, 0x36, 0xff, 0xff, 0xb1]⟩ := by
      decide +kernel
    have hfound : (Sweep.ofCode #[0x13, 0, 0, 0, 1, 0x36, 0xff, 0xff, 0xb1]).found.toList =
        [(0, .pushInt 1), (5, .access (.store .int) 65535), (8, .plain .ret)] := by
      decide +kernel
    obtain ⟨hroom, _, hruns⟩ := finish_hasRoom_iff h
    refine ⟨_, h, fun hall => hroom.mp hall (.store .int) (by simp), (hruns 3 65535).mpr ⟨rfl, ?_⟩⟩
    -- One step comes to the access. The locals stay unevaluated, as there are as many as can be.
    refine ⟨1, ⟨5, [.int 1], _, #[]⟩, by decide, ⟨_, step_of_mem (i := .pushInt 1) ?_, rfl⟩,
      .store .int, ?_, .int 1, [], rfl, rfl⟩
    · rw [hfound]
      exact List.mem_cons_self
    · rw [hfound]
      exact List.mem_cons_of_mem _ List.mem_cons_self

end History

end BlockLang
