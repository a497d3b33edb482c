import Mathlib.Algebra.Ring.Nat
import BlockLang.Proofs.Excerpt

namespace BlockLang

/-- The instructions among entries. -/
def emitted (entries : List Entry) : List (Instruction Label) :=
  entries.filterMap fun
    | .instruction i => some i
    | .label _ => none

@[simp] theorem emitted_nil : emitted [] = [] := rfl

@[simp] theorem emitted_label (l : Label) (entries : List Entry) :
    emitted (.label l :: entries) = emitted entries := rfl

@[simp] theorem emitted_instruction (i : Instruction Label) (entries : List Entry) :
    emitted (.instruction i :: entries) = i :: emitted entries := rfl

theorem mem_emitted_iff {entries : List Entry} {i : Instruction Label} :
    i ∈ emitted entries ↔ .instruction i ∈ entries := by
  rw [emitted, List.mem_filterMap]
  constructor
  · intro h
    obtain ⟨e, he, hi⟩ := h
    cases e with
    | label l => simp at hi
    | instruction k =>
      simp only [Option.some.injEq] at hi
      exact hi ▸ he
  · exact fun h => ⟨_, h, rfl⟩

/-- A label is bound at an address: so many bytes do the entries before it take. -/
def BoundAt (entries : List Entry) (label : Label) (address : Nat) : Prop :=
  ∃ before after, entries = before ++ .label label :: after ∧ codeSize before = address

/-- At an address stands a jump whose label is bound at another. -/
def JumpsTo (entries : List Entry) (origin goal : Nat) : Prop :=
  ∃ before branch label after, entries = before ++ .instruction (.jump branch label) :: after ∧
    codeSize before = origin ∧ BoundAt entries label goal

/-- An instruction at an address, its jump named by where it goes. -/
def aimed : Nat × Instruction Int16 → Instruction Int
  | (x, i) => i.map fun o => x + o.toInt

/-- Two bytes with a sign hold the distance. -/
def InReach (origin goal : Nat) : Prop :=
  -32768 ≤ (goal : Int) - origin ∧ (goal : Int) - origin ≤ 32767

theorem boundAt_concat {entries : List Entry} {e : Entry} {label : Label} {x : Nat} :
    BoundAt (entries ++ [e]) label x ↔
      BoundAt entries label x ∨ (e = .label label ∧ codeSize entries = x) := by
  constructor
  · intro h
    obtain ⟨before, after, he, hx⟩ := h
    rcases List.eq_nil_or_concat after with rfl | ⟨after, last, rfl⟩
    · have hlast := List.append_inj' he rfl
      simp only [List.cons.injEq, and_true] at hlast
      exact .inr ⟨hlast.2, hlast.1 ▸ hx⟩
    · have hfront : entries = before ++ .label label :: after := by
        have hboth : entries ++ [e] = (before ++ .label label :: after) ++ [last] := by simpa using he
        exact (List.append_inj' hboth rfl).1
      exact .inl ⟨before, after, hfront, hx⟩
  · intro h
    rcases h with ⟨before, after, rfl, hx⟩ | ⟨rfl, hx⟩
    · exact ⟨before, after ++ [e], by simp, hx⟩
    · exact ⟨entries, [], rfl, hx⟩

/-- A label that stands among the entries is bound where it stands. -/
theorem exists_boundAt_iff {entries : List Entry} {label : Label} :
    (∃ x, BoundAt entries label x) ↔ .label label ∈ entries := by
  constructor
  · rintro ⟨x, before, after, rfl, _⟩
    exact List.mem_append_right before List.mem_cons_self
  · intro hmem
    obtain ⟨before, after, he⟩ := List.append_of_mem hmem
    exact ⟨codeSize before, before, after, he, rfl⟩

/-- Entries behind the first ones, an instruction being the first that differs, take some bytes. -/
theorem split_le {before after before' after' : List Entry} {i i' : Instruction Label}
    (h : before ++ .instruction i :: after = before' ++ .instruction i' :: after')
    (hle : codeSize before ≤ codeSize before') :
    before = before' ∧ i = i' ∨ ∃ more, before' = before ++ .instruction i :: more := by
  rcases List.append_eq_append_iff.mp h with ⟨more, rfl, he⟩ | ⟨more, rfl, he⟩
  · cases more with
    | nil =>
      simp only [List.nil_append, List.cons.injEq, Entry.instruction.injEq] at he
      exact .inl ⟨by simp, he.1⟩
    | cons e more =>
      simp only [List.cons_append, List.cons.injEq] at he
      exact .inr ⟨more, by rw [he.1]⟩
  · cases more with
    | nil =>
      simp only [List.nil_append, List.cons.injEq, Entry.instruction.injEq] at he
      exact .inl ⟨by simp, he.1.symm⟩
    | cons e more =>
      simp only [List.cons_append, List.cons.injEq] at he
      have hpos := i'.size_pos
      simp only [codeSize_append, codeSize_cons, ← he.1, Entry.size] at hle
      omega

namespace Assembly

variable {a a' : Assembly}

/-- The labels record where they are bound. -/
def Tracks (a : Assembly) : Prop :=
  ∀ (label : Label) (x : Nat),
    a.labels[label.number]? = some (some x) ↔ BoundAt a.entries.toList label x

/-- Instructions do not bind labels. -/
theorem Tracks.push (h : a.Tracks) (i : Instruction Label) : (a.push i).Tracks := by
  intro label x
  have hentries : (a.push i).entries.toList = a.entries.toList ++ [.instruction i] := by
    simp [Assembly.push]
  rw [hentries, boundAt_concat]
  simpa [Assembly.push] using h label x

theorem Tracks.newLabel (h : a.Tracks) : a.newLabel.2.Tracks := by
  intro label x
  have hold := h label x
  simp only [Assembly.newLabel, Array.getElem?_push]
  split
  · rename_i hnew
    rw [hnew, Array.getElem?_eq_none (Nat.le_refl _)] at hold
    simpa using hold
  · exact hold

theorem Tracks.bind {label : Label} {result : Except AssemblyError Unit} (h : a.Tracks)
    (ha : a.Valid) (hb : a.bind label = (result, a')) : a'.Tracks := by
  obtain ⟨_, rfl⟩ | ⟨_, hn, rfl⟩ := bind_cases hb
  · exact h
  intro other x
  have hlt := (Array.getElem?_eq_some_iff.mp hn).1
  have hold := h other x
  simp only [Array.toList_push, boundAt_concat, Array.getElem?_setIfInBounds, Entry.label.injEq,
    ← ha.address, ← hold]
  by_cases hsame : label.number = other.number
  · have hlabel : label = other := by
      cases label
      cases other
      simpa using hsame
    subst hlabel
    rw [hn]
    simp [hlt]
  · have hlabel : label ≠ other := fun he => hsame (congrArg _ he)
    simp [hsame, hlabel]

theorem Tracks.pushString {text : String} {result : Except AssemblyError Unit} (h : a.Tracks)
    (hp : a.pushString text = (result, a')) : a'.Tracks := by
  obtain ⟨_, _, _, rfl⟩ | ⟨_, _, _, _, rfl⟩ := pushString_cases hp
  · exact h
  · exact Tracks.push h _

theorem Tracks.jump {branch : Branch} {label : Label} {result : Except AssemblyError Unit}
    (h : a.Tracks) (hj : a.jump branch label = (result, a')) : a'.Tracks := by
  obtain ⟨_, _, rfl⟩ | ⟨_, _, rfl⟩ := jump_cases hj
  · exact h
  · exact h.push _

end Assembly

theorem Emit.snd_act (action : Assembly → Except AssemblyError Unit × Assembly) (a : Assembly) :
    (Emit.act action a).2 = (action a).2 := by
  unfold Emit.act
  rcases action a with ⟨_ | _, _⟩ <;> rfl

namespace Assembly

variable {a a' : Assembly}

/-- Every call keeps record of the labels. -/
theorem Call.tracks (h : Call a a') (ha : a.Valid) (ht : a.Tracks) : a'.Tracks := by
  cases h with
  | newLabel => exact ht.newLabel
  | bind label =>
    rw [Emit.bind, Emit.snd_act]
    exact ht.bind ha rfl
  | jump branch label =>
    rw [Emit.jump, Emit.snd_act]
    exact ht.jump rfl
  | op o => exact ht.push _
  | access o slot => exact Tracks.push ht _
  | pushInt value => exact ht.push _
  | pushDouble value => exact ht.push _
  | pushString text =>
    rw [Emit.pushString, Emit.snd_act]
    exact ht.pushString rfl
  | reserve count => exact ht

theorem Calls.tracks (h : Calls .empty a) : a.Tracks := by
  induction h with
  | refl =>
    intro label x
    simp [Assembly.empty, BoundAt]
  | tail calls call ih => exact call.tracks (Calls.valid calls) ih

/-- Every label that was created is bound. -/
def AllBound (a : Assembly) : Prop :=
  ∀ n, n < a.labels.size → ∃ x, BoundAt a.entries.toList ⟨n⟩ x

/-- What is asked of an assembly before it is finished. -/
structure Ready (a : Assembly) : Prop where
  bound : a.AllBound
  small : codeSize a.entries.toList ≤ 2 ^ 32 - 1
  near : ∀ origin goal, JumpsTo a.entries.toList origin goal → InReach origin goal

/-- The error that an assembly is refused with: the lowest label that is not bound, then the size,
then the first jump that does not reach its goal. -/
inductive Refused (a : Assembly) : AssemblyError → Prop
  | unbound {number : Nat} (created : number < a.labels.size)
      (loose : ¬ ∃ x, BoundAt a.entries.toList ⟨number⟩ x)
      (lowest : ∀ n, n < number → ∃ x, BoundAt a.entries.toList ⟨n⟩ x) :
      Refused a (.unboundLabel ⟨number⟩)
  | tooLarge (bound : a.AllBound) (large : 2 ^ 32 - 1 < codeSize a.entries.toList) :
      Refused a (.codeTooLarge (codeSize a.entries.toList))
  | tooFar {origin goal : Nat} (bound : a.AllBound) (small : codeSize a.entries.toList ≤ 2 ^ 32 - 1)
      (jumps : JumpsTo a.entries.toList origin goal) (far : ¬ InReach origin goal)
      (first : ∀ x y, JumpsTo a.entries.toList x y → x < origin → InReach x y) :
      Refused a (.branchTooFar origin goal)

theorem Tracks.allBound_iff (h : a.Tracks) :
    a.AllBound ↔ ∀ n, n < a.labels.size → ∃ x, a.labels[n]? = some (some x) :=
  forall_congr' fun n => imp_congr_right fun _ => exists_congr fun x => (h ⟨n⟩ x).symm

/-- A label is bound at one address only. -/
theorem Tracks.unique (h : a.Tracks) {label : Label} {x y : Nat}
    (hx : BoundAt a.entries.toList label x) (hy : BoundAt a.entries.toList label y) : x = y := by
  have he := ((h label x).mpr hx).symm.trans ((h label y).mpr hy)
  simpa using he

theorem Tracks.place_eq (h : a.Tracks) {label : Label} {x : Nat}
    (hx : BoundAt a.entries.toList label x) : a.place label = x :=
  place_of_bound ((h label x).mpr hx)

/-- At one address stands one jump. -/
theorem Tracks.jump_unique (h : a.Tracks) {origin x y : Nat}
    (hx : JumpsTo a.entries.toList origin x) (hy : JumpsTo a.entries.toList origin y) : x = y := by
  obtain ⟨before, branch, label, after, he, hs, hb⟩ := hx
  obtain ⟨before', branch', label', after', he', hs', hb'⟩ := hy
  have hsame : before = before' ∧ Instruction.jump branch label = .jump branch' label' := by
    rcases split_le (he.symm.trans he') (by omega) with hsame | ⟨more, rfl⟩
    · exact hsame
    · simp only [codeSize_append, codeSize_cons, Entry.size, Instruction.size] at hs'
      omega
  simp only [Instruction.jump.injEq] at hsame
  rw [hsame.2.2] at hb
  exact h.unique hb hb'

/-- No two errors are found. -/
theorem Refused.unique (ht : a.Tracks) {error error' : AssemblyError} (h : a.Refused error)
    (h' : a.Refused error') : error = error' := by
  cases h with
  | @unbound number created loose lowest =>
    cases h' with
    | @unbound number' created' loose' lowest' =>
      have hle : ¬ number < number' := fun hlt => loose (lowest' _ hlt)
      have hge : ¬ number' < number := fun hlt => loose' (lowest _ hlt)
      rw [show number = number' by omega]
    | tooLarge bound => exact absurd (bound _ created) loose
    | tooFar bound => exact absurd (bound _ created) loose
  | tooLarge bound large =>
    cases h' with
    | unbound created loose => exact absurd (bound _ created) loose
    | tooLarge => rfl
    | tooFar _ small => omega
  | @tooFar origin goal bound small jumps far first =>
    cases h' with
    | unbound created loose => exact absurd (bound _ created) loose
    | tooLarge _ large => omega
    | @tooFar origin' goal' _ _ jumps' far' first' =>
      have hle : ¬ origin < origin' := fun hlt => far (first' _ _ jumps hlt)
      have hge : ¬ origin' < origin := fun hlt => far' (first _ _ jumps' hlt)
      have horigin : origin = origin' := by omega
      subst horigin
      rw [ht.jump_unique jumps jumps']

theorem Refused.not_ready {error : AssemblyError} (h : a.Refused error) : ¬ a.Ready := by
  intro hr
  cases h with
  | unbound created loose => exact loose (hr.bound _ created)
  | tooLarge _ large => exact absurd hr.small (by omega)
  | tooFar _ _ jumps far => exact far (hr.near _ _ jumps)

theorem inReach_of_offset {origin goal : Nat} {o : Int16} (h : offset origin goal = .ok o) :
    InReach origin goal := by
  unfold offset at h
  dsimp only at h
  split at h
  · assumption
  · cases h

theorem offset_error {origin goal : Nat} {error : AssemblyError}
    (h : offset origin goal = .error error) :
    error = .branchTooFar origin goal ∧ ¬ InReach origin goal := by
  unfold offset at h
  dsimp only at h
  split at h
  · cases h
  · cases h
    exact ⟨rfl, by assumption⟩

/-- Only jumps can fail to be resolved, and only for their distance. -/
theorem resolve_error {addresses : Array Nat} {address : Nat} {i : Instruction Label}
    {error : AssemblyError} (h : resolve addresses address i = .error error) :
    ∃ branch label, i = .jump branch label ∧
      offset address (addresses.getD label.number 0) = .error error := by
  cases i with
  | jump branch label =>
    simp only [resolve] at h
    cases ho : offset address (addresses.getD label.number 0) with
    | ok o => simp only [ho, Except.map, reduceCtorEq] at h
    | error e =>
      simp only [ho, Except.map, Except.error.injEq] at h
      exact ⟨branch, label, rfl, h ▸ ho⟩
  | _ => cases h

theorem resolve_jump {addresses : Array Nat} {address : Nat} {branch : Branch} {label : Label}
    {j : Instruction Int16} (h : resolve addresses address (.jump branch label) = .ok j) :
    ∃ o, offset address (addresses.getD label.number 0) = .ok o ∧ j = .jump branch o := by
  simp only [resolve] at h
  cases ho : offset address (addresses.getD label.number 0) with
  | error e => simp only [ho, Except.map, reduceCtorEq] at h
  | ok o =>
    simp only [ho, Except.map, Except.ok.injEq] at h
    exact ⟨o, rfl, h.symm⟩

/-- A resolved jump leads to the address of its label. -/
theorem aimed_resolve {addresses : Array Nat} {address : Nat} {i : Instruction Label}
    {j : Instruction Int16} (h : resolve addresses address i = .ok j) :
    aimed (address, j) = i.map fun label => (addresses.getD label.number 0 : Int) := by
  cases i with
  | jump branch label =>
    obtain ⟨o, ho, rfl⟩ := resolve_jump h
    rw [aimed, Instruction.map, Instruction.map, offset_ok ho]
  | _ =>
    cases h
    rfl

/-- Locating fails at the first jump that has no offset. -/
theorem locate_error {addresses : Array Nat} {address : Nat} {entries : List Entry}
    {error : AssemblyError} (h : locate addresses address entries = .error error) :
    ∃ before branch label after found,
      entries = before ++ .instruction (.jump branch label) :: after ∧
      locate addresses address before = .ok found ∧
      offset (address + codeSize before) (addresses.getD label.number 0) = .error error := by
  induction entries generalizing address with
  | nil => cases h
  | cons e entries ih =>
    cases e with
    | label l =>
      obtain ⟨before, branch, label, after, found, rfl, hl, ho⟩ := ih h
      exact ⟨.label l :: before, branch, label, after, found, rfl, hl, by simpa [Entry.size] using ho⟩
    | instruction i =>
      simp only [locate] at h
      cases hr : resolve addresses address i with
      | error e =>
        simp only [hr, Except.bind, Except.error.injEq] at h
        subst h
        obtain ⟨branch, label, rfl, ho⟩ := resolve_error hr
        exact ⟨[], branch, label, entries, [], rfl, rfl, ho⟩
      | ok j =>
        cases hl : locate addresses (address + i.size) entries with
        | ok found => simp [hr, hl, Except.bind, Except.map] at h
        | error e =>
          simp only [hr, hl, Except.bind, Except.map, Except.error.injEq] at h
          subst h
          obtain ⟨before, branch, label, after, found, rfl, hf, ho⟩ := ih hl
          refine ⟨.instruction i :: before, branch, label, after, (address, j) :: found, rfl, ?_, ?_⟩
          · simp [locate, hr, hf, Except.bind, Except.map]
          · simpa [Entry.size, Nat.add_assoc] using ho

/-- The goals of what is located are the addresses of the labels. -/
theorem map_aimed_locate {addresses : Array Nat} {address : Nat} {entries : List Entry}
    {found : List (Nat × Instruction Int16)} (h : locate addresses address entries = .ok found) :
    found.map aimed =
      (emitted entries).map (·.map fun label => (addresses.getD label.number 0 : Int)) := by
  induction entries generalizing address found with
  | nil =>
    cases h
    rfl
  | cons e entries ih =>
    cases e with
    | label l => exact ih h
    | instruction i =>
      obtain ⟨j, rest, hr, hl, rfl⟩ := locate_cons_ok h
      rw [List.map_cons, emitted_instruction, List.map_cons, ih hl, aimed_resolve hr]

theorem length_locate {addresses : Array Nat} {address : Nat} {entries : List Entry}
    {found : List (Nat × Instruction Int16)} (h : locate addresses address entries = .ok found) :
    found.length = (emitted entries).length := by
  simpa using congrArg List.length (map_aimed_locate h)

/-- All jumps that were located reach their goals. -/
theorem inReach_of_locate {addresses : Array Nat} {before after : List Entry} {branch : Branch}
    {label : Label} {found : List (Nat × Instruction Int16)}
    (h : locate addresses 0 (before ++ .instruction (.jump branch label) :: after) = .ok found) :
    InReach (codeSize before) (addresses.getD label.number 0) := by
  obtain ⟨j, hr, _⟩ := locate_mem h
  rw [Nat.zero_add] at hr
  obtain ⟨o, ho, _⟩ := resolve_jump hr
  exact inReach_of_offset ho

/-- What is refused is refused for a reason. -/
theorem Tracks.refused (ht : a.Tracks) (ha : a.Valid) {error : AssemblyError}
    (h : a.finish = .error error) : a.Refused error := by
  unfold finish at h
  split at h
  · rename_i number hn
    cases h
    obtain ⟨hlt, hnone, hbefore⟩ := Array.findIdx?_eq_some_iff_getElem.mp hn
    refine .unbound hlt ?_ ?_
    · intro hx
      obtain ⟨x, hx⟩ := hx
      have hsome := (ht _ _).mpr hx
      simp only [hlt, Array.getElem?_eq_getElem, Option.some.injEq] at hsome
      simp [hsome] at hnone
    · intro n hn
      have hsome := hbefore n hn
      have hlt : n < a.labels.size := Nat.lt_trans hn hlt
      cases hx : a.labels[n] with
      | none => simp [hx] at hsome
      | some x => exact ⟨x, (ht ⟨n⟩ x).mp (by simp [← hx])⟩
  · rename_i hn
    have hbound : a.AllBound := by
      refine ht.allBound_iff.mpr ?_
      intro n hlt
      have hsome := Array.findIdx?_eq_none_iff.mp hn a.labels[n] (Array.getElem_mem hlt)
      cases hx : a.labels[n] with
      | none => simp [hx] at hsome
      | some x => exact ⟨x, by simp [hlt, hx]⟩
    split at h
    · rename_i hlarge
      cases h
      rw [ha.address] at hlarge ⊢
      exact .tooLarge hbound (by omega)
    · rename_i hsmall
      rw [ha.address] at hsmall
      rw [encode_eq] at h
      cases hl : locate (a.labels.map (·.getD 0)) 0 a.entries.toList with
      | ok found => simp [hl, Except.map] at h
      | error e =>
        simp only [hl, Except.map, List.size_toArray, List.length_nil, Except.error.injEq] at h
        subst h
        obtain ⟨before, branch, label, after, found, he, hf, ho⟩ := locate_error hl
        obtain ⟨rfl, hfar⟩ := offset_error ho
        rw [Nat.zero_add] at hfar ⊢
        obtain ⟨z, hz⟩ := hbound _ (ha.jumps branch label (by simp [he]))
        have hgoal : (a.labels.map (·.getD 0)).getD label.number 0 = z := ht.place_eq hz
        rw [hgoal] at hfar ⊢
        refine .tooFar hbound (by omega) ⟨before, branch, label, after, he, rfl, hz⟩ hfar ?_
        intro x y hjumps hlt
        obtain ⟨before', branch', label', after', he', rfl, hy⟩ := hjumps
        rcases split_le (he'.symm.trans he) (by omega) with ⟨rfl, _⟩ | ⟨more, rfl⟩
        · omega
        · have hreach := inReach_of_locate hf
          have hy' : (a.labels.map (·.getD 0)).getD label'.number 0 = y := ht.place_eq hy
          rwa [hy'] at hreach

/-- What is finished was ready. -/
theorem Tracks.ready (ht : a.Tracks) {b : Bytecode} (ha : a.Valid) (h : a.finish = .ok b) :
    a.Ready := by
  obtain ⟨hbound, hsmall, found, hl, _⟩ := finish_ok h
  rw [ha.address] at hsmall
  refine ⟨ht.allBound_iff.mpr hbound, by omega, ?_⟩
  intro origin goal hjumps
  obtain ⟨before, branch, label, after, he, rfl, hg⟩ := hjumps
  rw [he] at hl
  have hreach := inReach_of_locate hl
  have hgoal : (a.labels.map (·.getD 0)).getD label.number 0 = goal := ht.place_eq hg
  rwa [hgoal] at hreach

end Assembly

/-- Where the first instruction behind a label stands in finished code; its end if there is none. -/
def Bytecode.behind (b : Bytecode) (entries : List Entry) (label : Label) : Nat :=
  let before := entries.takeWhile (· ≠ .label label)
  (Sweep.ofCode b.code).addresses[(emitted before).length]?.getD b.code.size

/-- A sweep finds the instructions among entries in their order. Where they name a label, it finds
the distance to the first instruction behind it. -/
structure Bytecode.Renders (b : Bytecode) (entries : List Entry) : Prop where
  whole : (Sweep.ofCode b.code).stop = none
  instructions : (Sweep.ofCode b.code).found.toList.map aimed =
    (emitted entries).map (·.map fun label => (b.behind entries label : Int))

namespace Assembly

variable {a : Assembly} {b : Bytecode}

/-- The part located behind some entries starts at the end of them. -/
theorem locate_first {addresses : Array Nat} {address : Nat} {entries : List Entry}
    {found : List (Nat × Instruction Int16)} (h : locate addresses address entries = .ok found) :
    ((found.map (·.1))[0]?).getD (address + codeSize entries) = address := by
  obtain ⟨hc, hs⟩ := consecutive_locate h
  cases found with
  | nil =>
    have hnone : codeSize entries = 0 := hs.symm
    simp [hnone]
  | cons p found =>
    obtain ⟨x, i⟩ := p
    simpa using hc.1

/-- What stands before the first entry of a label. -/
theorem exists_takeWhile {entries : List Entry} {label : Label} (h : .label label ∈ entries) :
    ∃ after, entries = entries.takeWhile (· ≠ .label label) ++ .label label :: after := by
  induction entries with
  | nil => cases h
  | cons e entries ih =>
    by_cases he : e = .label label
    · exact ⟨entries, by simp [he]⟩
    · obtain ⟨after, hafter⟩ := ih (by simpa [Ne.symm he] using h)
      refine ⟨after, ?_⟩
      rw [List.takeWhile_cons_of_pos (by simpa using he), List.cons_append, ← hafter]

/-- In finished code the first instruction behind a label stands where the label is bound. -/
theorem Tracks.behind_eq (ht : a.Tracks) (ha : a.Valid) (h : a.finish = .ok b) {label : Label}
    {x : Nat} (hx : BoundAt a.entries.toList label x) : b.behind a.entries.toList label = x := by
  obtain ⟨_, _, found, hl, rfl⟩ := finish_ok h
  obtain ⟨hsweep, _, hsize⟩ := ha.sweep_located hl
  have hmem : .label label ∈ a.entries.toList := exists_boundAt_iff.mp ⟨x, hx⟩
  obtain ⟨after, he⟩ := exists_takeWhile hmem
  simp only [Bytecode.behind, Sweep.addresses, hsweep]
  generalize a.entries.toList.takeWhile (· ≠ .label label) = before at he ⊢
  have hsame : codeSize before = x := ht.unique ⟨before, after, he, rfl⟩ hx
  rw [he] at hl
  obtain ⟨front, rest, hfront, hrest, rfl⟩ := locate_append_iff.mp hl
  have hfirst := locate_first hrest
  have hend : codeSize before + codeSize (.label label :: after) = a.address := by
    rw [ha.address, he, codeSize_append]
  rw [← length_locate hfront]
  rw [Nat.zero_add, hend, hsame] at hfirst
  rw [List.map_append, List.getElem?_append_right (by simp), List.length_map, Nat.sub_self,
    List.size_toArray, hsize]
  exact hfirst

/-- Finished code renders what was added. -/
theorem Tracks.renders (ht : a.Tracks) (ha : a.Valid) (h : a.finish = .ok b) :
    b.Renders a.entries.toList := by
  have hready := ht.ready ha h
  have hbehind {label : Label} {x : Nat} (hx : BoundAt a.entries.toList label x) :=
    ht.behind_eq ha h hx
  obtain ⟨_, _, found, hl, rfl⟩ := finish_ok h
  obtain ⟨hsweep, _, _⟩ := ha.sweep_located hl
  refine ⟨by rw [hsweep], ?_⟩
  rw [hsweep, map_aimed_locate hl]
  apply List.map_congr_left
  intro i hi
  cases i with
  | jump branch label =>
    obtain ⟨x, hx⟩ := hready.bound _ (ha.jumps branch label (mem_emitted_iff.mp hi))
    have hplace : (a.labels.map (·.getD 0)).getD label.number 0 = x := ht.place_eq hx
    rw [Instruction.map, Instruction.map, hplace, hbehind hx]
  | _ => rfl

/-- Finishing resolves the labels. It succeeds exactly if the assembly is ready, and otherwise gives
the error that the assembly is refused with; finished code renders what was added. -/
theorem finish_resolves (h : Calls .empty a) :
    ((∃ b, a.finish = .ok b) ↔ a.Ready) ∧ (∀ error, a.finish = .error error ↔ a.Refused error) ∧
    ∀ b, a.finish = .ok b → b.Renders a.entries.toList := by
  have ha : a.Valid := h.valid
  have ht : a.Tracks := h.tracks
  refine ⟨⟨?_, ?_⟩, fun error => ⟨ht.refused ha, ?_⟩, fun b hb => ht.renders ha hb⟩
  · intro hb
    obtain ⟨b, hb⟩ := hb
    exact ht.ready ha hb
  · intro hready
    cases hf : a.finish with
    | ok b => exact ⟨b, rfl⟩
    | error error => exact absurd hready (ht.refused ha hf).not_ready
  · intro hrefused
    cases hf : a.finish with
    | ok b => exact absurd (ht.ready ha hf) hrefused.not_ready
    | error error' => rw [(ht.refused ha hf).unique ht hrefused]

/-- One jump leads back to the label before it, and one on to the label behind it. -/
theorem finish_resolves_loop :
    ∃ a b, Calls .empty a ∧ a.finish = .ok b ∧ b.Renders a.entries.toList ∧
      b.code = #[0x13, 0, 0, 0, 1, 0x99, 0, 6, 0xa7, 0xff, 0xf8, 0xb1] := by
  obtain ⟨a, calls, hfinish⟩ : ∃ a, Calls .empty a ∧ a.finish = .ok ⟨0, #[],
      #[0x13, 0, 0, 0, 1, 0x99, 0, 6, 0xa7, 0xff, 0xf8, 0xb1]⟩ :=
    ⟨_, Relation.ReflTransGen.refl |>.tail .newLabel |>.tail .newLabel |>.tail (.bind ⟨0⟩)
      |>.tail (.pushInt 1) |>.tail (.jump (.zero .equal) ⟨1⟩) |>.tail (.jump .goto ⟨0⟩)
      |>.tail (.bind ⟨1⟩) |>.tail (.op .ret), by decide +kernel⟩
  exact ⟨a, _, calls, hfinish, (finish_resolves calls).2.2 _ hfinish, rfl⟩

end Assembly

end BlockLang
