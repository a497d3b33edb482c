import Mathlib.Data.List.Induction
import Mathlib.Order.Bounds.Basic
import BlockLang.Proofs.Typing.Stmt

namespace BlockLang

namespace Context

/-- What can be asked of a context. -/
inductive Call where
  | push
  | pop
  | declare (name : String) (ty : Ty) (line : Nat)
  | lookup (name : String)

/-- The context a call leaves. To look a name up changes nothing. -/
def run (ctx : Context) : Call → Context
  | .push => ctx.push
  | .pop => ctx.pop
  | .declare name ty line => (ctx.declare name ty line).2
  | .lookup _ => ctx

/-- The context after the calls, from a new one on. -/
def replay (typing : BranchTyping) (calls : List Call) : Context :=
  calls.foldl run (new typing)

/-- How many scopes there are around the innermost one after a call. The outermost one stays. -/
def Call.depth (depth : Nat) : Call → Nat
  | push => depth + 1
  | pop => depth - 1
  | declare _ _ _ => depth
  | lookup _ => depth

def depth (calls : List Call) : Nat :=
  calls.foldl Call.depth 0

/-- The innermost scope, with so many around it, is open during all of the calls. -/
def StaysOpen (depth : Nat) (calls : List Call) : Prop :=
  ∀ part, part <+: calls → depth ≤ part.foldl Call.depth depth

/-- All scopes that the calls open they close, and no others. -/
def Balanced (depth : Nat) (calls : List Call) : Prop :=
  StaysOpen depth calls ∧ calls.foldl Call.depth depth = depth

/-- Of the calls, the one that comes after `before` gave the name its binding, and the scope it did
that in is still open. -/
def Declares (typing : BranchTyping) (calls before : List Call) (name : String) (binding : Binding) :
    Prop :=
  ∃ line after, calls = before ++ .declare name binding.ty line :: after ∧
    ((replay typing before).declare name binding.ty line).1 = some binding.slot ∧
    StaysOpen (depth before) after

/-- No later declaration of the name is in a scope that is still open. -/
def DeclaresLast (typing : BranchTyping) (calls : List Call) (name : String) (binding : Binding) :
    Prop :=
  ∃ before, Declares typing calls before name binding ∧
    ∀ other binding', Declares typing calls other name binding' → other.length ≤ before.length

/-- The bindings of all open scopes. -/
def bindings (ctx : Context) : List (String × Binding) :=
  ctx.scopes.flatMap (·.names.toList)

/-- What holds after the calls, whichever they were. -/
structure Allocates (typing : BranchTyping) (calls : List Call) : Prop where
  slots : ((replay typing calls).bindings.map (·.2.slot.toNat)).Perm
    (List.range (replay typing calls).nextSlot)
  room : (replay typing calls).nextSlot ≤ (replay typing calls).maxLocals
  limit : (replay typing calls).maxLocals ≤ 65535
  peak : IsGreatest {n | ∃ before, before <+: calls ∧ (replay typing before).bindings.length = n}
    (replay typing calls).maxLocals
  lookup : ∀ name binding, (replay typing calls).lookup? name = some binding ↔
    DeclaresLast typing calls name binding
  refused : ∀ name ty line, ((replay typing calls).declare name ty line).1 = none ↔
    (replay typing calls).innermost.names.contains name = true ∨
      (replay typing calls).bindings.length = 65535
  reported : ∀ name ty line, ((replay typing calls).declare name ty line).1 = none →
    ((replay typing calls).declare name ty line).2 = (replay typing calls).report line
      (if (replay typing calls).innermost.names.contains name then .redeclared name else .tooManyLocals)
  restored : ∀ before inner, calls = before ++ .push :: inner ++ [.pop] →
    Balanced (depth before + 1) inner →
    (replay typing calls).nextSlot = (replay typing before).nextSlot ∧
      ∀ name, (replay typing calls).lookup? name = (replay typing before).lookup? name
  outermost : depth calls = 0 → (replay typing calls).pop = replay typing calls

variable {ctx : Context} {typing : BranchTyping} {calls before : List Call} {name : String}
  {binding : Binding}

theorem replay_append (typing : BranchTyping) (calls more : List Call) :
    replay typing (calls ++ more) = more.foldl run (replay typing calls) :=
  List.foldl_append

theorem replay_concat (typing : BranchTyping) (calls : List Call) (c : Call) :
    replay typing (calls ++ [c]) = (replay typing calls).run c :=
  replay_append typing calls [c]

theorem depth_append (calls more : List Call) :
    depth (calls ++ more) = more.foldl Call.depth (depth calls) :=
  List.foldl_append

/-- The slots of the scopes, from the innermost outwards, are those before the next one. -/
inductive Stacked : Nat → List Scope → Prop
  | nil : Stacked 0 []
  | cons {scope : Scope} {around : List Scope} {next : Nat}
      (first : scope.firstSlot ≤ next)
      (slots : (scope.names.toList.map (·.2.slot.toNat)).Perm
        (List.range' scope.firstSlot (next - scope.firstSlot)))
      (rest : Stacked scope.firstSlot around) : Stacked next (scope :: around)

theorem Stacked.slots {next : Nat} {scopes : List Scope} (h : Stacked next scopes) :
    ((scopes.flatMap (·.names.toList)).map (·.2.slot.toNat)).Perm (List.range next) := by
  induction h with
  | nil => exact .refl _
  | @cons scope around next first slots rest ih =>
    have hrange : List.range next =
        List.range scope.firstSlot ++ List.range' scope.firstSlot (next - scope.firstSlot) := by
      rw [List.range_eq_range', List.range_eq_range', ← Nat.add_sub_cancel' first,
        Nat.add_sub_cancel_left, ← List.range'_append, Nat.one_mul, Nat.zero_add]
    rw [List.flatMap_cons, List.map_append, hrange]
    exact (slots.append ih).trans List.perm_append_comm

/-- A name that is new in the innermost scope takes the next slot. -/
theorem Stacked.insert {scope : Scope} {around : List Scope} {next : Nat}
    (h : Stacked next (scope :: around)) (new : scope.names[name]? = none)
    (slot : binding.slot.toNat = next) :
    Stacked (next + 1) (⟨scope.names.insert name binding, scope.firstSlot⟩ :: around) := by
  cases h with
  | cons first slots rest =>
    refine .cons (Nat.le_succ_of_le first) ?_ rest
    have hfilter : scope.names.toList.filter (fun p => decide ¬(name == p.1) = true) =
        scope.names.toList := by
      refine List.filter_eq_self.mpr fun p hp => ?_
      have hfound : scope.names[p.1]? = some p.2 := Std.TreeMap.mem_toList_iff_getElem?_eq_some.mp hp
      have hne : name ≠ p.1 := fun he => by
        rw [← he, new] at hfound
        cases hfound
      simpa using hne
    have hinsert : (scope.names.insert name binding).toList.Perm
        ((name, binding) :: scope.names.toList) :=
      hfilter ▸ Std.TreeMap.toList_insert_perm
    have hrange : List.range' scope.firstSlot (next + 1 - scope.firstSlot) =
        List.range' scope.firstSlot (next - scope.firstSlot) ++ [next] := by
      rw [Nat.succ_sub first, List.range'_concat, Nat.one_mul, Nat.add_sub_cancel' first]
    refine (hinsert.map _).trans ?_
    rw [hrange, List.map_cons, slot]
    exact (slots.cons next).trans (List.perm_append_singleton _ _).symm

theorem Stacked.empty {next : Nat} {around : List Scope} (h : Stacked next around) :
    Stacked next (.empty next :: around) := by
  refine .cons (Nat.le_refl _) ?_ h
  have hnone : (Scope.empty next).names.toList = [] := rfl
  rw [hnone]
  simp [Scope.empty]

/-- What every call preserves. -/
structure Sound (ctx : Context) : Prop where
  stacked : Stacked ctx.nextSlot ctx.scopes
  room : ctx.nextSlot ≤ ctx.maxLocals
  limit : ctx.maxLocals ≤ slotLimit

theorem Sound.new (typing : BranchTyping) : (new typing).Sound :=
  ⟨.empty .nil, Nat.le_refl _, Nat.zero_le _⟩

theorem Sound.run (h : ctx.Sound) (c : Call) : (ctx.run c).Sound := by
  obtain ⟨stacked, room, limit⟩ := h
  cases c with
  | push => exact ⟨stacked.empty, room, limit⟩
  | pop =>
    obtain ⟨innermost, outer, next, most, typing, diagnostics⟩ := ctx
    cases outer with
    | nil => exact ⟨stacked, room, limit⟩
    | cons scope around =>
      cases stacked with
      | cons first slots rest => exact ⟨rest, first.trans room, limit⟩
  | declare name ty line =>
    change (ctx.declare name ty line).2.Sound
    cases hslot : (ctx.declare name ty line).1 with
    | none =>
      rw [declare_eq_none hslot]
      exact ⟨stacked, room, limit⟩
    | some slot =>
      obtain ⟨new, hnext, hroom, he⟩ := declare_eq_some hslot
      rw [he]
      exact ⟨stacked.insert new hnext, Nat.le_max_right _ _, Nat.max_le.mpr ⟨limit, hroom⟩⟩
  | lookup name => exact ⟨stacked, room, limit⟩

theorem Sound.bindings_length (h : ctx.Sound) : ctx.bindings.length = ctx.nextSlot := by
  have hlength := h.stacked.slots.length_eq
  rwa [List.length_map, List.length_range] at hlength

theorem sound_replay (typing : BranchTyping) (calls : List Call) : (replay typing calls).Sound := by
  induction calls using List.reverseRecOn with
  | nil => exact .new typing
  | append_singleton calls c ih =>
    rw [replay_concat]
    exact ih.run c

/-- The peak rises only with the number of open bindings. -/
theorem Sound.maxLocals_run (h : ctx.Sound) (c : Call) :
    (ctx.run c).maxLocals = max (ctx.run c).nextSlot ctx.maxLocals := by
  have hroom := (h.run c).room
  cases c with
  | push => exact (Nat.max_eq_right h.room).symm
  | lookup name => exact (Nat.max_eq_right h.room).symm
  | pop =>
    have hsame : ctx.pop.maxLocals = ctx.maxLocals := by
      unfold pop
      split <;> rfl
    change ctx.pop.nextSlot ≤ ctx.pop.maxLocals at hroom
    change ctx.pop.maxLocals = max ctx.pop.nextSlot ctx.maxLocals
    rw [hsame] at hroom ⊢
    exact (Nat.max_eq_right hroom).symm
  | declare name ty line =>
    change (ctx.declare name ty line).2.maxLocals =
      max (ctx.declare name ty line).2.nextSlot ctx.maxLocals
    cases hslot : (ctx.declare name ty line).1 with
    | none =>
      rw [declare_eq_none hslot]
      exact (Nat.max_eq_right h.room).symm
    | some slot =>
      rw [(declare_eq_some hslot).2.2.2]
      exact Nat.max_comm _ _

theorem peak_replay (typing : BranchTyping) (calls : List Call) :
    IsGreatest {n | ∃ before, before <+: calls ∧ (replay typing before).bindings.length = n}
      (replay typing calls).maxLocals := by
  induction calls using List.reverseRecOn with
  | nil =>
    refine ⟨⟨[], List.prefix_rfl, (Sound.new typing).bindings_length⟩, ?_⟩
    rintro n ⟨before, hprefix, rfl⟩
    rw [List.prefix_nil.mp hprefix]
    exact ((Sound.new typing).bindings_length).le
  | append_singleton calls c ih =>
    have hset : {n | ∃ before, before <+: calls ++ [c] ∧
          (Context.replay typing before).bindings.length = n} =
        insert (Context.replay typing (calls ++ [c])).nextSlot
          {n | ∃ before, before <+: calls ∧ (Context.replay typing before).bindings.length = n} := by
      ext n
      simp only [List.prefix_concat_iff, Set.mem_ofPred_eq, Set.mem_insert_iff, or_and_right,
        exists_or, exists_eq_left, (sound_replay typing _).bindings_length, eq_comm (a := n)]
    rw [hset, replay_concat, (sound_replay typing calls).maxLocals_run c]
    exact ih.insert _

section Levels

theorem depth_run (ctx : Context) (c : Call) :
    (ctx.run c).outer.length = c.depth ctx.outer.length := by
  cases c with
  | push => rfl
  | lookup name => rfl
  | pop =>
    obtain ⟨innermost, outer, next, most, typing, diagnostics⟩ := ctx
    cases outer <;> rfl
  | declare name ty line => exact congrArg List.length (ctx.keeps_declare name ty line).outer

theorem outer_length_replay (typing : BranchTyping) (calls : List Call) :
    (replay typing calls).outer.length = depth calls := by
  induction calls using List.reverseRecOn with
  | nil => rfl
  | append_singleton calls c ih =>
    rw [replay_concat, depth_run, ih, depth_append]
    rfl

/-- A scope that stays open keeps its first slot and what is around it. -/
theorem suffix_run {scope : Scope} {around : List Scope} (h : scope :: around <:+ ctx.scopes)
    {c : Call} (hopen : around.length ≤ c.depth ctx.outer.length) :
    ∃ scope', scope'.firstSlot = scope.firstSlot ∧ scope' :: around <:+ (ctx.run c).scopes := by
  cases c with
  | push => exact ⟨scope, rfl, h.trans (List.suffix_cons _ _)⟩
  | lookup name => exact ⟨scope, rfl, h⟩
  | pop =>
    obtain ⟨innermost, outer, next, most, typing, diagnostics⟩ := ctx
    cases outer with
    | nil => exact ⟨scope, rfl, h⟩
    | cons next outer =>
      rcases List.suffix_cons_iff.mp h with he | hs
      · -- the innermost scope itself is closed
        cases he
        exact absurd hopen (Nat.not_succ_le_self _)
      · exact ⟨scope, rfl, hs⟩
  | declare name ty line =>
    have hscopes : (ctx.run (.declare name ty line)).scopes =
        (ctx.declare name ty line).2.innermost :: ctx.outer :=
      congrArg _ (ctx.keeps_declare name ty line).outer
    rw [hscopes]
    rcases List.suffix_cons_iff.mp h with he | hs
    · cases he
      exact ⟨_, (ctx.keeps_declare name ty line).first, List.suffix_rfl⟩
    · exact ⟨scope, rfl, hs.trans (List.suffix_cons _ _)⟩

theorem StaysOpen.append {depth : Nat} {more : List Call} (h : StaysOpen depth (calls ++ more)) :
    StaysOpen depth calls :=
  fun part hpart => h part (hpart.trans (List.prefix_append _ _))

theorem staysOpen_concat_iff {n : Nat} {c : Call} :
    StaysOpen n (calls ++ [c]) ↔
      StaysOpen n calls ∧ n ≤ (calls ++ [c]).foldl Call.depth n := by
  constructor
  · exact fun h => ⟨h.append, h _ List.prefix_rfl⟩
  · rintro ⟨hcalls, hlast⟩ part hpart
    rcases List.prefix_concat_iff.mp hpart with rfl | hpart
    · exact hlast
    · exact hcalls part hpart

/-- What is around a scope is as it was when the scope was opened, and so is its first slot. -/
theorem suffix_replay (typing : BranchTyping) {inner : List Call} (h : StaysOpen (depth before + 1) inner) :
    ∃ scope, scope.firstSlot = (replay typing before).nextSlot ∧
      scope :: (replay typing before).scopes <:+ (replay typing (before ++ .push :: inner)).scopes := by
  induction inner using List.reverseRecOn with
  | nil =>
    rw [replay_concat]
    exact ⟨.empty _, rfl, List.suffix_rfl⟩
  | append_singleton inner c ih =>
    obtain ⟨hinner, hlast⟩ := staysOpen_concat_iff.mp h
    obtain ⟨scope, hfirst, hs⟩ := ih hinner
    have hdepth : (replay typing (before ++ .push :: inner)).outer.length =
        inner.foldl Call.depth (depth before + 1) := by
      rw [outer_length_replay, depth_append]
      rfl
    have hopen : (replay typing before).scopes.length ≤
        c.depth (replay typing (before ++ .push :: inner)).outer.length := by
      rw [hdepth, scopes, List.length_cons, outer_length_replay]
      rwa [List.foldl_append] at hlast
    obtain ⟨scope', hfirst', hs'⟩ := suffix_run hs hopen
    rw [← List.cons_append, ← List.append_assoc, replay_concat]
    exact ⟨scope', hfirst'.trans hfirst, hs'⟩

/-- When the call that closes a scope is reached, all scopes around it are as they were. -/
theorem pop_replay (typing : BranchTyping) {inner : List Call} (h : Balanced (depth before + 1) inner) :
    (replay typing (before ++ .push :: inner ++ [.pop])).scopes = (replay typing before).scopes ∧
      (replay typing (before ++ .push :: inner ++ [.pop])).nextSlot =
        (replay typing before).nextSlot := by
  obtain ⟨scope, hfirst, hs⟩ := suffix_replay typing h.1
  have hlength : (replay typing (before ++ .push :: inner)).outer.length = depth before + 1 := by
    rw [outer_length_replay, depth_append]
    exact h.2
  have hscopes := hs.eq_of_length (by
    rw [scopes, scopes, List.length_cons, List.length_cons, List.length_cons, hlength,
      outer_length_replay])
  rw [scopes, scopes, List.cons.injEq] at hscopes
  rw [replay_concat, run, pop, ← hscopes.2]
  exact ⟨rfl, (congrArg Scope.firstSlot hscopes.1.symm).trans hfirst⟩

end Levels

section Names

/-- The scope with so many scopes around it gives the name its binding. -/
def BoundAt (name : String) (binding : Binding) (depth : Nat) : List Scope → Prop
  | [] => False
  | scope :: around =>
    (around.length = depth ∧ scope.names[name]? = some binding) ∨ BoundAt name binding depth around

theorem BoundAt.lt {depth : Nat} {scopes : List Scope} (h : BoundAt name binding depth scopes) :
    depth < scopes.length := by
  induction scopes with
  | nil => cases h
  | cons scope around ih =>
    rcases h with ⟨rfl, _⟩ | h
    · exact Nat.lt_succ_self _
    · exact (ih h).trans (Nat.lt_succ_self _)

theorem BoundAt.innermost {scope : Scope} {around : List Scope}
    (h : BoundAt name binding around.length (scope :: around)) : scope.names[name]? = some binding := by
  rcases h with ⟨_, h⟩ | h
  · exact h
  · exact absurd h.lt (Nat.lt_irrefl _)

/-- A name that is looked up has the binding of the deepest scope that binds it. -/
theorem lookup_iff (scopes : List Scope) :
    scopes.findSome? (·.names[name]?) = some binding ↔
      ∃ depth, BoundAt name binding depth scopes ∧
        ∀ depth' binding', BoundAt name binding' depth' scopes → depth' ≤ depth := by
  induction scopes with
  | nil => simp [BoundAt]
  | cons scope around ih =>
    rw [List.findSome?_cons]
    cases hfound : scope.names[name]? with
    | none => simp [BoundAt, hfound, ih]
    | some found =>
      constructor
      · intro h
        cases h
        exact ⟨around.length, .inl ⟨rfl, hfound⟩, fun _ _ h => Nat.le_of_lt_succ h.lt⟩
      · rintro ⟨depth, hbound, hdeepest⟩
        have hdepth : depth = around.length :=
          Nat.le_antisymm (Nat.le_of_lt_succ hbound.lt) (hdeepest _ _ (.inl ⟨rfl, hfound⟩))
        subst hdepth
        exact hfound.symm.trans hbound.innermost

/-- After a call a scope that is still open binds what it did, and what the call declared in it. -/
theorem boundAt_run (ctx : Context) (c : Call) (depth : Nat) :
    BoundAt name binding depth (ctx.run c).scopes ↔
      (BoundAt name binding depth ctx.scopes ∧ depth ≤ c.depth ctx.outer.length) ∨
      (depth = ctx.outer.length ∧ ∃ line, c = .declare name binding.ty line ∧
        (ctx.declare name binding.ty line).1 = some binding.slot) := by
  have hle : BoundAt name binding depth ctx.scopes → depth ≤ ctx.outer.length :=
    fun h => Nat.le_of_lt_succ h.lt
  cases c with
  | push =>
    have hempty := Scope.names_empty ctx.nextSlot name
    change (_ ∧ (Scope.empty ctx.nextSlot).names[name]? = some binding) ∨ BoundAt _ _ _ ctx.scopes ↔ _
    simpa [hempty, Call.depth] using fun h => (hle h).trans (Nat.le_succ _)
  | lookup other => simpa [run, Call.depth] using hle
  | pop =>
    obtain ⟨innermost, outer, next, most, typing, diagnostics⟩ := ctx
    cases outer with
    | nil => simpa [run, Call.depth, pop] using hle
    | cons scope around =>
      constructor
      · exact fun h => .inl ⟨.inr h, Nat.le_of_lt_succ h.lt⟩
      · rintro (⟨⟨rfl, _⟩ | h, hopen⟩ | ⟨_, _, hc, _⟩)
        · exact absurd hopen (Nat.not_succ_le_self _)
        · exact h
        · cases hc
  | declare other ty line =>
    change BoundAt name binding depth (ctx.declare other ty line).2.scopes ↔ _
    cases hslot : (ctx.declare other ty line).1 with
    | none =>
      rw [declare_eq_none hslot]
      constructor
      · exact fun h => .inl ⟨h, hle h⟩
      · rintro (h | ⟨_, _, hc, h⟩)
        · exact h.1
        · cases hc
          rw [hslot] at h
          cases h
    | some slot =>
      obtain ⟨hnew, _, _, he⟩ := declare_eq_some hslot
      rw [he]
      change (_ ∧ (ctx.innermost.names.insert other ⟨slot, ty⟩)[name]? = some binding) ∨ _ ↔ _
      rw [Scope.names_insert]
      by_cases hname : other = name
      · subst hname
        rw [if_pos rfl]
        constructor
        · rintro (⟨hdepth, hb⟩ | h)
          · cases hb
            exact .inr ⟨hdepth.symm, line, rfl, hslot⟩
          · exact .inl ⟨.inr h, hle (.inr h)⟩
        · rintro (⟨⟨_, h⟩ | h, _⟩ | ⟨hdepth, _, hc, h⟩)
          · rw [hnew] at h
            cases h
          · exact .inr h
          · cases hc
            rw [hslot] at h
            cases h
            exact .inl ⟨hdepth.symm, rfl⟩
      · rw [if_neg hname]
        constructor
        · exact fun h => .inl ⟨h, hle h⟩
        · rintro (h | ⟨_, _, hc, _⟩)
          · exact h.1
          · cases hc
            exact absurd rfl hname

theorem declares_concat_iff {c : Call} :
    Declares typing (calls ++ [c]) before name binding ↔
      (Declares typing calls before name binding ∧ depth before ≤ depth (calls ++ [c])) ∨
      (before = calls ∧ ∃ line, c = .declare name binding.ty line ∧
        ((replay typing calls).declare name binding.ty line).1 = some binding.slot) := by
  have hdepth (line : Nat) (after : List Call) :
      depth (before ++ .declare name binding.ty line :: after) =
        after.foldl Call.depth (depth before) :=
    depth_append before _
  constructor
  · rintro ⟨line, after, he, hslot, hopen⟩
    rcases List.eq_nil_or_concat after with rfl | ⟨init, last, rfl⟩
    · obtain ⟨rfl, hc⟩ := List.append_singleton_inj.mp he
      exact .inr ⟨rfl, line, hc, hslot⟩
    · rw [List.concat_eq_append] at he hopen
      rw [← List.cons_append, ← List.append_assoc] at he
      obtain ⟨rfl, rfl⟩ := List.append_singleton_inj.mp he
      obtain ⟨hinit, hlast⟩ := staysOpen_concat_iff.mp hopen
      refine .inl ⟨⟨line, init, rfl, hslot, hinit⟩, ?_⟩
      rwa [List.append_assoc, List.cons_append, hdepth]
  · rintro (⟨⟨line, after, rfl, hslot, hopen⟩, hlast⟩ | ⟨rfl, line, rfl, hslot⟩)
    · rw [List.append_assoc, List.cons_append, hdepth] at hlast
      exact ⟨line, after ++ [c], by rw [List.append_assoc, List.cons_append], hslot,
        staysOpen_concat_iff.mpr ⟨hopen, hlast⟩⟩
    · refine ⟨line, [], rfl, hslot, fun part hpart => ?_⟩
      rw [List.prefix_nil.mp hpart]
      exact Nat.le_refl _

/-- The open scopes bind what was declared in them. -/
theorem boundAt_replay (typing : BranchTyping) (calls : List Call) (n : Nat) :
    BoundAt name binding n (replay typing calls).scopes ↔
      ∃ before, Declares typing calls before name binding ∧ depth before = n := by
  induction calls using List.reverseRecOn with
  | nil =>
    constructor
    · rintro (⟨_, h⟩ | h)
      · cases (Scope.names_empty 0 name).symm.trans h
      · cases h
    · rintro ⟨before, ⟨line, after, he, _⟩, _⟩
      exact absurd he (by simp)
  | append_singleton calls c ih =>
    rw [replay_concat, boundAt_run, ih, outer_length_replay]
    have hdepth : depth (calls ++ [c]) = c.depth (depth calls) := depth_append calls [c]
    constructor
    · rintro (⟨⟨before, hd, rfl⟩, hopen⟩ | ⟨rfl, hc⟩)
      · exact ⟨before, declares_concat_iff.mpr (.inl ⟨hd, hdepth ▸ hopen⟩), rfl⟩
      · exact ⟨calls, declares_concat_iff.mpr (.inr ⟨rfl, hc⟩), rfl⟩
    · rintro ⟨before, hd, rfl⟩
      rcases declares_concat_iff.mp hd with ⟨hd, hopen⟩ | ⟨rfl, hc⟩
      · exact .inl ⟨⟨before, hd, rfl⟩, hdepth ▸ hopen⟩
      · exact .inr ⟨rfl, hc⟩

theorem Declares.isPrefix (h : Declares typing calls before name binding) : before <+: calls := by
  obtain ⟨line, after, rfl, _⟩ := h
  exact List.prefix_append _ _

/-- Of two declarations of a name in open scopes the later one is in the deeper scope. -/
theorem Declares.depth_lt {later : List Call} {binding' : Binding}
    (h : Declares typing calls before name binding) (h' : Declares typing calls later name binding')
    (hlater : before.length < later.length) : depth before < depth later := by
  obtain ⟨line, after, rfl, hslot, hopen⟩ := h
  obtain ⟨line', after', he, hslot', _⟩ := h'
  -- between the two calls the scope of the first one is open
  obtain ⟨part, rfl, rfl⟩ : ∃ part, later = before ++ .declare name binding.ty line :: part ∧
      after = part ++ .declare name binding'.ty line' :: after' := by
    rcases List.append_eq_append_iff.mp he with ⟨part, rfl, hpart⟩ | ⟨part, rfl, _⟩
    · cases part with
      | nil => simp at hlater
      | cons first part =>
        obtain ⟨rfl, rfl⟩ := List.cons.inj hpart
        exact ⟨part, rfl, rfl⟩
    · rw [List.length_append] at hlater
      omega
  have hd : Declares typing (before ++ .declare name binding.ty line :: part) before name binding :=
    ⟨line, part, rfl, hslot, hopen.append⟩
  have hdepth : depth (before ++ .declare name binding.ty line :: part) =
      part.foldl Call.depth (depth before) := depth_append before _
  rcases Nat.lt_or_eq_of_le (hopen.append part List.prefix_rfl) with hlt | heq
  · rwa [hdepth]
  · -- the second one would be refused, as the scope has the name
    have hbound := (boundAt_replay typing _ _).mpr ⟨before, hd, rfl⟩
    rw [heq, ← hdepth, ← outer_length_replay typing] at hbound
    cases (declare_eq_some hslot').1.symm.trans hbound.innermost

theorem lookup_replay (typing : BranchTyping) (calls : List Call) (name : String)
    (binding : Binding) :
    (replay typing calls).lookup? name = some binding ↔ DeclaresLast typing calls name binding := by
  rw [lookup?, lookup_iff]
  constructor
  · rintro ⟨_, hbound, hdeepest⟩
    obtain ⟨before, hd, rfl⟩ := (boundAt_replay typing calls _).mp hbound
    refine ⟨before, hd, fun other binding' h => Nat.le_of_not_lt fun hlt => ?_⟩
    have hle := hdeepest _ _ ((boundAt_replay typing calls _).mpr ⟨other, h, rfl⟩)
    exact absurd (hd.depth_lt h hlt) (Nat.not_lt.mpr hle)
  · rintro ⟨before, hd, hlast⟩
    refine ⟨depth before, (boundAt_replay typing calls _).mpr ⟨before, hd, rfl⟩, ?_⟩
    intro _ binding' hbound
    obtain ⟨other, h, rfl⟩ := (boundAt_replay typing calls _).mp hbound
    rcases Nat.lt_or_eq_of_le (hlast other binding' h) with hlt | heq
    · exact (h.depth_lt hd hlt).le
    · have hsame := List.prefix_of_prefix_length_le h.isPrefix hd.isPrefix heq.le
      rw [hsame.eq_of_length heq]

end Names

/-- After any calls the open scopes share out the slots, the peak is what was open at once, and names
are looked up, refused and restored as they are declared. -/
theorem replay_allocates (typing : BranchTyping) (calls : List Call) : Allocates typing calls := by
  have hsound := sound_replay typing calls
  refine
    { slots := hsound.stacked.slots
      room := hsound.room
      limit := hsound.limit
      peak := peak_replay typing calls
      lookup := lookup_replay typing calls
      refused := fun name ty line => ?refused
      reported := fun name ty line => declare_eq_none
      restored := ?restored
      outermost := fun hdepth => ?outermost }
  case refused =>
    have hfull : (replay typing calls).nextSlot ≤ slotLimit := hsound.room.trans hsound.limit
    rw [declare_eq_none_iff, hsound.bindings_length]
    exact or_congr_right ⟨hfull.antisymm, Eq.ge⟩
  case restored =>
    rintro before inner rfl hbalanced
    obtain ⟨hscopes, hnext⟩ := pop_replay typing hbalanced
    refine ⟨hnext, fun name => ?_⟩
    rw [lookup?, lookup?, hscopes]
  case outermost =>
    rw [← outer_length_replay typing, List.length_eq_zero_iff] at hdepth
    rw [pop, hdepth]

/-- A name is hidden while an inner scope declares it, and that scope's slot is free afterwards. -/
example :
    let ctx := replay .identical
      [.pop, .declare "a" .int 1, .push, .declare "a" .boolean 2, .declare "a" .int 3]
    ctx.lookup? "a" = some ⟨1, .boolean⟩ ∧ ctx.diagnostics = #[⟨3, .redeclared "a"⟩] ∧
      ctx.pop.lookup? "a" = some ⟨0, .int⟩ ∧ ctx.pop.nextSlot = 1 ∧ ctx.pop.maxLocals = 2 := by
  decide

end Context

end BlockLang
