import BlockLang.Proofs.Evaluator.Stmt
import BlockLang.Proofs.Layout.Stmt
import BlockLang.Proofs.Simulation.Expr

namespace BlockLang

open Machine

variable {b : Bytecode} {fuel : Nat} {view view' : View} {mem : Memory}
  {locals : Array (Option Value)} {stack : Stack} {printed : Array String} {x y : Nat}

/-- The machine is about to load the slot of a declaration, and `left` is what the slot holds. -/
structure Machine.State.Reads (b : Bytecode) (d : Declared) (left : Option Value) (s : State) :
    Prop where
  loads : ∃ kind next, d.ty.kind? = some kind ∧ b.At s.pc (.access (.load kind) d.slot) next
  holds : s.locals[d.slot.toNat]? = some left

/-- What the machine does where an evaluation stops: it comes to divide by zero, or to read the slot
of the declaration, or it makes at least as many steps as there was fuel. -/
def Stop.Fails (b : Bytecode) (fuel : Nat) : Stop → State → Prop
  | .divisionByZero, s => ∃ n t address, Steps b n s t ∧ step b t = .error (.divisionByZero address)
  | .unassigned d left, s => ∃ n t, Steps b n s t ∧ t.Reads b d left
  | .exhausted, s => ∃ n t, fuel ≤ n ∧ Steps b n s t
  | .stuck, _ => False

namespace Stop

/-- Steps in front of a fault count as fuel. -/
theorem Fails.step {stop : Stop} {s t : State} (hs : Machine.step b s = .ok (.next t))
    (h : stop.Fails b fuel t) : stop.Fails b (fuel + 1) s := by
  cases stop with
  | divisionByZero =>
    obtain ⟨n, u, address, hn, hu⟩ := h
    exact ⟨n + 1, u, address, ⟨t, hs, hn⟩, hu⟩
  | unassigned d left =>
    obtain ⟨n, u, hn, hu⟩ := h
    exact ⟨n + 1, u, ⟨t, hs, hn⟩, hu⟩
  | exhausted =>
    obtain ⟨n, u, hle, hn⟩ := h
    exact ⟨n + 1, u, Nat.succ_le_succ hle, ⟨t, hs, hn⟩⟩
  | stuck => exact h

theorem Fails.less {fuel' : Nat} (hle : fuel' ≤ fuel) {stop : Stop} {s : State}
    (h : stop.Fails b fuel s) : stop.Fails b fuel' s := by
  cases stop with
  | exhausted =>
    obtain ⟨n, u, hn, hs⟩ := h
    exact ⟨n, u, Nat.le_trans hle hn, hs⟩
  | _ => exact h

theorem backward_fails : Backward b (Fails b fuel) :=
  fun _ _ _ hs h => (h.step hs).less (Nat.le_succ fuel)

end Stop

namespace Memory

/-- Locals hold what was last stored in each slot, and that is the value of every assigned
declaration in view. -/
structure Agrees (b : Bytecode) (view : View) (mem : Memory) (locals : Array (Option Value)) :
    Prop where
  size : locals.size = b.maxLocals.toNat
  slots : ∀ n, n < locals.size → locals[n]? = some (mem.slots n)
  cells : ∀ p ∈ view.names, ∀ value, mem.cells p.2.number = some value →
    mem.slots p.2.slot.toNat = some value ∧ p.2.ty.kind? = some value.kind

theorem Agrees.shrink (h : mem.Agrees b view' locals) (hn : ∀ p ∈ view.names, p ∈ view'.names) :
    mem.Agrees b view locals :=
  ⟨h.size, h.slots, fun p hp => h.cells p (hn p hp)⟩

theorem Agrees.start (b : Bytecode) :
    empty.Agrees b .empty (Array.replicate b.maxLocals.toNat none) :=
  ⟨by simp, fun n hn => by simp at hn; simp [empty, hn], nofun⟩

theorem Agrees.print (h : mem.Agrees b view locals) (printed : Array String) :
    Agrees b view { mem with printed := printed } locals :=
  ⟨h.size, h.slots, h.cells⟩

/-- Assigning a declaration is storing in its slot, and changes no other declaration in view. -/
theorem Agrees.assign (h : mem.Agrees b view locals) {d : Declared} {value : Value}
    (hk : d.ty.kind? = some value.kind)
    (ha : ∀ p ∈ view.names, p.2 = d ∨ (p.2.number ≠ d.number ∧ p.2.slot ≠ d.slot)) :
    (mem.assign d value).Agrees b view (locals.setIfInBounds d.slot.toNat (some value)) := by
  refine ⟨by simp [h.size], ?_, ?_⟩
  · intro n hn
    rw [Array.size_setIfInBounds] at hn
    rw [Array.getElem?_setIfInBounds]
    by_cases hd : d.slot.toNat = n
    · simp [Memory.assign, hd, hn]
    · simp [Memory.assign, hd, Ne.symm hd, h.slots n hn]
  · intro p hp v hv
    rcases ha p hp with rfl | ⟨hnum, hslot⟩
    · simp only [Memory.assign, if_true, Option.some.injEq] at hv ⊢
      subst hv
      exact ⟨rfl, hk⟩
    · have hne : p.2.slot.toNat ≠ d.slot.toNat := fun he => hslot (UInt16.toNat_inj.mp he)
      simp only [Memory.assign, if_neg hnum, if_neg hne] at hv ⊢
      exact h.cells p hp v hv

/-- A declaration that comes into view is unassigned. -/
theorem Agrees.declare (h : mem.Agrees b view locals) (hv : view.Valid) (d : Declarator) :
    (mem.unassign view.count).Agrees b (view.declare d) locals := by
  have hold : ∀ p ∈ view.names, ∀ value, (mem.unassign view.count).cells p.2.number = some value →
      mem.slots p.2.slot.toNat = some value ∧ p.2.ty.kind? = some value.kind := by
    intro p hp value hvalue
    simp only [Memory.unassign, if_neg (Nat.ne_of_lt (hv.numbers p hp))] at hvalue
    exact h.cells p hp value hvalue
  refine ⟨h.size, h.slots, ?_⟩
  unfold View.declare
  split
  · refine List.forall_mem_cons.mpr ⟨?_, hold⟩
    intro value hvalue
    simp [Memory.unassign] at hvalue
  · exact hold

/-- Whatever was in a cell before it is assigned is of no account. -/
theorem assign_unassign (mem : Memory) (d : Declared) (value : Value) :
    (mem.unassign d.number).assign d value = mem.assign d value := by
  unfold Memory.assign Memory.unassign
  congr 1
  funext n
  dsimp only
  split
  · rfl
  · rfl

end Memory

/-- A slot that an instruction may access is one of the locals. -/
theorem Bytecode.At.slot_lt {op : LocalOp} {slot : UInt16} (h : b.At x (.access op slot) y)
    (hs : slot.toNat < slotLimit) : slot.toNat < b.maxLocals.toNat := by
  obtain ⟨_, haims, _⟩ := h.step_eq
  cases haims with
  | access _ room =>
    rw [slotLimit] at hs
    omega

theorem View.resolve_of_bindings {name : String} {binding : Binding}
    (h : view.bindings name = some binding) :
    ∃ d, view.resolve? name (some binding.slot) (some binding.ty) = some d ∧
      (name, d) ∈ view.names ∧ binding = ⟨d.slot, d.ty⟩ := by
  obtain ⟨d, hd, rfl⟩ := Option.map_eq_some_iff.mp h
  exact ⟨d, by simp [resolve?, hd], mem_of_lookup? hd, rfl⟩

/-- Slots keep the cells of the declarations in view, and of more if there are more to be kept. -/
theorem View.implements (b : Bytecode) (fuel : Nat) (hv : view'.Valid)
    (hn : ∀ p ∈ view.names, p ∈ view'.names) (printed : Array String) :
    Implements b view.access view.bindings (Stop.Fails b fuel)
      fun mem locals => mem.Agrees b view' locals ∧ mem.printed = printed where
  back := Stop.backward_fails
  divides s address hs := ⟨0, s, address, rfl, hs⟩
  reads := by
    intro x y name binding kind mem stack locals printed known kinded hat hr
    obtain ⟨d, hd, hmem, rfl⟩ := resolve_of_bindings known
    obtain ⟨hr, _⟩ := hr
    replace hmem := hn _ hmem
    have hlt := hat.slot_lt (hv.slots _ hmem)
    have hslot := hr.slots d.slot.toNat (by rw [hr.size]; exact hlt)
    simp only [View.access, hd, Memory.read]
    cases hc : mem.cells d.number with
    | some value =>
      obtain ⟨hvalue, hkind⟩ := hr.cells _ hmem value hc
      obtain rfl := Option.some.inj (kinded.symm.trans hkind)
      refine follows_step ?_ ⟨rfl, rfl⟩
      rw [hat.step_load]
      simp [load, hslot, hvalue]
    | none => exact ⟨0, _, rfl, ⟨⟨kind, y, kinded, hat⟩, hslot⟩⟩
  writes := by
    intro x y name binding value mem stack locals printed known kinded hat hr
    obtain ⟨d, hd, hmem, rfl⟩ := resolve_of_bindings known
    obtain ⟨hr, hprinted⟩ := hr
    replace hmem := hn _ hmem
    have hlt := hat.slot_lt (hv.slots _ hmem)
    rw [← hr.size] at hlt
    simp only [View.access, hd]
    refine follows_step ?_ ⟨_, ⟨hr.assign kinded fun p hp => hv.apart p hp _ hmem, hprinted⟩, rfl⟩
    rw [hat.step_store]
    simp [store, hlt]

/-- The machine is between statements at `y`, and its locals and output are those of the memory. -/
def Memory.Settled (b : Bytecode) (view : View) (y : Nat) (mem : Memory) (t : State) : Prop :=
  ∃ locals, mem.Agrees b view locals ∧ t = ⟨y, [], locals, mem.printed⟩

theorem Memory.Settled.shrink {t : State} (h : mem.Settled b view' y t)
    (hn : ∀ p ∈ view.names, p ∈ view'.names) : mem.Settled b view y t := by
  obtain ⟨locals, ha, rfl⟩ := h
  exact ⟨locals, ha.shrink hn, rfl⟩

theorem Expr.Laid.follows_value {e : Expr} (hl : e.Laid b .value x y) {ty : Ty} {kind : Kind}
    (hv : view.Valid) (ht : e.Typed view.bindings ty) (hk : ty.kind? = some kind)
    (ha : mem.Agrees b view locals) :
    Follows b (Stop.Fails b fuel) (view.access.needed (e.eval view.access mem))
      ⟨x, [], locals, mem.printed⟩ fun r t => r.1.kind = kind ∧
        ∃ locals, r.2.Agrees b view locals ∧ t = ⟨y, [r.1], locals, r.2.printed⟩ := by
  have hi := View.implements b fuel hv (fun _ hp => hp) mem.printed
  refine ((hl.follows hi ht trivial ⟨ha, rfl⟩ []).needed hi.back hk).onward ?_
  intro r t _ h
  obtain ⟨hkind, locals, ⟨ha, hprinted⟩, rfl⟩ := h
  exact follows_ok ⟨hkind, locals, ha, by rw [hprinted]⟩

theorem Expr.Laid.follows_test {e : Expr} {target : Nat} (hl : e.Laid b (.jump target false) x y)
    (hv : view'.Valid) (hn : ∀ p ∈ view.names, p ∈ view'.names)
    (ht : e.Typed view.bindings .boolean) (ha : mem.Agrees b view' locals) :
    Follows b (Stop.Fails b fuel) (view.access.decided (e.eval view.access mem))
      ⟨x, [], locals, mem.printed⟩
      fun r t => r.2.Settled b view' (if r.1 then y else target) t := by
  have hi := View.implements b fuel hv hn mem.printed
  refine (hl.follows hi ht rfl ⟨ha, rfl⟩ []).decided.onward ?_
  intro r t _ h
  obtain ⟨locals, ⟨ha, hprinted⟩, rfl⟩ := h
  refine follows_ok ⟨locals, ha, ?_⟩
  rw [hprinted]
  cases r.1 <;> rfl

theorem View.follows_test {condition : Option Expr} {target : Nat} (hv : view.Valid)
    (hl : match condition with
      | none => x = y
      | some e => e.Laid b (.jump target false) x y)
    (ht : ∀ e, condition = some e → e.Typed view.bindings .boolean)
    (ha : mem.Agrees b view locals) :
    Follows b (Stop.Fails b fuel) (view.test condition mem) ⟨x, [], locals, mem.printed⟩
      fun r t => r.2.Settled b view (if r.1 then y else target) t := by
  cases condition with
  | none =>
    cases hl
    exact follows_ok ⟨locals, ha, rfl⟩
  | some e => exact hl.follows_test hv (fun _ hp => hp) (ht e rfl) ha

theorem Declarator.Laid.follows {d : Declarator} (hl : d.Laid b x y) (hv : view.Valid)
    (hd : d.Fits view) (ha : mem.Agrees b view locals) :
    Follows b (Stop.Fails b fuel) (d.exec view mem) ⟨x, [], locals, mem.printed⟩
      (Memory.Settled b (view.declare d) y) := by
  obtain ⟨slot, hslot, hlt, hfresh⟩ := hd.slot
  have hvalid := hv.declare hd
  unfold Declarator.Laid at hl
  unfold Declarator.exec
  rw [hslot]
  cases he : d.init with
  | none =>
    rw [he] at hl
    cases hl
    exact follows_ok ⟨locals, ha.declare hv d, rfl⟩
  | some e =>
    rw [he] at hl
    obtain ⟨kind, slot', u, hk, hslot', value, stores⟩ := hl
    obtain rfl := Option.some.inj (hslot.symm.trans hslot')
    refine (value.follows_value hv (hd.init e he) hk ha).map ?_
    intro r t h
    obtain ⟨rfl, locals, ha, rfl⟩ := h
    have hbound := stores.slot_lt hlt
    rw [← ha.size] at hbound
    have hagrees := (ha.declare hv d).assign (d := ⟨view.count, slot, d.ty⟩) hk (fun p hp =>
      hvalid.apart p hp (d.name, ⟨view.count, slot, d.ty⟩) (by simp [View.declare, hslot]))
    rw [Memory.assign_unassign r.2 ⟨view.count, slot, d.ty⟩] at hagrees
    refine follows_step ?_ ⟨_, hagrees, rfl⟩
    rw [stores.step_store]
    simp [store, hbound, Memory.assign]

theorem Declarator.LaidAll.follows {ds : List Declarator} (hl : LaidAll b ds x y)
    (hv : view.Valid) (hd : FitAll view ds) (ha : mem.Agrees b view locals) :
    Follows b (Stop.Fails b fuel) (execAll view ds mem) ⟨x, [], locals, mem.printed⟩
      (Memory.Settled b (view.declareAll ds) y) := by
  induction ds generalizing x view mem locals with
  | nil =>
    cases hl
    exact follows_ok ⟨locals, ha, rfl⟩
  | cons d ds ih =>
    obtain ⟨u, first, rest⟩ := hl
    refine (first.follows hv hd.1 ha).bind Stop.backward_fails ?_
    intro mem t h
    obtain ⟨locals, ha, rfl⟩ := h
    exact ih rest (hv.declare hd.1) hd.2 ha

section Loops

variable {round : Memory → Except Stop (Bool × Memory)} {head : Nat}

theorem Machine.Follows.less {α : Type} {fuel' : Nat} {result : Except Stop α} {s : State}
    {P : α → State → Prop} (hle : fuel' ≤ fuel) (h : Follows b (Stop.Fails b fuel) result s P) :
    Follows b (Stop.Fails b fuel') result s P := by
  cases result with
  | error stop => exact Stop.Fails.less hle h
  | ok a => exact h

/-- A step in front of what is followed counts as fuel. -/
theorem Machine.Follows.stepMore {α : Type} {result : Except Stop α} {s t : State}
    {P : α → State → Prop} (hs : Machine.step b s = .ok (.next t))
    (h : Follows b (Stop.Fails b fuel) result t P) :
    Follows b (Stop.Fails b (fuel + 1)) result s P := by
  cases result with
  | error stop => exact Stop.Fails.step hs h
  | ok a =>
    obtain ⟨n, u, hn, hp⟩ := h
    exact ⟨n + 1, u, ⟨t, hs, hn⟩, hp⟩

/-- Every round that asks for more ends in the jump back, so that rounds are no more than steps. -/
theorem follows_loop (back : b.At x (.jump .goto head) y)
    (hn : ∀ p ∈ view.names, p ∈ view'.names)
    (hround : ∀ mem locals, mem.Agrees b view locals →
      Follows b (Stop.Fails b fuel) (round mem) ⟨head, [], locals, mem.printed⟩
        fun r t => r.2.Settled b view' (if r.1 then x else y) t)
    (rounds : Nat) (hle : rounds ≤ fuel) (ha : mem.Agrees b view locals) :
    Follows b (Stop.Fails b rounds) (Memory.loop round rounds mem)
      ⟨head, [], locals, mem.printed⟩ (Memory.Settled b view' y) := by
  induction rounds generalizing mem locals with
  | zero => exact ⟨0, _, Nat.le_refl 0, rfl⟩
  | succ rounds ih =>
    refine ((hround mem locals ha).less hle).bind Stop.backward_fails ?_
    intro r t h
    obtain ⟨more, mem⟩ := r
    obtain ⟨locals, ha, rfl⟩ := h
    cases more with
    | false => exact follows_ok ⟨locals, ha, rfl⟩
    | true => exact (ih (Nat.le_of_succ_le hle) (ha.shrink hn)).stepMore back.step_goto

end Loops

namespace Stmt

variable {P : Nat → Prop}

mutual

/-- What a statement means, its code does, between one settled state and another. -/
theorem Laid.follows {s : Stmt} {view : View} {mem : Memory} {locals : Array (Option Value)}
    {x y : Nat} (hl : s.Laid b P x y) (hv : view.Valid) (hf : s.Fits view)
    (ha : mem.Agrees b view locals) :
    Follows b (Stop.Fails b fuel) (s.exec fuel view mem) ⟨x, [], locals, mem.printed⟩
      (Memory.Settled b (s.after view) y) :=
  match s with
  | .declare _ _ names => by
    rw [Stmt.exec]
    exact hl.2.follows hv hf ha
  | .eval e => by
    obtain ⟨_, ty, u, hty, value, drops⟩ := hl
    obtain ⟨ty', ht⟩ := hf
    obtain rfl := Option.some.inj (hty.symm.trans ht.ty?_eq)
    rw [Stmt.exec]
    have hi := View.implements b fuel hv (fun _ hp => hp) mem.printed
    refine (value.follows hi ht trivial ⟨ha, rfl⟩ []).map ?_
    intro r t h
    obtain ⟨locals, ⟨ha, hprinted⟩, hk, rfl⟩ := h
    obtain ⟨n, hn⟩ := steps_drop hk ht.ne_any drops [] locals mem.printed
    exact ⟨n, _, hn, locals, ha, by rw [hprinted]⟩
  | .print _ e => by
    obtain ⟨_, u, value, prints⟩ := hl
    obtain ⟨ty, ht, hvoid⟩ := hf
    obtain ⟨kind, hk⟩ := Ty.exists_kind hvoid ht.ne_any
    rw [Stmt.exec]
    refine (value.follows_value hv ht hk ha).map ?_
    intro r t h
    obtain ⟨_, locals, ha, rfl⟩ := h
    exact follows_step prints.step_print ⟨locals, ha.print _, rfl⟩
  | .block _ body => by
    rw [Stmt.exec]
    refine (@LaidAll.follows body _ _ _ _ _ hl.2 hv hf ha).onward ?_
    intro mem t _ h
    exact follows_ok (h.shrink (grows_afterAll view body).names)
  | .doWhile _ body condition => by
    obtain ⟨_, u, v, inner, test, back⟩ := hl
    rw [Stmt.exec]
    refine follows_loop back (grows_after view body).names ?_ fuel (Nat.le_refl _) ha
    intro mem locals ha
    refine (Laid.follows (s := body) inner hv hf.2 ha).bind Stop.backward_fails ?_
    intro mem t h
    obtain ⟨locals, ha, rfl⟩ := h
    exact test.follows_test (valid_after hv hf.2) (grows_after view body).names hf.1 ha
  | .forLoop _ names init condition update body => by
    obtain ⟨_, u, head, v, w, z, hnames, hinit, _, test, inner, updates, back⟩ := hl
    obtain ⟨fnames, finit, fcondition, fbody, fupdate⟩ := hf
    have vnames := hv.declareAll fnames
    have vinit := valid_afterAll vnames finit
    rw [Stmt.exec]
    refine (hnames.follows hv fnames ha).bind Stop.backward_fails ?_
    intro mem t h
    obtain ⟨locals, ha, rfl⟩ := h
    refine (LaidAll.follows hinit vnames finit ha).bind Stop.backward_fails ?_
    intro mem t h
    obtain ⟨locals, ha, rfl⟩ := h
    have hout : ∀ p ∈ view.names, p ∈ (afterAll (view.declareAll names) init).names :=
      ((view.grows_declareAll names).trans (grows_afterAll _ init)).names
    refine (follows_loop back (fun _ hp => hp) ?_ fuel (Nat.le_refl _) ha).onward
      fun mem t _ h => follows_ok (h.shrink hout)
    intro mem locals ha
    refine (View.follows_test vinit test fcondition ha).bind Stop.backward_fails ?_
    intro r t h
    obtain ⟨more, mem⟩ := r
    obtain ⟨locals, ha, rfl⟩ := h
    cases more with
    | false => exact follows_ok ⟨locals, ha, rfl⟩
    | true =>
      refine (Laid.follows inner vinit fbody ha).bind Stop.backward_fails ?_
      intro mem t h
      obtain ⟨locals, ha, rfl⟩ := h
      refine (LaidAll.follows updates (valid_after vinit fbody) fupdate ha).map ?_
      intro mem t h
      exact follows_ok (h.shrink ((grows_after _ body).trans (grows_afterAll _ update)).names)

theorem LaidAll.follows {ss : List Stmt} {view : View} {mem : Memory}
    {locals : Array (Option Value)} {x y : Nat} (hl : LaidAll b P ss x y) (hv : view.Valid)
    (hf : FitAll view ss) (ha : mem.Agrees b view locals) :
    Follows b (Stop.Fails b fuel) (execAll fuel view ss mem) ⟨x, [], locals, mem.printed⟩
      (Memory.Settled b (afterAll view ss) y) :=
  match ss with
  | [] => by
    cases hl
    rw [Stmt.execAll]
    exact follows_ok ⟨locals, ha, rfl⟩
  | s :: ss => by
    obtain ⟨u, first, rest⟩ := hl
    rw [Stmt.execAll]
    refine (Laid.follows (s := s) first hv hf.1 ha).bind Stop.backward_fails ?_
    intro mem t h
    obtain ⟨locals, ha, rfl⟩ := h
    exact LaidAll.follows rest (valid_after hv hf.1) hf.2 ha

end

end Stmt

end BlockLang
