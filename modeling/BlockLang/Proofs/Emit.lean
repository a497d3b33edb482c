import Mathlib.Logic.Relation
import BlockLang.Proofs.Linking

namespace BlockLang

namespace Emit

variable {α β : Type} {A : Assembly} {b : Bytecode}

/-- Whatever comes of `x`, it only adds to a valid assembly. Where it succeeds and what it added
stands in `A`, whose code is `b`, `P` holds of its result and of the addresses before and after. -/
def Lays (A : Assembly) (b : Bytecode) (x : Emit α) (P : α → Nat → Nat → Prop) : Prop :=
  ∀ a, a.Valid → ∀ r a', x a = (r, a') → a'.Valid ∧ a.Extends a' ∧
    ∀ v, r = .ok v → Placed A b → A.Holds a a' → P v a.address a'.address

theorem bind_apply (x : Emit α) (f : α → Emit β) (a : Assembly) :
    (x >>= f) a = match x a with
      | (.ok v, a') => f v a'
      | (.error e, a') => (.error e, a') := by
  change (ExceptT.bindCont f (x a).1) (x a).2 = _
  rcases x a with ⟨_ | _, a'⟩ <;> rfl

theorem Lays.mono {x : Emit α} {P Q : α → Nat → Nat → Prop} (h : Lays A b x P)
    (hi : ∀ v s e, P v s e → Q v s e) : Lays A b x Q := by
  intro a ha r a' hx
  obtain ⟨hv, he, hp⟩ := h a ha r a' hx
  exact ⟨hv, he, fun v hr hl hA => hi v _ _ (hp v hr hl hA)⟩

theorem lays_pure (v : α) : Lays A b (pure v) fun w s e => w = v ∧ s = e := by
  intro a ha r a' hx
  cases hx
  exact ⟨ha, .refl a, fun w hr _ _ => ⟨(Except.ok.inj hr).symm, rfl⟩⟩

/-- A sequence meets at the address between its parts. -/
theorem Lays.bind {x : Emit α} {f : α → Emit β} {P : α → Nat → Nat → Prop}
    {Q : α → β → Nat → Nat → Prop} (hx : Lays A b x P) (hf : ∀ v, Lays A b (f v) (Q v)) :
    Lays A b (x >>= f) fun w s e => ∃ v m, P v s m ∧ Q v w m e := by
  intro a ha r a' h
  rw [bind_apply] at h
  rcases hxa : x a with ⟨_ | v, m⟩ <;> rw [hxa] at h
  · cases h
    obtain ⟨hv, he, _⟩ := hx a ha _ _ hxa
    exact ⟨hv, he, by rintro w ⟨⟩⟩
  · obtain ⟨hv, he, hp⟩ := hx a ha _ _ hxa
    obtain ⟨hv', he', hq⟩ := hf v m hv r a' h
    refine ⟨hv', he.trans he', ?_⟩
    intro w hr hl hA
    obtain ⟨hfirst, hsecond⟩ := hA.parts he he'
    exact ⟨v, m.address, hp v rfl hl hfirst, hq w hr hl hsecond⟩

theorem lays_unresolved (line : Nat) :
    Lays A b (unresolved line : Emit α) fun _ _ _ => False := by
  intro a ha r a' hx
  cases hx
  exact ⟨ha, .refl a, by rintro v ⟨⟩⟩

/-- What an action of the assembly leaves, whether or not it fails. -/
theorem lays_act {action : Assembly → Except AssemblyError Unit × Assembly}
    {P : Unit → Nat → Nat → Prop}
    (h : ∀ a, a.Valid → ∀ r a', action a = (r, a') → a'.Valid ∧ a.Extends a' ∧
      (r = .ok () → Placed A b → A.Holds a a' → P () a.address a'.address)) :
    Lays A b (act action) P := by
  intro a ha r a' hx
  unfold act at hx
  rcases hact : action a with ⟨_ | _, m⟩ <;> rw [hact] at hx <;> cases hx
  · obtain ⟨hv, he, _⟩ := h a ha _ _ hact
    exact ⟨hv, he, by rintro v ⟨⟩⟩
  · obtain ⟨hv, he, hp⟩ := h a ha _ _ hact
    exact ⟨hv, he, fun _ _ hl hA => hp rfl hl hA⟩

/-- An instruction that was pushed stands in the code. -/
theorem at_push (placed : Placed A b) {a : Assembly} {i : Instruction Label} (ha : a.Valid)
    (hA : A.Holds a (a.push i)) : b.At a.address (i.map A.place) (a.push i).address := by
  obtain ⟨before, added, after, hadded, hentries, hsize⟩ := hA.entries
  obtain rfl : added = [.instruction i] :=
    (List.append_cancel_left ((Array.toList_push ..).symm.trans hadded)).symm
  have hat := placed.at_entry hentries
  rwa [hsize, ← ha.address] at hat

theorem lays_push (i : Instruction Label)
    (hj : ∀ branch label, i ≠ .jump branch label) (hs : ∀ op slot, i ≠ .access op slot)
    (ht : ∀ index, i ≠ .pushString index) :
    Lays A b (push i) fun _ s e => b.At s (i.map A.place) e := by
  refine lays_act fun a ha r a' hx => ?_
  cases hx
  have hv : (a.push i).Valid := ha.push (fun branch label he => absurd he (hj branch label))
    (fun op slot he => absurd he (hs op slot)) (fun index he => absurd he (ht index))
  exact ⟨hv, a.extends_push i, fun _ hl hA => at_push hl ha hA⟩

theorem lays_op (o : Opcode) :
    Lays A b (op o) fun _ s e => b.At s (.plain o) e :=
  lays_push (.plain o) nofun nofun nofun

theorem lays_pushInt (n : Int32) :
    Lays A b (push (.pushInt n)) fun _ s e => b.At s (.pushInt n) e :=
  lays_push (.pushInt n) nofun nofun nofun

theorem lays_pushDouble (d : Double) :
    Lays A b (push (.pushDouble d)) fun _ s e => b.At s (.pushDouble d) e :=
  lays_push (.pushDouble d) nofun nofun nofun

theorem lays_access (o : LocalOp) (slot : UInt16) :
    Lays A b (access o slot) fun _ s e => b.At s (.access o slot) e := by
  refine lays_act fun a ha r a' hx => ?_
  cases hx
  have hr : (a.reserve (min (slot.toNat + 1) 65535)).Valid := ha.reserve (Nat.min_le_right _ _)
  have hv := hr.push (i := .access o slot) nofun
    (by rintro _ _ ⟨⟩; exact Nat.le_max_right _ _) nofun
  have hext := a.extends_reserve (min (slot.toNat + 1) 65535)
  exact ⟨hv, hext.trans (Assembly.extends_push _ _),
    fun _ hl hA => at_push hl hr (hA.parts hext (Assembly.extends_push _ _)).2⟩

theorem lays_jump (branch : Branch) (label : Label) :
    Lays A b (jump branch label) fun _ s e => b.At s (.jump branch (A.place label)) e := by
  refine lays_act fun a ha r a' hx => ?_
  obtain ⟨_, rfl, rfl⟩ | ⟨hlt, _, rfl⟩ := Assembly.jump_cases hx
  · exact ⟨ha, .refl a', nofun⟩
  · have hv := ha.push (i := .jump branch label) (by rintro _ _ ⟨⟩; exact hlt) nofun nofun
    exact ⟨hv, a.extends_push _, fun _ hl hA => at_push hl ha hA⟩

theorem lays_pushString (text : String) :
    Lays A b (pushString text) fun _ s e =>
      ∃ index, b.At s (.pushString index) e ∧ b.strings[index.toNat]? = some text := by
  refine lays_act fun a ha r a' hx => ?_
  obtain ⟨_, _, rfl, rfl⟩ | ⟨index, table, hp, _, rfl⟩ := Assembly.pushString_cases hx
  · exact ⟨ha, .refl a', nofun⟩
  · obtain ⟨hv, hpre, hplace⟩ := ha.table.place hp
    have hext : a.Extends { a with strings := table } :=
      ⟨List.prefix_rfl, fun _ _ h => h, Nat.le_refl _, hpre, Nat.le_refl _⟩
    have hmid : Assembly.Valid { a with strings := table } :=
      { ha with
        texts := fun i hm => Nat.lt_of_lt_of_le (ha.texts i hm) hpre.length_le
        table := hv }
    have hat := hplace index rfl
    have hlt := (Array.getElem?_eq_some_iff.mp hat).1
    have hvalid := hmid.push (i := .pushString index) nofun nofun (by rintro _ ⟨⟩; exact hlt)
    refine ⟨hvalid, hext.trans (Assembly.extends_push _ _), fun _ placed hA => ⟨index, ?_, ?_⟩⟩
    · exact at_push placed hmid (hA.parts hext (Assembly.extends_push _ _)).2
    · obtain ⟨more, hmore⟩ := hA.strings
      rw [placed.strings, ← Array.getElem?_toList, ← hmore,
        List.getElem?_append_left (by simpa [Assembly.push] using hlt)]
      simpa [Assembly.push] using hat

theorem lays_newLabel : Lays A b newLabel fun _ s e => s = e := by
  intro a ha r a' hx
  cases hx
  exact ⟨ha.newLabel, a.extends_newLabel, fun _ _ _ _ => rfl⟩

/-- Binding takes no room, and the label keeps the address. -/
theorem lays_bind (label : Label) :
    Lays A b (bind label) fun _ s e => s = e ∧ A.place label = s := by
  refine lays_act fun a ha r a' hx => ?_
  refine ⟨ha.bind hx, Assembly.extends_bind hx, ?_⟩
  rintro rfl _ hA
  obtain ⟨⟨_, herr⟩, _⟩ | ⟨_, hn, rfl⟩ := Assembly.bind_cases hx
  · cases herr
  · refine ⟨rfl, Assembly.place_of_bound (hA.labels _ _ ?_)⟩
    have hlt := (Array.getElem?_eq_some_iff.mp hn).1
    simp [hlt]

/-- Whatever it comes to, what is described only adds to a valid assembly. -/
theorem keeps_of_lays {x : Emit α} {P : Assembly → Bytecode → α → Nat → Nat → Prop}
    (h : ∀ A b, Lays A b x (P A b)) {a : Assembly} (ha : a.Valid) :
    (x a).2.Valid ∧ a.Extends (x a).2 :=
  have ⟨hv, he, _⟩ := h a ⟨0, #[], #[]⟩ a ha _ _ rfl
  ⟨hv, he⟩

end Emit

namespace Assembly

/-- One call of what an assembly offers, whether or not it fails. -/
inductive Call (a : Assembly) : Assembly → Prop
  | newLabel : Call a (Emit.newLabel a).2
  | bind (label : Label) : Call a (Emit.bind label a).2
  | jump (branch : Branch) (label : Label) : Call a (Emit.jump branch label a).2
  | op (o : Opcode) : Call a (Emit.op o a).2
  | access (o : LocalOp) (slot : UInt16) : Call a (Emit.access o slot a).2
  | pushInt (value : Int32) : Call a (Emit.push (.pushInt value) a).2
  | pushDouble (value : Double) : Call a (Emit.push (.pushDouble value) a).2
  | pushString (text : String) : Call a (Emit.pushString text a).2
  | reserve (count : UInt16) : Call a (Emit.reserve count.toNat a).2

/-- Any number of calls, one after the other. -/
def Calls : Assembly → Assembly → Prop :=
  Relation.ReflTransGen Call

variable {a a' : Assembly}

theorem Call.keeps (h : Call a a') (ha : a.Valid) : a'.Valid ∧ a.Extends a' := by
  cases h with
  | newLabel => exact Emit.keeps_of_lays (fun _ _ => Emit.lays_newLabel) ha
  | bind label => exact Emit.keeps_of_lays (fun _ _ => Emit.lays_bind label) ha
  | jump branch label => exact Emit.keeps_of_lays (fun _ _ => Emit.lays_jump branch label) ha
  | op o => exact Emit.keeps_of_lays (fun _ _ => Emit.lays_op o) ha
  | access o slot => exact Emit.keeps_of_lays (fun _ _ => Emit.lays_access o slot) ha
  | pushInt value => exact Emit.keeps_of_lays (fun _ _ => Emit.lays_pushInt value) ha
  | pushDouble value => exact Emit.keeps_of_lays (fun _ _ => Emit.lays_pushDouble value) ha
  | pushString text => exact Emit.keeps_of_lays (fun _ _ => Emit.lays_pushString text) ha
  | reserve count => exact ⟨ha.reserve (Nat.le_of_lt_succ count.toNat_lt), a.extends_reserve _⟩

theorem Calls.keeps (h : Calls a a') (ha : a.Valid) : a'.Valid ∧ a.Extends a' := by
  induction h with
  | refl => exact ⟨ha, .refl a⟩
  | tail _ call ih =>
    obtain ⟨hv, he⟩ := call.keeps ih.1
    exact ⟨hv, ih.2.trans he⟩

/-- Whatever calls make of the empty assembly is valid. -/
theorem Calls.valid (h : Calls .empty a) : a.Valid :=
  (h.keeps .empty).1

end Assembly

end BlockLang
