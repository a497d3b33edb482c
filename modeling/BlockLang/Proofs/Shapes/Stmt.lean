import BlockLang.Proofs.Shapes.Expr
import BlockLang.Proofs.Layout.Stmt
import BlockLang.Proofs.View

namespace BlockLang

variable {a : Assembly} {b : Bytecode} {x y : Nat} {view : View} {P : Nat → Prop}

theorem View.Valid.inSlots (hv : view.Valid) : InSlots view.bindings := by
  intro name binding h
  obtain ⟨d, hd, rfl⟩ := Option.map_eq_some_iff.mp h
  exact hv.slots _ (mem_of_lookup? hd)

/-- Nothing is on the stack at an address. -/
def Shapes.Bare (M : Shapes) (x : Nat) : Prop :=
  M x = []

theorem Declarator.Laid.flows (hb : Linked a b) {d : Declarator} (hl : d.Laid b x y)
    (hv : view.Valid) (hf : d.Fits view) :
    Flows b x y [] [] (fun _ => True) fun _ => True := by
  unfold Declarator.Laid at hl
  cases hi : d.init with
  | none =>
    rw [hi] at hl
    cases hl
    exact Flows.nil
  | some e =>
    rw [hi] at hl
    obtain ⟨kind, slot, u, hk, hs, value, stores⟩ := hl
    obtain ⟨slot', hs', hlt, _⟩ := hf.slot
    obtain rfl := Option.some.inj (hs.symm.trans hs')
    have held := value.flows hb hv.inSlots (hf.init e hi) trivial []
    rw [Goal.leaves, Ty.onto_of_kind hk] at held
    exact held.append (Flows.on hb stores (.store hlt) fun _ hz => hz)

theorem Declarator.LaidAll.flows (hb : Linked a b) {ds : List Declarator}
    (hl : Declarator.LaidAll b ds x y) (hv : view.Valid) (hf : Declarator.FitAll view ds) :
    Flows b x y [] [] (fun _ => True) fun _ => True := by
  induction ds generalizing view x with
  | nil =>
    cases hl
    exact Flows.nil
  | cons d ds ih =>
    obtain ⟨u, first, rest⟩ := hl
    exact (first.flows hb hv hf.1).append (ih rest (hv.declare hf.1) hf.2)

/-- A condition that is left out is no code. -/
theorem flows_test (hb : Linked a b) {condition : Option Expr} {target : Nat}
    (h : match condition with
      | none => x = y
      | some e => e.Laid b (.jump target false) x y) (hv : view.Valid)
    (ht : ∀ e, condition = some e → e.Typed view.bindings .boolean) :
    Flows b x y [] [] (fun M => M target = []) fun _ => True := by
  cases condition with
  | none =>
    cases h
    exact Flows.nil
  | some e => exact h.flows hb hv.inSlots (ht e rfl) rfl []

namespace Stmt

mutual

/-- A statement starts and ends with nothing on the stack, and so do those within. -/
theorem Laid.flows (hb : Linked a b) {s : Stmt} {view : View} {x y : Nat} (hl : s.Laid b P x y)
    (hv : view.Valid) (hf : s.Fits view) :
    Flows b x y [] [] (fun _ => True) fun M => s.Laid b M.Bare x y :=
  match s with
  | .declare _ _ names =>
    (hl.2.flows hb hv hf).mono (fun _ _ _ h => h) fun _ hx _ _ _ => ⟨hx, hl.2⟩
  | .eval e => by
    obtain ⟨_, ty, u, hty, value, drops⟩ := hl
    obtain ⟨ty', ht⟩ := hf
    obtain rfl := Option.some.inj (hty.symm.trans ht.ty?_eq)
    have done := (value.flows hb hv.inSlots ht trivial []).append (flows_drop hb ht.ne_any drops)
    exact done.mono (fun _ _ _ h => h) fun _ hx _ _ _ => ⟨hx, ty, u, hty, value, drops⟩
  | .print _ e => by
    obtain ⟨_, u, value, prints⟩ := hl
    obtain ⟨ty, ht, hvoid⟩ := hf
    obtain ⟨kind, hk⟩ := Ty.exists_kind hvoid ht.ne_any
    have held := value.flows hb hv.inSlots ht trivial []
    rw [Goal.leaves, Ty.onto_of_kind hk] at held
    have done := held.append (Flows.on hb prints .print fun _ hz => hz)
    exact done.mono (fun _ _ _ h => h) fun _ hx _ _ _ => ⟨hx, u, value, prints⟩
  | .block _ body => by
    have within := LaidAll.flows hb hl.2 hv hf
    exact within.mono (fun _ _ _ h => h) fun _ hx _ _ h => ⟨hx, h⟩
  | .doWhile _ body condition => by
    obtain ⟨_, u, v, inner, test, back⟩ := hl
    have within := Laid.flows (s := body) hb inner hv hf.2
    have tested := test.flows hb hv.inSlots hf.1 rfl []
    have round := within.seq (E := fun M => M y = []) tested fun _ _ _ _ he => ⟨trivial, he⟩
    -- The jump back finds at the start what the statement began with.
    have loop := round.seq (E := fun _ => True) (Flows.goto hb back [])
      fun _ hx _ hy _ => ⟨hy, hx⟩
    exact loop.mono (fun _ _ _ h => h) fun _ hx _ _ h => ⟨hx, u, v, h.1.1, test, back⟩
  | .forLoop _ names init condition update body => by
    obtain ⟨_, u, head, v, w, z, hnames, hinit, _, test, inner, updates, back⟩ := hl
    obtain ⟨fnames, finit, fcondition, fbody, fupdate⟩ := hf
    have vnames := hv.declareAll fnames
    have vinit := valid_afterAll vnames finit
    have setup := (hnames.flows hb hv fnames).seq (E := fun _ => True)
      (LaidAll.flows hb hinit vnames finit) fun _ _ _ _ _ => ⟨trivial, trivial⟩
    have entered := (flows_test hb test vinit fcondition).seq (E := fun M => M y = [])
      (Laid.flows (s := body) hb inner vinit fbody) fun _ _ _ _ he => ⟨he, trivial⟩
    have round := entered.seq (E := fun M => M y = [])
      (LaidAll.flows hb updates (valid_after vinit fbody) fupdate)
      fun _ _ _ _ he => ⟨he, trivial⟩
    have loop := round.seq (E := fun _ => True) (Flows.goto hb back [])
      fun _ hhead _ hy _ => ⟨hy, hhead⟩
    have headed := loop.mono (fun _ _ _ h => h) fun _ hhead _ _ h => And.intro hhead h
    have whole := setup.seq (E := fun _ => True) headed fun _ _ _ _ _ => ⟨trivial, trivial⟩
    refine whole.mono (fun _ _ _ h => h) fun _ hx _ _ h => ?_
    obtain ⟨⟨_, hinit⟩, hhead, ⟨⟨_, inner⟩, updates⟩, _⟩ := h
    exact ⟨hx, u, head, v, w, z, hnames, hinit, hhead, test, inner, updates, back⟩

theorem LaidAll.flows (hb : Linked a b) {ss : List Stmt} {view : View} {x y : Nat}
    (hl : LaidAll b P ss x y) (hv : view.Valid) (hf : FitAll view ss) :
    Flows b x y [] [] (fun _ => True) fun M => LaidAll b M.Bare ss x y :=
  match ss with
  | [] => by
    cases hl
    exact Flows.nil.mono (fun _ _ _ h => h) fun _ _ _ _ _ => rfl
  | s :: ss => by
    obtain ⟨u, first, rest⟩ := hl
    have both := (Laid.flows (s := s) hb first hv hf.1).seq (E := fun _ => True)
      (LaidAll.flows hb rest (valid_after hv hf.1) hf.2) fun _ _ _ _ _ => ⟨trivial, trivial⟩
    exact both.mono (fun _ _ _ h => h) fun _ _ _ _ h => ⟨u, h.1, h.2⟩

end

end Stmt

end BlockLang
