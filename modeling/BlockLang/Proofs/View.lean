import BlockLang.Proofs.Typing.Expr
import BlockLang.Stmt

namespace BlockLang

/-- A declaration: its number in the order of the program, the slot of its name and its type. -/
structure Declared where
  number : Nat
  slot : UInt16
  ty : Ty
deriving Repr, DecidableEq

/-- The names in view, the latest first, and how many declarations there were so far. -/
structure View where
  names : List (String × Declared)
  count : Nat

namespace View

def empty : View :=
  ⟨[], 0⟩

/-- The declaration that a name denotes. -/
def lookup? (view : View) (name : String) : Option Declared :=
  view.names.lookup name

/-- What checking knows of the names in view. -/
def bindings (view : View) (name : String) : Option Binding :=
  (view.lookup? name).map fun d => ⟨d.slot, d.ty⟩

/-- The view behind a declared name that has a slot. -/
def declare (view : View) (d : Declarator) : View :=
  match d.slot with
  | some slot => ⟨(d.name, ⟨view.count, slot, d.ty⟩) :: view.names, view.count + 1⟩
  | none => view

def declareAll (view : View) (ds : List Declarator) : View :=
  ds.foldl declare view

/-- The view behind a scope that was opened in `view` and ended in `inner`. -/
def leave (view inner : View) : View :=
  ⟨view.names, inner.count⟩

end View

mutual

/-- The view behind a statement. -/
def Stmt.after (view : View) : Stmt → View
  | .declare _ _ names => view.declareAll names
  | .eval _ | .print _ _ => view
  | .block _ body => view.leave (afterAll view body)
  | .doWhile _ body _ => after view body
  | .forLoop _ names init _ update body =>
    view.leave (afterAll (after (afterAll (view.declareAll names) init) body) update)

def Stmt.afterAll (view : View) : List Stmt → View
  | [] => view
  | s :: ss => afterAll (after view s) ss

end

/-- A declared name gets a slot that no name in view has, and its initial value has its type. -/
structure Declarator.Fits (view : View) (d : Declarator) : Prop where
  kind : ∃ kind, d.ty.kind? = some kind
  slot : ∃ slot, d.slot = some slot ∧ slot.toNat < slotLimit ∧ ∀ p ∈ view.names, p.2.slot ≠ slot
  init : ∀ e, d.init = some e → e.Typed view.bindings d.ty

def Declarator.FitAll (view : View) : List Declarator → Prop
  | [] => True
  | d :: ds => d.Fits view ∧ FitAll (view.declare d) ds

mutual

/-- Every expression in a statement is well typed where it stands, and names get slots of their
own. -/
def Stmt.Fits (view : View) : Stmt → Prop
  | .declare _ _ names => Declarator.FitAll view names
  | .eval e => ∃ ty, e.Typed view.bindings ty
  | .print _ e => ∃ ty, e.Typed view.bindings ty ∧ ty ≠ .void
  | .block _ body => FitAll view body
  | .doWhile _ body condition => condition.Typed view.bindings .boolean ∧ Fits view body
  | .forLoop _ names init condition update body =>
    Declarator.FitAll view names ∧ FitAll (view.declareAll names) init ∧
      (∀ e, condition = some e →
        e.Typed (afterAll (view.declareAll names) init).bindings .boolean) ∧
      Fits (afterAll (view.declareAll names) init) body ∧
      FitAll (after (afterAll (view.declareAll names) init) body) update

def Stmt.FitAll (view : View) : List Stmt → Prop
  | [] => True
  | s :: ss => Fits view s ∧ FitAll (after view s) ss

end

/-- What holds of the names in view: they have values, and two of them share neither number nor
slot. -/
structure View.Valid (view : View) : Prop where
  kinds : ∀ p ∈ view.names, ∃ kind, p.2.ty.kind? = some kind
  slots : ∀ p ∈ view.names, p.2.slot.toNat < slotLimit
  numbers : ∀ p ∈ view.names, p.2.number < view.count
  apart : ∀ p ∈ view.names, ∀ q ∈ view.names,
    p.2 = q.2 ∨ (p.2.number ≠ q.2.number ∧ p.2.slot ≠ q.2.slot)

/-- What a later view has kept of an earlier one. -/
structure View.Grows (view view' : View) : Prop where
  names : ∀ p ∈ view.names, p ∈ view'.names
  count : view.count ≤ view'.count

namespace View

variable {view view' : View}

theorem mem_of_lookup? {name : String} {d : Declared} (h : view.lookup? name = some d) :
    (name, d) ∈ view.names := by
  unfold lookup? at h
  generalize view.names = names at h
  induction names with
  | nil => cases h
  | cons p names ih =>
    obtain ⟨name', d'⟩ := p
    rw [List.lookup_cons] at h
    split at h
    · rename_i he
      cases h
      rw [beq_iff_eq.mp he]
      exact List.mem_cons_self
    · exact List.mem_cons_of_mem _ (ih h)

theorem Grows.refl (view : View) : view.Grows view :=
  ⟨fun _ hp => hp, Nat.le_refl _⟩

theorem Grows.trans {view'' : View} (h : view.Grows view') (h' : view'.Grows view'') :
    view.Grows view'' :=
  ⟨fun p hp => h'.names p (h.names p hp), Nat.le_trans h.count h'.count⟩

theorem grows_declare (view : View) (d : Declarator) : view.Grows (view.declare d) := by
  unfold declare
  split
  · exact ⟨fun _ hp => List.mem_cons_of_mem _ hp, Nat.le_succ _⟩
  · exact .refl view

theorem grows_declareAll (view : View) (ds : List Declarator) :
    view.Grows (view.declareAll ds) := by
  induction ds generalizing view with
  | nil => exact .refl view
  | cons d ds ih => exact (view.grows_declare d).trans (ih _)

theorem Grows.leave (h : view.Grows view') : view.Grows (view.leave view') :=
  ⟨fun _ hp => hp, h.count⟩

theorem Valid.empty : Valid .empty :=
  ⟨nofun, nofun, nofun, nofun⟩

theorem Valid.leave (hv : view.Valid) (h : view.Grows view') : (view.leave view').Valid :=
  ⟨hv.kinds, hv.slots, fun p hp => Nat.lt_of_lt_of_le (hv.numbers p hp) h.count, hv.apart⟩

/-- A new name has a number that no other has, and the slot it gets is not in use. -/
theorem Valid.declare (hv : view.Valid) {d : Declarator} (hd : d.Fits view) :
    (view.declare d).Valid := by
  obtain ⟨slot, hs, hlt, hfresh⟩ := hd.slot
  simp only [View.declare, hs]
  refine ⟨?_, ?_, ?_, ?_⟩
  · exact List.forall_mem_cons.mpr ⟨hd.kind, hv.kinds⟩
  · exact List.forall_mem_cons.mpr ⟨hlt, hv.slots⟩
  · refine List.forall_mem_cons.mpr ⟨Nat.lt_succ_self _, ?_⟩
    exact fun p hp => Nat.lt_succ_of_lt (hv.numbers p hp)
  · intro p hp q hq
    rcases List.mem_cons.mp hp with rfl | hp <;> rcases List.mem_cons.mp hq with rfl | hq
    · exact .inl rfl
    · exact .inr ⟨(Nat.ne_of_lt (hv.numbers q hq)).symm, (hfresh q hq).symm⟩
    · exact .inr ⟨Nat.ne_of_lt (hv.numbers p hp), hfresh p hp⟩
    · exact hv.apart p hp q hq

theorem Valid.declareAll (hv : view.Valid) {ds : List Declarator}
    (hd : Declarator.FitAll view ds) : (view.declareAll ds).Valid := by
  induction ds generalizing view with
  | nil => exact hv
  | cons d ds ih => exact ih (hv.declare hd.1) hd.2

end View

namespace Stmt

mutual

theorem grows_after (view : View) (s : Stmt) : view.Grows (s.after view) :=
  match s with
  | .declare _ _ names => view.grows_declareAll names
  | .eval _ | .print _ _ => .refl view
  | .block _ body => (grows_afterAll view body).leave
  | .doWhile _ body _ => grows_after view body
  | .forLoop _ names init _ update body =>
    ((view.grows_declareAll names).trans <| (grows_afterAll _ init).trans <|
      (grows_after _ body).trans (grows_afterAll _ update)).leave

theorem grows_afterAll (view : View) (ss : List Stmt) : view.Grows (afterAll view ss) :=
  match ss with
  | [] => .refl view
  | s :: ss => (grows_after view s).trans (grows_afterAll _ ss)

end

/-- The view inside the scope of a loop has kept what was in view before it. -/
theorem grows_loop (view : View) (names : List Declarator) (init update : List Stmt) (body : Stmt) :
    view.Grows (afterAll (body.after (afterAll (view.declareAll names) init)) update) :=
  (view.grows_declareAll names).trans <| (grows_afterAll _ init).trans <|
    (grows_after _ body).trans (grows_afterAll _ update)

mutual

theorem valid_after {view : View} (hv : view.Valid) {s : Stmt} (h : s.Fits view) :
    (s.after view).Valid :=
  match s with
  | .declare _ _ _ => hv.declareAll h
  | .eval _ | .print _ _ => hv
  | .block _ body => hv.leave (grows_afterAll view body)
  | .doWhile _ body _ => valid_after (s := body) hv h.2
  | .forLoop _ names init _ update body => hv.leave (grows_loop view names init update body)

theorem valid_afterAll {view : View} (hv : view.Valid) {ss : List Stmt} (h : FitAll view ss) :
    (afterAll view ss).Valid :=
  match ss with
  | [] => hv
  | _ :: _ => valid_afterAll (valid_after hv h.1) h.2

end

end Stmt

end BlockLang
