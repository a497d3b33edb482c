import BlockLang.Proofs.Evaluator.Expr
import BlockLang.Proofs.View

namespace BlockLang

/-- Why an evaluation stops before the end of the program. A declaration that is read while nothing
is in its cell comes with what was last stored in its slot. -/
inductive Stop where
  | divisionByZero
  | unassigned (d : Declared) (left : Option Value)
  | exhausted
  | stuck
deriving Repr, DecidableEq

/-- The cells of declarations by their numbers, and the lines printed so far. What was last stored
in each slot is kept too, but no value is ever taken from there. -/
structure Memory where
  cells : Nat → Option Value
  slots : Nat → Option Value
  printed : Array String

namespace Memory

def empty : Memory :=
  ⟨fun _ => none, fun _ => none, #[]⟩

def assign (mem : Memory) (d : Declared) (value : Value) : Memory :=
  { mem with
    cells := fun n => if n = d.number then some value else mem.cells n
    slots := fun n => if n = d.slot.toNat then some value else mem.slots n }

def unassign (mem : Memory) (number : Nat) : Memory :=
  { mem with cells := fun n => if n = number then none else mem.cells n }

def read (mem : Memory) (d : Declared) : Except Stop Value :=
  match mem.cells d.number with
  | some value => .ok value
  | none => .error (.unassigned d (mem.slots d.slot.toNat))

end Memory

namespace View

/-- What a checked variable denotes. -/
def resolve? (view : View) (name : String) (slot : Option UInt16) (ty : Option Ty) :
    Option Declared :=
  (view.lookup? name).filter fun d => slot = some d.slot ∧ ty = some d.ty

/-- Variables are the cells of the declarations that they denote. -/
def access (view : View) : Access Memory Stop where
  read name slot ty mem :=
    match view.resolve? name slot ty with
    | some d => mem.read d
    | none => .error .stuck
  write name slot ty value mem :=
    match view.resolve? name slot ty with
    | some d => .ok (mem.assign d value)
    | none => .error .stuck
  divisionByZero := .divisionByZero
  stuck := .stuck

end View

/-- A declared name without initial value is unassigned again each time it is declared. -/
def Declarator.exec (view : View) (d : Declarator) (mem : Memory) : Except Stop Memory :=
  match d.init, d.slot with
  | some e, some slot =>
    (view.access.needed (e.eval view.access mem)).map fun (value, mem) =>
      mem.assign ⟨view.count, slot, d.ty⟩ value
  | none, some _ => .ok (mem.unassign view.count)
  | _, none => .error .stuck

def Declarator.execAll (view : View) : List Declarator → Memory → Except Stop Memory
  | [], mem => .ok mem
  | d :: ds, mem => (d.exec view mem).bind (execAll (view.declare d) ds)

/-- Makes rounds as long as they ask for more, at most `fuel` of them. -/
def Memory.loop (round : Memory → Except Stop (Bool × Memory)) :
    (fuel : Nat) → Memory → Except Stop Memory
  | 0, _ => .error .exhausted
  | fuel + 1, mem =>
    (round mem).bind fun (more, mem) => if more then loop round fuel mem else .ok mem

/-- Whether a loop goes on. One without condition does. -/
def View.test (view : View) (condition : Option Expr) (mem : Memory) :
    Except Stop (Bool × Memory) :=
  match condition with
  | none => .ok (true, mem)
  | some e => view.access.decided (e.eval view.access mem)

mutual

/-- Executes a statement. Every loop in it may make `fuel` rounds each time it is entered. -/
def Stmt.exec (fuel : Nat) (view : View) : Stmt → Memory → Except Stop Memory
  | .declare _ _ names, mem => Declarator.execAll view names mem
  | .eval e, mem => (e.eval view.access mem).map (·.2)
  | .print _ e, mem =>
    (view.access.needed (e.eval view.access mem)).map fun (value, mem) =>
      { mem with printed := mem.printed.push value.text }
  | .block _ body, mem => execAll fuel view body mem
  | .doWhile _ body condition, mem =>
    Memory.loop (fun mem => (exec fuel view body mem).bind fun mem =>
      view.access.decided (condition.eval view.access mem)) fuel mem
  | .forLoop _ names init condition update body, mem =>
    (Declarator.execAll view names mem).bind fun mem =>
      (execAll fuel (view.declareAll names) init mem).bind
        (Memory.loop (fun mem =>
          ((afterAll (view.declareAll names) init).test condition mem).bind fun (more, mem) =>
            if more then
              (exec fuel (afterAll (view.declareAll names) init) body mem).bind fun mem =>
                (execAll fuel (after (afterAll (view.declareAll names) init) body) update mem).map
                  (true, ·)
            else .ok (false, mem)) fuel)

def Stmt.execAll (fuel : Nat) (view : View) : List Stmt → Memory → Except Stop Memory
  | [], mem => .ok mem
  | s :: ss, mem => (exec fuel view s mem).bind (execAll fuel (after view s) ss)

end

/-- The lines that a checked program prints, if no loop is entered that takes more than `fuel`
rounds. -/
def Program.evaluate (program : Program) (fuel : Nat) : Except Stop (List String) :=
  (Stmt.execAll fuel .empty program .empty).map (·.printed.toList)

/-- What is found with more fuel is the same, unless fuel ran out before. -/
def Refuels {α : Type} (few more : Except Stop α) : Prop :=
  few = .error .exhausted ∨ more = few

section Fuel

variable {α β : Type} {few more : Except Stop α} {fuel fuel' : Nat}

theorem Refuels.refl (result : Except Stop α) : Refuels result result :=
  .inr rfl

theorem Refuels.bind {f g : α → Except Stop β} (h : Refuels few more)
    (hfg : ∀ a, Refuels (f a) (g a)) : Refuels (few.bind f) (more.bind g) := by
  rcases h with rfl | rfl
  · exact .inl rfl
  · cases more with
    | error stop => exact .refl _
    | ok a => exact hfg a

theorem Refuels.map {f : α → β} (h : Refuels few more) : Refuels (few.map f) (more.map f) := by
  rcases h with rfl | rfl
  · exact .inl rfl
  · exact .refl _

theorem refuels_loop {round round' : Memory → Except Stop (Bool × Memory)}
    (h : ∀ mem, Refuels (round mem) (round' mem)) (hle : fuel ≤ fuel') (mem : Memory) :
    Refuels (Memory.loop round fuel mem) (Memory.loop round' fuel' mem) := by
  induction fuel generalizing fuel' mem with
  | zero => exact .inl rfl
  | succ fuel ih =>
    obtain ⟨fuel', rfl⟩ := Nat.exists_eq_add_of_le' hle
    refine (h mem).bind fun r => ?_
    obtain ⟨more, mem⟩ := r
    cases more with
    | true => exact ih (Nat.le_of_add_le_add_right hle) mem
    | false => exact .refl _

mutual

theorem refuels_exec (hle : fuel ≤ fuel') (view : View) (s : Stmt) (mem : Memory) :
    Refuels (s.exec fuel view mem) (s.exec fuel' view mem) := by
  match s with
  | .declare .. | .eval _ | .print .. => exact .refl _
  | .block _ body => exact refuels_execAll hle view body mem
  | .doWhile _ body condition =>
    exact refuels_loop (fun mem => (refuels_exec hle view body mem).bind fun _ => .refl _) hle mem
  | .forLoop _ names init condition update body =>
    refine (Refuels.refl _).bind fun mem => ?_
    refine (refuels_execAll hle _ init mem).bind fun mem => refuels_loop (fun mem => ?_) hle mem
    refine (Refuels.refl _).bind fun r => ?_
    obtain ⟨more, mem⟩ := r
    cases more with
    | true => exact (refuels_exec hle _ body mem).bind fun mem => (refuels_execAll hle _ update mem).map
    | false => exact .refl _

theorem refuels_execAll (hle : fuel ≤ fuel') (view : View) (ss : List Stmt) (mem : Memory) :
    Refuels (Stmt.execAll fuel view ss mem) (Stmt.execAll fuel' view ss mem) := by
  match ss with
  | [] => exact .refl _
  | s :: ss => exact (refuels_exec hle view s mem).bind (refuels_execAll hle _ ss)

end

/-- More fuel does not change what an evaluation comes to that had enough. -/
theorem Program.evaluate_more {program : Program} (hle : fuel ≤ fuel')
    (h : program.evaluate fuel ≠ .error .exhausted) :
    program.evaluate fuel' = program.evaluate fuel :=
  (refuels_execAll hle .empty program .empty).map.resolve_left h

end Fuel

end BlockLang
