import BlockLang.Expr.Code
import BlockLang.Proofs.Emit

namespace BlockLang

/-- What code for an expression does, the label of a jump being replaced by its address. -/
inductive Goal where
  | value
  | jump (target : Nat) (onTrue : Bool)

def Want.goal (A : Assembly) : Want → Goal
  | .value => .value
  | .jump target onTrue => .jump (A.place target) onTrue

/-- The instruction between two addresses that pushes a literal. -/
def Literal.Laid (b : Bytecode) : Literal → Nat → Nat → Prop
  | .int value, x, y => b.At x (.pushInt value) y
  | .double value, x, y => b.At x (.pushDouble value) y
  | .boolean value, x, y => b.At x (.pushInt (if value then 1 else 0)) y
  | .string value, x, y =>
    ∃ index, b.At x (.pushString index) y ∧ b.strings[index.toNat]? = some value

/-- What stands between two addresses to convert a number, nothing if there is nothing to do. -/
def Ty.Converted (b : Bytecode) (source target : Ty) (x y : Nat) : Prop :=
  match source, target with
  | .int, .double => b.At x (.plain .intToDouble) y
  | .double, .int => b.At x (.plain .doubleToInt) y
  | _, _ => x = y

/-- What stands between two addresses to drop a value, nothing if there is none. -/
def Ty.Dropped (b : Bytecode) (ty : Ty) (x y : Nat) : Prop :=
  if ty = .void then x = y else b.At x (.plain .pop) y

/-- What a value left to be delivered still needs. -/
def Goal.Delivered (b : Bytecode) : Goal → Nat → Nat → Prop
  | .value, x, y => x = y
  | .jump target onTrue, x, y => b.At x (.jump (.onTruth onTrue) target) y

namespace Expr

/-- Whether the truth of an expression is found by jumping. -/
def decides : Expr → Bool
  | unary _ .not _ => true
  | binary _ op _ _ => op.isConditional
  | _ => false

/-- The code of an expression for a goal stands between two addresses. Code that jumps is laid out
by how truth is found, and a value found that way is pushed behind it as one or zero. -/
inductive Laid (b : Bytecode) : Expr → Goal → Nat → Nat → Prop
  | literal {mark value x y} (pushed : value.Laid b x y) : Laid b (literal mark value) .value x y
  | truth {mark value target x y} (goes : b.At x (.jump .goto target) y) :
      Laid b (literal mark (.boolean value)) (.jump target value) x y
  | untruth {mark value target onTrue x} (stays : value ≠ onTrue) :
      Laid b (literal mark (.boolean value)) (.jump target onTrue) x x
  | var {mark name slot ty kind x y} (typed : mark.ty = some ty) (kinded : ty.kind? = some kind)
      (loads : b.At x (.access (.load kind) slot) y) : Laid b (var mark name (some slot)) .value x y
  | negate {mark e ty x u y} (typed : mark.ty = some ty) (inner : Laid b e .value x u)
      (negates : b.At u (.plain (if ty = .double then .doubleNegate else .intNegate)) y) :
      Laid b (unary mark .negate e) .value x y
  | not {mark e target onTrue x y} (inner : Laid b e (.jump target (!onTrue)) x y) :
      Laid b (unary mark .not e) (.jump target onTrue) x y
  | arith {mark op l r ty ofRight x u v w y} (typed : mark.ty = some ty)
      (typedRight : r.ty? = some ofRight) (left : Laid b l .value x u) (right : Laid b r .value u v)
      (converts : Ty.Converted b ofRight ty v w) (applies : b.At w (.plain (arithOpcode op ty)) y) :
      Laid b (binary mark (.arith op) l r) .value x y
  | bit {mark op l r x u v y} (left : Laid b l .value x u) (right : Laid b r .value u v)
      (applies : b.At v (.plain (.bit op)) y) : Laid b (binary mark (.bit op) l r) .value x y
  | bothJump {mark op l r target onTrue x u y} (decisive : onTrue = decide (op = .or))
      (left : Laid b l (.jump target onTrue) x u) (right : Laid b r (.jump target onTrue) u y) :
      Laid b (binary mark (.logic op) l r) (.jump target onTrue) x y
  | leftSkips {mark op l r target onTrue x u y} (other : onTrue ≠ decide (op = .or))
      (left : Laid b l (.jump y (decide (op = .or))) x u)
      (right : Laid b r (.jump target onTrue) u y) :
      Laid b (binary mark (.logic op) l r) (.jump target onTrue) x y
  | compareDoubles {mark relation l r target onTrue x u v w y} (typed : l.ty? = some .double)
      (left : Laid b l .value x u) (right : Laid b r .value u v)
      (compares : b.At v (.plain (.compare (relation = .less ∨ relation = .lessEqual))) w)
      (tests : b.At w (.jump (.zero (if onTrue then relation else relation.opposite)) target) y) :
      Laid b (binary mark (.compare relation) l r) (.jump target onTrue) x y
  | compareInts {mark relation l r ty target onTrue x u v y} (typed : l.ty? = some ty)
      (notDouble : ty ≠ .double) (left : Laid b l .value x u) (right : Laid b r .value u v)
      (tests : b.At v (.jump (.ints (if onTrue then relation else relation.opposite)) target) y) :
      Laid b (binary mark (.compare relation) l r) (.jump target onTrue) x y
  | assign {mark varMark name slot ty kind r x u v y} (typed : varMark.ty = some ty)
      (kinded : ty.kind? = some kind) (right : Laid b r .value x u) (copies : b.At u (.plain .dup) v)
      (stores : b.At v (.access (.store kind) slot) y) :
      Laid b (binary mark .assign (var varMark name (some slot)) r) .value x y
  | concat {mark l r x u v y} (left : Laid b l .value x u) (right : Laid b r .value u v)
      (joins : b.At v (.plain .concat) y) : Laid b (concat mark l r) .value x y
  | ternary {mark c t f ty ofTrue ofFalse x u v w otherwise z y} (typed : mark.ty = some ty)
      (typedTrue : t.ty? = some ofTrue) (typedFalse : f.ty? = some ofFalse)
      (condition : Laid b c (.jump otherwise false) x u) (whenTrue : Laid b t .value u v)
      (convertsTrue : Ty.Converted b ofTrue ty v w) (leaves : b.At w (.jump .goto y) otherwise)
      (whenFalse : Laid b f .value otherwise z) (convertsFalse : Ty.Converted b ofFalse ty z y) :
      Laid b (ternary mark c t f) .value x y
  | guarded {mark c t ofTrue x u v y} (typedTrue : t.ty? = some ofTrue)
      (condition : Laid b c (.jump y false) x u) (whenTrue : Laid b t .value u v)
      (drops : ofTrue.Dropped b v y) : Laid b (guarded mark c t) .value x y
  | tested {e target onTrue x u y} (valued : e.decides = false) (value : Laid b e .value x u)
      (tests : b.At u (.jump (.onTruth onTrue) target) y) : Laid b e (.jump target onTrue) x y
  | materialized {e isFalse x u v y} (decides : e.decides = true)
      (condition : Laid b e (.jump isFalse false) x u) (one : b.At u (.pushInt 1) v)
      (leaves : b.At v (.jump .goto y) isFalse) (zero : b.At isFalse (.pushInt 0) y) :
      Laid b e .value x y

variable {A : Assembly} {b : Bytecode}

/-- A value that is delivered is laid out for the goal. -/
theorem Laid.deliver {e : Expr} {goal : Goal} {x u y : Nat} (hd : e.decides = false)
    (hv : Laid b e .value x u) (h : goal.Delivered b u y) : Laid b e goal x y := by
  cases goal with
  | value =>
    cases h
    exact hv
  | jump target onTrue => exact .tested hd hv h

end Expr

namespace Emit

variable {A : Assembly} {b : Bytecode}

theorem lays_resolvedTy (e : Expr) :
    Lays A b e.resolvedTy fun ty s t => e.ty? = some ty ∧ s = t := by
  unfold Expr.resolvedTy
  split
  · exact (lays_unresolved e.line).mono (by simp)
  · exact (lays_unresolved e.line).mono (by simp)
  · rename_i ty _ hty
    exact (lays_pure ty).mono (by rintro w s t ⟨rfl, rfl⟩; exact ⟨hty, rfl⟩)

theorem lays_convert (source target : Ty) :
    Lays A b (Expr.convert source target) fun _ s t => Ty.Converted b source target s t := by
  unfold Expr.convert Ty.Converted
  split
  · exact lays_op .intToDouble
  · exact lays_op .doubleToInt
  · exact (lays_pure ()).mono (by simp)

theorem lays_drop (ty : Ty) :
    Lays A b (if ty ≠ .void then op .pop else pure ()) fun _ s t => ty.Dropped b s t := by
  unfold Ty.Dropped
  by_cases h : ty = .void
  · simp only [h, ne_eq, not_true_eq_false, if_false, if_true]
    exact (lays_pure ()).mono (by simp)
  · simp only [h, ne_eq, not_false_eq_true, if_true, if_false]
    exact lays_op .pop

theorem lays_dropThen (ty : Ty) {α : Type} {rest : Emit α}
    {P : α → Nat → Nat → Prop} (h : Lays A b rest P) :
    Lays A b (if ty ≠ .void then do op .pop; rest else rest) fun w s t =>
      ∃ m, ty.Dropped b s m ∧ P w m t := by
  unfold Ty.Dropped
  by_cases hty : ty = .void
  · simp only [hty, ne_eq, not_true_eq_false, if_false, if_true]
    exact h.mono fun w s t hp => ⟨s, rfl, hp⟩
  · simp only [hty, ne_eq, not_false_eq_true, if_true, if_false]
    exact ((lays_op .pop).bind fun _ => h).mono fun w s t ⟨_, m, pops, hp⟩ => ⟨m, pops, hp⟩

theorem lays_pushLiteral (value : Literal) :
    Lays A b (Expr.pushLiteral value) fun _ s t => value.Laid b s t := by
  cases value with
  | int value => exact lays_pushInt value
  | double value => exact lays_pushDouble value
  | boolean value => exact lays_pushInt _
  | string value => exact lays_pushString value

theorem lays_deliver (want : Want) :
    Lays A b (Expr.deliver want) fun _ s t => (want.goal A).Delivered b s t := by
  cases want with
  | value => exact (lays_pure ()).mono (by simp [Want.goal, Goal.Delivered])
  | jump target onTrue => exact lays_jump (.onTruth onTrue) target

/-- A value is delivered to where it is wanted. -/
theorem lays_delivered {e : Expr} {x : Emit Unit} (want : Want)
    (hd : e.decides = false) (h : Lays A b x fun _ s t => e.Laid b .value s t) :
    Lays A b (x >>= fun _ => Expr.deliver want) fun _ s t => e.Laid b (want.goal A) s t := by
  refine (h.bind fun _ => lays_deliver want).mono ?_
  intro _ s t hlaid
  obtain ⟨_, _, hv, hg⟩ := hlaid
  exact hv.deliver hd hg

theorem lays_deliverCondition {e : Expr} {condition : Label → Bool → Emit Unit}
    (want : Want) (hd : e.decides = true)
    (h : ∀ target onTrue, Lays A b (condition target onTrue) fun _ s t =>
      e.Laid b (.jump (A.place target) onTrue) s t) :
    Lays A b (Expr.deliverCondition condition want) fun _ s t => e.Laid b (want.goal A) s t := by
  cases want with
  | jump target onTrue => exact h target onTrue
  | value =>
    refine (lays_newLabel.bind fun isFalse => lays_newLabel.bind fun done =>
      (h isFalse false).bind fun _ => (lays_pushInt 1).bind fun _ =>
      (lays_jump .goto done).bind fun _ => (lays_bind isFalse).bind fun _ =>
      (lays_pushInt 0).bind fun _ => lays_bind done).mono ?_
    intro _ s t hlaid
    obtain ⟨isFalse, _, rfl, done, _, rfl, _, u, hc, _, v, one, _, w, leaves, _, _, ⟨rfl, hfalse⟩,
      _, _, zero, rfl, hdone⟩ := hlaid
    rw [hfalse] at hc
    rw [hdone] at leaves
    exact .materialized hd hc one leaves zero

theorem lays_both {mark : Mark} {op : LogicOp} {l r : Expr} (target : Label) (onTrue : Bool)
    (hl : ∀ want, Lays A b (l.code want) fun _ s t => l.Laid b (want.goal A) s t)
    (hr : ∀ want, Lays A b (r.code want) fun _ s t => r.Laid b (want.goal A) s t) :
    Lays A b (Expr.both op (fun target onTrue => l.code (.jump target onTrue))
      (fun target onTrue => r.code (.jump target onTrue)) target onTrue) fun _ s t =>
      (Expr.binary mark (.logic op) l r).Laid b (.jump (A.place target) onTrue) s t := by
  unfold Expr.both
  dsimp only
  split
  · rename_i hdec
    refine ((hl _).bind fun _ => hr _).mono ?_
    intro _ s t hlaid
    obtain ⟨_, u, left, right⟩ := hlaid
    exact .bothJump (by cases onTrue <;> cases op <;> simp_all) left right
  · rename_i hdec
    refine (lays_newLabel.bind fun skip => (hl _).bind fun _ => (hr _).bind fun _ =>
      lays_bind skip).mono ?_
    intro _ s t hlaid
    obtain ⟨skip, _, rfl, _, u, left, _, v, right, rfl, hskip⟩ := hlaid
    simp only [Want.goal, hskip] at left
    exact .leftSkips (by cases onTrue <;> cases op <;> simp_all) left right

theorem lays_slotAccess (e : Expr) (op : Kind → LocalOp) :
    Lays A b (e.slotAccess op) fun r s t =>
      ∃ ty kind slot, e.ty? = some ty ∧ ty.kind? = some kind ∧ e.slot? = some slot ∧
        r = (op kind, slot) ∧ s = t := by
  unfold Expr.slotAccess
  refine ((lays_resolvedTy e).bind (Q := fun ty r s t => ∃ kind slot, ty.kind? = some kind ∧
    e.slot? = some slot ∧ r = (op kind, slot) ∧ s = t) fun ty => ?_).mono ?_
  · split
    · rename_i kind slot hk hs
      exact (lays_pure _).mono (by rintro r s t ⟨rfl, rfl⟩; exact ⟨kind, slot, hk, hs, rfl, rfl⟩)
    · exact (lays_unresolved e.line).mono (by simp)
  · intro r s t hlaid
    obtain ⟨ty, _, ⟨hty, rfl⟩, kind, slot, hk, hs, rfl, rfl⟩ := hlaid
    exact ⟨ty, kind, slot, hty, hk, hs, rfl, rfl⟩

theorem lays_jumpOnRelation (relation : Relation) (ty : Ty) (target : Label)
    (onTrue : Bool) :
    Lays A b (Expr.jumpOnRelation relation ty target onTrue) fun _ s t =>
      if ty = .double then
        ∃ w, b.At s (.plain (.compare (relation = .less ∨ relation = .lessEqual))) w ∧
          b.At w (.jump (.zero (if onTrue then relation else relation.opposite)) (A.place target)) t
      else b.At s (.jump (.ints (if onTrue then relation else relation.opposite))
        (A.place target)) t := by
  unfold Expr.jumpOnRelation
  dsimp only
  split
  · refine ((lays_op _).bind fun _ => lays_jump _ target).mono ?_
    intro _ s t hlaid
    obtain ⟨_, w, compares, tests⟩ := hlaid
    exact ⟨w, compares, tests⟩
  · exact lays_jump _ target

theorem lays_comparison {mark : Mark} {relation : Relation} {l r : Expr}
    (target : Label) (onTrue : Bool)
    (hl : ∀ want, Lays A b (l.code want) fun _ s t => l.Laid b (want.goal A) s t)
    (hr : ∀ want, Lays A b (r.code want) fun _ s t => r.Laid b (want.goal A) s t) :
    Lays A b (do
      l.code .value
      r.code .value
      Expr.jumpOnRelation relation (← l.resolvedTy) target onTrue) fun _ s t =>
      (Expr.binary mark (.compare relation) l r).Laid b (.jump (A.place target) onTrue) s t := by
  refine ((hl .value).bind fun _ => (hr .value).bind fun _ => (lays_resolvedTy l).bind fun ty =>
    lays_jumpOnRelation relation ty target onTrue).mono ?_
  intro _ s t hlaid
  obtain ⟨_, u, left, _, v, right, ty, _, ⟨hty, rfl⟩, tests⟩ := hlaid
  split at tests
  · rename_i hd
    obtain ⟨w, compares, tests⟩ := tests
    exact .compareDoubles (hd ▸ hty) left right compares tests
  · rename_i hd
    exact .compareInts hty hd left right tests

theorem lays_failed {α β : Type} (line : Nat) (f : α → Emit β) {P : β → Nat → Nat → Prop} :
    Lays A b (unresolved line >>= f) P := by
  intro a ha r a' hx
  cases hx
  exact ⟨ha, .refl a, nofun⟩

/-- Code that begins with a look at a type is laid out if it is for every type found. -/
theorem lays_typed {α : Type} {e : Expr} {f : Ty → Emit α} {P : α → Nat → Nat → Prop}
    (h : ∀ ty, e.ty? = some ty → Lays A b (f ty) P) : Lays A b (e.resolvedTy >>= f) P := by
  unfold Expr.resolvedTy
  split
  · exact lays_failed e.line f
  · exact lays_failed e.line f
  · rename_i ty _ hty
    rw [pure_bind]
    exact h ty hty

/-- Code for an expression is laid out for what is wanted of it. -/
theorem lays_code (e : Expr) (want : Want) :
    Lays A b (e.code want) fun _ s t => e.Laid b (want.goal A) s t := by
  induction e generalizing want with
  | literal mark value =>
    rw [Expr.code]
    refine lays_typed fun ty hty => ?_
    cases value with
    | boolean value =>
      cases want with
      | value => exact (lays_pushLiteral (.boolean value)).mono fun _ _ _ h => .literal h
      | jump target onTrue =>
        dsimp only
        split
        · rename_i hv
          subst hv
          exact (lays_jump .goto target).mono fun _ _ _ h => .truth h
        · rename_i hv
          exact (lays_pure ()).mono (by rintro _ s t ⟨_, rfl⟩; exact .untruth hv)
    | _ =>
      exact lays_delivered want rfl
        ((lays_pushLiteral _).mono fun _ _ _ h => .literal h)
  | var mark name slot =>
    rw [Expr.code]
    refine lays_typed fun _ _ => ?_
    refine ((lays_slotAccess _ _).bind fun _ => (lays_access _ _).bind fun _ =>
      lays_deliver want).mono ?_
    intro _ s t hlaid
    obtain ⟨_, _, ⟨ty, kind, slot, hty, hk, rfl, rfl, rfl⟩, _, u, loads, delivers⟩ := hlaid
    exact Expr.Laid.deliver rfl (.var hty hk loads) delivers
  | unary mark op operand ih =>
    rw [Expr.code]
    refine lays_typed fun ty hty => ?_
    cases op with
    | negate =>
      refine ((ih .value).bind fun _ => (lays_op _).bind fun _ =>
        lays_deliver want).mono ?_
      intro _ s t hlaid
      obtain ⟨_, u, inner, _, v, negates, delivers⟩ := hlaid
      exact Expr.Laid.deliver rfl (.negate hty inner negates) delivers
    | not =>
      exact lays_deliverCondition want rfl fun target onTrue =>
        (ih (.jump target !onTrue)).mono fun _ _ _ h => .not h
  | binary mark op l r ihl ihr =>
    rw [Expr.code]
    refine lays_typed fun ty hty => ?_
    cases op with
    | arith op =>
      refine ((ihl .value).bind fun _ => (ihr .value).bind fun _ => (lays_resolvedTy r).bind fun _ =>
        (lays_convert _ _).bind fun _ => (lays_op _).bind fun _ =>
        lays_deliver want).mono ?_
      intro _ s t hlaid
      obtain ⟨_, u, left, _, v, right, ofRight, _, ⟨hr, rfl⟩, _, w, converts, _, y, applies,
        delivers⟩ := hlaid
      exact Expr.Laid.deliver rfl (.arith hty hr left right converts applies) delivers
    | bit op =>
      refine ((ihl .value).bind fun _ => (ihr .value).bind fun _ => (lays_op _).bind fun _ =>
        lays_deliver want).mono ?_
      intro _ s t hlaid
      obtain ⟨_, u, left, _, v, right, _, y, applies, delivers⟩ := hlaid
      exact Expr.Laid.deliver rfl (.bit left right applies) delivers
    | logic op =>
      exact lays_deliverCondition want rfl fun target onTrue =>
        lays_both target onTrue ihl ihr
    | compare relation =>
      exact lays_deliverCondition want rfl fun target onTrue =>
        lays_comparison target onTrue ihl ihr
    | assign =>
      refine ((lays_slotAccess l _).bind fun _ => (ihr .value).bind fun _ =>
        (lays_op .dup).bind fun _ => (lays_access _ _).bind fun _ =>
        lays_deliver want).mono ?_
      intro _ s t hlaid
      obtain ⟨_, _, ⟨ty, kind, slot, hl, hk, hslot, rfl, rfl⟩, _, u, right, _, v, copies, _, y,
        stores, delivers⟩ := hlaid
      cases l <;> cases hslot
      exact Expr.Laid.deliver rfl (.assign hl hk right copies stores) delivers
  | concat mark l r ihl ihr =>
    rw [Expr.code]
    refine lays_typed fun _ _ => ?_
    refine ((ihl .value).bind fun _ => (ihr .value).bind fun _ => (lays_op _).bind fun _ =>
      lays_deliver want).mono ?_
    intro _ s t hlaid
    obtain ⟨_, u, left, _, v, right, _, y, joins, delivers⟩ := hlaid
    exact Expr.Laid.deliver rfl (.concat left right joins) delivers
  | ternary mark c t f ihc iht ihf =>
    rw [Expr.code]
    refine lays_typed fun ty hty => ?_
    refine (lays_newLabel.bind fun otherwise => (ihc _).bind fun _ => (iht .value).bind fun _ =>
      (lays_resolvedTy t).bind fun _ => (lays_convert _ _).bind fun _ =>
      lays_newLabel.bind fun done => (lays_jump .goto done).bind fun _ =>
      (lays_bind otherwise).bind fun _ => (ihf .value).bind fun _ =>
      (lays_resolvedTy f).bind fun _ => (lays_convert _ _).bind fun _ =>
      (lays_bind done).bind fun _ => lays_deliver want).mono ?_
    intro _ s e hlaid
    obtain ⟨otherwise, _, rfl, _, u, condition, _, v, whenTrue, _, _, ⟨ht, rfl⟩, _, w, convertsTrue,
      done, _, rfl, _, x, leaves, _, _, ⟨rfl, hotherwise⟩, _, z, whenFalse, _, _, ⟨hf, rfl⟩, _, y,
      convertsFalse, _, _, ⟨rfl, hdone⟩, delivers⟩ := hlaid
    simp only [Want.goal, hotherwise] at condition
    rw [hdone] at leaves
    exact Expr.Laid.deliver rfl
      (.ternary hty ht hf condition whenTrue convertsTrue leaves whenFalse convertsFalse) delivers
  | guarded mark c t ihc iht =>
    rw [Expr.code]
    refine lays_typed fun _ _ => ?_
    refine (lays_newLabel.bind fun otherwise => (ihc _).bind fun _ => (iht .value).bind fun _ =>
      (lays_resolvedTy t).bind fun ty => lays_dropThen ty
        ((lays_bind otherwise).bind fun _ => lays_deliver want)).mono ?_
    intro _ s e hlaid
    obtain ⟨otherwise, _, rfl, _, u, condition, _, v, whenTrue, ty, _, ⟨ht, rfl⟩, w, drops, _, _,
      ⟨rfl, hotherwise⟩, delivers⟩ := hlaid
    simp only [Want.goal, hotherwise] at condition
    exact Expr.Laid.deliver rfl (.guarded ht condition whenTrue drops) delivers

end Emit

end BlockLang
