import Mathlib.Data.List.Forall2
import BlockLang.Proofs.Rules.Expr
import BlockLang.Proofs.Typing.Stmt

namespace BlockLang

/-- What line numbers and names are replaced by. Different names stay different. -/
structure Relabeling where
  line : Nat → Nat
  name : String → String
  injective : Function.Injective name

variable (r : Relabeling)

def Mark.relabel (mark : Mark) : Mark :=
  { mark with line := r.line mark.line }

def Expr.relabel : Expr → Expr
  | literal mark value => literal (mark.relabel r) value
  | var mark name slot => var (mark.relabel r) (r.name name) slot
  | unary mark op e => unary (mark.relabel r) op e.relabel
  | binary mark op lhs rhs => binary (mark.relabel r) op lhs.relabel rhs.relabel
  | concat mark lhs rhs => concat (mark.relabel r) lhs.relabel rhs.relabel
  | ternary mark c t f => ternary (mark.relabel r) c.relabel t.relabel f.relabel
  | guarded mark c t => guarded (mark.relabel r) c.relabel t.relabel

def Declarator.relabel (d : Declarator) : Declarator :=
  ⟨r.line d.line, r.name d.name, d.ty, d.init.map (Expr.relabel r), d.slot⟩

mutual

def Stmt.relabel : Stmt → Stmt
  | .declare line ty names => .declare (r.line line) ty (names.map (Declarator.relabel r))
  | .eval e => .eval (e.relabel r)
  | .print line e => .print (r.line line) (e.relabel r)
  | .block line body => .block (r.line line) (relabelAll body)
  | .doWhile line body condition => .doWhile (r.line line) body.relabel (condition.relabel r)
  | .forLoop line names init condition update body =>
    .forLoop (r.line line) (names.map (Declarator.relabel r)) (relabelAll init)
      (condition.map (Expr.relabel r)) (relabelAll update) body.relabel

def Stmt.relabelAll : List Stmt → List Stmt
  | [] => []
  | s :: ss => s.relabel :: relabelAll ss

end

def Mistake.relabel : Mistake → Mistake
  | unknownVariable name => unknownVariable (r.name name)
  | redeclared name => redeclared (r.name name)
  | mistake => mistake

def Diagnostic.relabel (d : Diagnostic) : Diagnostic :=
  ⟨r.line d.line, d.mistake.relabel r⟩

variable {r}

namespace Expr

@[simp]
theorem line_relabel (e : Expr) : (e.relabel r).line = r.line e.line := by
  cases e <;> rfl

@[simp]
theorem ty?_relabel (e : Expr) : (e.relabel r).ty? = e.ty? := by
  cases e <;> rfl

@[simp]
theorem ty_relabel (e : Expr) : (e.relabel r).ty = e.ty :=
  congrArg (·.getD .any) e.ty?_relabel

@[simp]
theorem isVariable_relabel (e : Expr) : (e.relabel r).isVariable = e.isVariable := by
  cases e <;> rfl

@[simp]
theorem slot?_relabel (e : Expr) : (e.relabel r).slot? = e.slot? := by
  cases e <;> rfl

end Expr

/-- A checked expression and its mistakes, both relabelled. -/
def Expr.relabelChecked (r : Relabeling) (checked : Expr × List Diagnostic) :
    Expr × List Diagnostic :=
  (checked.1.relabel r, checked.2.map (Diagnostic.relabel r))

theorem Diagnostic.ofMismatch_relabel (line : Nat) (found expected : Ty) :
    ofMismatch (r.line line) found expected =
      (ofMismatch line found expected).map (Diagnostic.relabel r) := by
  unfold ofMismatch
  split <;> rfl

namespace Expr

variable {names names' : String → Option Binding}

theorem branchType_relabel (typing : BranchTyping) (line : Nat) (ofTrue ofFalse : Ty) :
    branchType typing (r.line line) ofTrue ofFalse =
      ((branchType typing line ofTrue ofFalse).1,
        (branchType typing line ofTrue ofFalse).2.map (Diagnostic.relabel r)) := by
  unfold branchType
  split
  · rfl
  · split
    · rfl
    · cases typing with
      | identical => rfl
      | promote => cases Ty.promote ofTrue ofFalse <;> rfl

theorem joined_relabel (line : Nat) (lhs rhs : Expr) :
    joined (r.line line) (lhs.relabel r) (rhs.relabel r) = relabelChecked r (joined line lhs rhs) := by
  by_cases hl : lhs.ty = .void <;> by_cases hr : rhs.ty = .void <;>
    simp [joined, relabelChecked, hl, hr, Expr.relabel, Mark.relabel, Diagnostic.relabel,
      Mistake.relabel]

theorem arithmetic_relabel (line : Nat) (op : ArithOp) (lhs rhs : Expr) :
    arithmetic (r.line line) op (lhs.relabel r) (rhs.relabel r) =
      relabelChecked r (arithmetic line op lhs rhs) := by
  unfold arithmetic
  simp only [ty_relabel]
  split
  · exact joined_relabel line lhs rhs
  · split
    · rfl
    · split <;> rfl

theorem comparison_relabel (line : Nat) (relation : Relation) (lhs rhs : Ty) :
    comparison (r.line line) relation lhs rhs =
      (comparison line relation lhs rhs).map (Diagnostic.relabel r) := by
  unfold comparison
  dsimp only
  split <;> rfl

theorem applied_relabel (line : Nat) (op : BinaryOp) (lhs rhs : Expr) :
    applied (r.line line) op (lhs.relabel r) (rhs.relabel r) =
      relabelChecked r (applied line op lhs rhs) := by
  cases op with
  | arith op => exact arithmetic_relabel line op lhs rhs
  | bit op | logic op =>
    simp only [applied, relabelChecked, ty_relabel, Diagnostic.ofMismatch_relabel, List.map_append]
    rfl
  | compare relation =>
    simp only [applied, relabelChecked, ty_relabel, comparison_relabel]
    rfl
  | assign =>
    unfold applied
    simp only [isVariable_relabel, ty_relabel, line_relabel, Diagnostic.ofMismatch_relabel]
    split <;> rfl

theorem prefixed_relabel (line : Nat) (op : UnaryOp) (e : Expr) :
    prefixed (r.line line) op (e.relabel r) = relabelChecked r (prefixed line op e) := by
  cases op with
  | negate =>
    simp only [prefixed, ty_relabel]
    split <;> rfl
  | not =>
    simp only [prefixed, ty_relabel, Diagnostic.ofMismatch_relabel]
    rfl

/-- A relabelled expression is checked as the expression was, where relabelled names have the bindings
that the names had. -/
theorem annotate_relabel (typing : BranchTyping) (hn : ∀ name, names' (r.name name) = names name)
    (e : Expr) :
    (e.relabel r).annotate typing names' = relabelChecked r (e.annotate typing names) := by
  have typed {e : Expr} (hm : e.mark.ty ≠ none) :
      (e.relabel r).annotate typing names' = relabelChecked r (e.annotate typing names) := by
    have hm' : (e.relabel r).mark.ty ≠ none := fun h => hm (e.ty?_relabel.symm.trans h)
    rw [annotate_of_ty hm, annotate_of_ty hm']
    rfl
  have untyped {mark : Mark} (hm : mark.ty = none) : (mark.relabel r).ty = none := hm
  induction e with
  | literal mark value =>
    by_cases hm : mark.ty = none
    · rw [Expr.relabel, annotate_literal hm, annotate_literal (untyped hm)]
      rfl
    · exact typed hm
  | var mark name slot =>
    by_cases hm : mark.ty = none
    · rw [Expr.relabel, annotate_var hm, annotate_var (untyped hm), hn]
      cases names name <;> rfl
    · exact typed hm
  | unary mark op e ih =>
    by_cases hm : mark.ty = none
    · rw [Expr.relabel, annotate_unary hm, annotate_unary (untyped hm), ih]
      simp [relabelChecked, prefixed_relabel, Mark.relabel]
    · exact typed hm
  | binary mark op l r ihl ihr =>
    by_cases hm : mark.ty = none
    · rw [Expr.relabel, annotate_binary hm, annotate_binary (untyped hm), ihl, ihr]
      simp [relabelChecked, applied_relabel, Mark.relabel]
    · exact typed hm
  | concat mark l r ihl ihr =>
    by_cases hm : mark.ty = none
    · rw [Expr.relabel, annotate_concat hm, annotate_concat (untyped hm), ihl, ihr]
      simp [relabelChecked, joined_relabel, Mark.relabel]
    · exact typed hm
  | ternary mark c t f ihc iht ihf =>
    by_cases hm : mark.ty = none
    · rw [Expr.relabel, annotate_ternary hm, annotate_ternary (untyped hm), ihc, iht, ihf]
      simp [relabelChecked, branchType_relabel, Mark.relabel, Expr.relabel,
        Diagnostic.ofMismatch_relabel]
    · exact typed hm
  | guarded mark c t ihc iht =>
    by_cases hm : mark.ty = none
    · rw [Expr.relabel, annotate_guarded hm, annotate_guarded (untyped hm), ihc, iht]
      simp [relabelChecked, Mark.relabel, Expr.relabel, Diagnostic.ofMismatch_relabel]
    · exact typed hm

end Expr

/-- The second scope has the new names, with the bindings of the old ones. -/
structure Scope.Relabels (r : Relabeling) (scope scope' : Scope) : Prop where
  names : ∀ name, scope'.names[r.name name]? = scope.names[name]?
  first : scope'.firstSlot = scope.firstSlot

/-- The second context differs from the first in names and line numbers only. -/
structure Context.Relabels (r : Relabeling) (ctx ctx' : Context) : Prop where
  innermost : ctx.innermost.Relabels r ctx'.innermost
  outer : List.Forall₂ (Scope.Relabels r) ctx.outer ctx'.outer
  nextSlot : ctx'.nextSlot = ctx.nextSlot
  maxLocals : ctx'.maxLocals = ctx.maxLocals
  typing : ctx'.typing = ctx.typing
  diagnostics : ctx'.diagnostics.toList = ctx.diagnostics.toList.map (Diagnostic.relabel r)

theorem Scope.relabels_empty (firstSlot : Nat) :
    (Scope.empty firstSlot).Relabels r (Scope.empty firstSlot) :=
  ⟨fun name => by simp [Scope.empty], rfl⟩

theorem Scope.Relabels.insert {scope scope' : Scope} (h : scope.Relabels r scope') (name : String)
    (binding : Binding) :
    Scope.Relabels r ⟨scope.names.insert name binding, scope.firstSlot⟩
      ⟨scope'.names.insert (r.name name) binding, scope'.firstSlot⟩ := by
  refine ⟨fun other => ?_, h.first⟩
  dsimp only
  rw [Scope.names_insert, Scope.names_insert, h.names]
  simp only [r.injective.eq_iff]

theorem Scope.Relabels.contains {scope scope' : Scope} (h : scope.Relabels r scope')
    (name : String) : scope'.names.contains (r.name name) = scope.names.contains name := by
  rw [Std.TreeMap.contains_eq_isSome_getElem?, Std.TreeMap.contains_eq_isSome_getElem?, h.names]

theorem Scope.findSome?_relabels {scopes scopes' : List Scope}
    (h : List.Forall₂ (Scope.Relabels r) scopes scopes') (name : String) :
    scopes'.findSome? (·.names[r.name name]?) = scopes.findSome? (·.names[name]?) := by
  induction h with
  | nil => rfl
  | cons head _ ih => rw [List.findSome?_cons, List.findSome?_cons, head.names, ih]

namespace Context

variable {ctx ctx' : Context}

theorem relabels_new (typing : BranchTyping) : (new typing).Relabels r (new typing) :=
  ⟨Scope.relabels_empty 0, .nil, rfl, rfl, rfl, rfl⟩

theorem Relabels.lookup (h : ctx.Relabels r ctx') (name : String) :
    ctx'.lookup? (r.name name) = ctx.lookup? name :=
  Scope.findSome?_relabels (.cons h.innermost h.outer) name

theorem Relabels.push (h : ctx.Relabels r ctx') : ctx.push.Relabels r ctx'.push := by
  refine ⟨?_, .cons h.innermost h.outer, h.nextSlot, h.maxLocals, h.typing, h.diagnostics⟩
  unfold Context.push
  rw [h.nextSlot]
  exact Scope.relabels_empty _

theorem Relabels.pop (h : ctx.Relabels r ctx') : ctx.pop.Relabels r ctx'.pop := by
  obtain ⟨innermost, outer, next, most, typing, diagnostics⟩ := ctx
  obtain ⟨innermost', outer', next', most', typing', diagnostics'⟩ := ctx'
  cases h.outer with
  | nil => exact h
  | cons head tail => exact ⟨head, tail, h.innermost.first, h.maxLocals, h.typing, h.diagnostics⟩

theorem Relabels.reportAll (h : ctx.Relabels r ctx') (ds : List Diagnostic) :
    (ctx.reportAll ds).Relabels r (ctx'.reportAll (ds.map (Diagnostic.relabel r))) := by
  refine ⟨h.innermost, h.outer, h.nextSlot, h.maxLocals, h.typing, ?_⟩
  change (ctx'.diagnostics ++ ds.map (Diagnostic.relabel r)).toList =
    (ctx.diagnostics ++ ds).toList.map (Diagnostic.relabel r)
  rw [Array.toList_appendList, Array.toList_appendList, h.diagnostics, List.map_append]

theorem Relabels.report (h : ctx.Relabels r ctx') (line : Nat) (mistake : Mistake) :
    (ctx.report line mistake).Relabels r (ctx'.report (r.line line) (mistake.relabel r)) := by
  refine ⟨h.innermost, h.outer, h.nextSlot, h.maxLocals, h.typing, ?_⟩
  simp [Context.report, h.diagnostics, Diagnostic.relabel]

theorem Relabels.declare (h : ctx.Relabels r ctx') (name : String) (ty : Ty) (line : Nat) :
    (ctx'.declare (r.name name) ty (r.line line)).1 = (ctx.declare name ty line).1 ∧
      (ctx.declare name ty line).2.Relabels r (ctx'.declare (r.name name) ty (r.line line)).2 := by
  unfold Context.declare
  rw [h.innermost.contains, h.nextSlot, h.maxLocals]
  split
  · exact ⟨rfl, h.report line _⟩
  · split
    · exact ⟨rfl, h.innermost.insert name _, h.outer, rfl, rfl, h.typing, h.diagnostics⟩
    · exact ⟨rfl, h.report line _⟩

end Context

namespace Check

variable {α β : Type}

/-- In relabelled contexts the second check does what the first does, and its result is the relabelled
one. -/
def Relabels (r : Relabeling) (map : α → α) (x x' : Check α) : Prop :=
  ∀ ctx ctx', ctx.Relabels r ctx' →
    (x' ctx').1 = map (x ctx).1 ∧ (x ctx).2.Relabels r (x' ctx').2

theorem relabels_pure (map : α → α) (a : α) : Relabels r map (pure a) (pure (map a)) :=
  fun _ _ h => ⟨rfl, h⟩

theorem Relabels.bind {map : α → α} {map' : β → β} {x x' : Check α} {f f' : α → Check β}
    (hx : Relabels r map x x') (hf : ∀ a, Relabels r map' (f a) (f' (map a))) :
    Relabels r map' (x >>= f) (x' >>= f') := by
  intro ctx ctx' h
  obtain ⟨hresult, hctx⟩ := hx ctx ctx' h
  have hnext := hf (x ctx).1 (x ctx).2 (x' ctx').2 hctx
  rw [← hresult] at hnext
  exact hnext

/-- Where the first result has nothing to relabel. -/
theorem Relabels.next {map : β → β} {x x' : Check α} {f f' : α → Check β}
    (hx : Relabels r id x x') (hf : ∀ a, Relabels r map (f a) (f' a)) :
    Relabels r map (x >>= f) (x' >>= f') :=
  hx.bind hf

theorem relabels_modify {f f' : Context → Context}
    (h : ∀ ctx ctx' : Context, ctx.Relabels r ctx' → (f ctx).Relabels r (f' ctx')) :
    Relabels r id (modify f) (modify f') :=
  fun ctx ctx' hctx => ⟨rfl, h ctx ctx' hctx⟩

theorem relabels_expr (e : Expr) : Relabels r (Expr.relabel r) (expr e) (expr (e.relabel r)) := by
  intro ctx ctx' h
  have hannotate := Expr.annotate_relabel ctx.typing h.lookup e
  simp only [expr, h.typing, hannotate]
  exact ⟨rfl, h.reportAll _⟩

theorem relabels_typed (expected : Ty) (e : Expr) :
    Relabels r (Expr.relabel r) (typed expected e) (typed expected (e.relabel r)) := by
  refine (relabels_expr e).bind fun e => Relabels.next ?_ fun _ => relabels_pure _ e
  refine relabels_modify fun ctx ctx' h => ?_
  rw [e.line_relabel, e.ty_relabel, Diagnostic.ofMismatch_relabel]
  exact h.reportAll _

theorem relabels_option {map : α → α} {check : α → Check α}
    (h : ∀ a, Relabels r map (check a) (check (map a))) (o : Option α) :
    Relabels r (Option.map map) (option check o) (option check (o.map map)) := by
  cases o with
  | none => exact relabels_pure (Option.map map) none
  | some a =>
    rw [Option.map_some, option, option, ← bind_pure_comp, ← bind_pure_comp]
    exact (h a).bind fun a => relabels_pure (Option.map map) (some a)

theorem relabels_declarator (d : Declarator) :
    Relabels r (Declarator.relabel r) (declarator d) (declarator (d.relabel r)) := by
  refine (relabels_option (relabels_typed d.ty) d.init).bind fun init => ?_
  refine Relabels.next (fun ctx ctx' h => h.declare d.name d.ty d.line) fun slot => ?_
  exact relabels_pure (Declarator.relabel r) _

theorem relabels_declarators (ds : List Declarator) :
    Relabels r (List.map (Declarator.relabel r)) (declarators ds)
      (declarators (ds.map (Declarator.relabel r))) := by
  induction ds with
  | nil => exact relabels_pure (List.map _) []
  | cons d ds ih =>
    exact (relabels_declarator d).bind fun d => ih.bind fun ds => relabels_pure (List.map _) (d :: ds)

theorem Relabels.inScope {map : α → α} {x x' : Check α} (h : Relabels r map x x') :
    Relabels r map (inScope x) (inScope x') := by
  intro ctx ctx' hctx
  obtain ⟨hresult, hinside⟩ := h ctx.push ctx'.push hctx.push
  exact ⟨hresult, hinside.pop⟩

mutual

theorem relabels_stmt (s : Stmt) : Relabels r (Stmt.relabel r) (stmt s) (stmt (s.relabel r)) :=
  match s with
  | .declare line ty names => by
    rw [Stmt.relabel, stmt, stmt]
    exact (relabels_declarators names).bind fun names => relabels_pure (Stmt.relabel r) _
  | .eval e => by
    rw [Stmt.relabel, stmt, stmt]
    exact (relabels_expr e).bind fun e => relabels_pure (Stmt.relabel r) (.eval e)
  | .print line e => by
    rw [Stmt.relabel, stmt, stmt]
    refine (relabels_expr e).bind fun e => ?_
    rw [e.ty_relabel, e.line_relabel]
    split
    · refine Relabels.next ?_ fun _ => relabels_pure (Stmt.relabel r) (.print line e)
      exact relabels_modify fun ctx ctx' h => h.report e.line .noValue
    · exact relabels_pure (Stmt.relabel r) (.print line e)
  | .block line body => by
    rw [Stmt.relabel, stmt, stmt]
    refine .inScope ((relabels_stmts body).bind fun body => ?_)
    exact relabels_pure (Stmt.relabel r) (.block line body)
  | .doWhile line body condition => by
    rw [Stmt.relabel, stmt, stmt]
    refine (relabels_typed .boolean condition).bind fun condition => ?_
    refine (relabels_stmt body).bind fun body => ?_
    exact relabels_pure (Stmt.relabel r) (.doWhile line body condition)
  | .forLoop line names init condition update body => by
    rw [Stmt.relabel, stmt, stmt]
    refine .inScope ((relabels_declarators names).bind fun names => ?_)
    refine (relabels_stmts init).bind fun init => ?_
    refine (relabels_option (relabels_typed .boolean) condition).bind fun condition => ?_
    refine (relabels_stmt body).bind fun body => ?_
    refine (relabels_stmts update).bind fun update => ?_
    exact relabels_pure (Stmt.relabel r) (.forLoop line names init condition update body)

theorem relabels_stmts (ss : List Stmt) :
    Relabels r (Stmt.relabelAll r) (stmts ss) (stmts (Stmt.relabelAll r ss)) :=
  match ss with
  | [] => by
    rw [Stmt.relabelAll, stmts]
    exact relabels_pure (Stmt.relabelAll r) []
  | s :: ss => by
    rw [Stmt.relabelAll, stmts, stmts]
    refine (relabels_stmt s).bind fun s => (relabels_stmts ss).bind fun ss => ?_
    exact relabels_pure (Stmt.relabelAll r) (s :: ss)

end

end Check

/-- A checked program and its mistakes, both relabelled. -/
def Checked.relabel (r : Relabeling) (checked : Checked) : Checked :=
  ⟨Stmt.relabelAll r checked.program, checked.maxLocals,
    checked.diagnostics.map (Diagnostic.relabel r)⟩

/-- A relabelled program is checked as the program was. -/
theorem Program.check_relabel (r : Relabeling) (typing : BranchTyping) (program : Program) :
    Program.check typing (Stmt.relabelAll r program) = (Program.check typing program).relabel r := by
  obtain ⟨hprogram, hctx⟩ :=
    Check.relabels_stmts program (.new typing) (.new typing) (Context.relabels_new typing)
  have hcheck (program : Program) : Program.check typing program =
      ⟨(Check.stmts program (.new typing)).1, (Check.stmts program (.new typing)).2.maxLocals,
        (Check.stmts program (.new typing)).2.diagnostics.toList⟩ := rfl
  rw [hcheck, hcheck, hprogram, hctx.maxLocals, hctx.diagnostics]
  rfl

end BlockLang
