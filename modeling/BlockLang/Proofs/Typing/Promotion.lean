import BlockLang.Proofs.Compilation
import BlockLang.Proofs.Rules.Expr

namespace BlockLang

namespace Expr

variable {names : String → Option Binding}

/-- Branches that need no conversion are not converted. -/
theorem branchType_promote_eq {line : Nat} {ofTrue ofFalse : Ty}
    (h : (branchType .identical line ofTrue ofFalse).2 = []) :
    branchType .promote line ofTrue ofFalse = branchType .identical line ofTrue ofFalse := by
  unfold branchType at h ⊢
  split
  · rfl
  · rename_i hne
    rw [if_neg hne] at h
    split
    · rfl
    · rename_i hany
      rw [if_neg hany] at h
      cases h

/-- An expression in which no mistake is found is checked alike under both typings. -/
theorem annotate_promote_eq (e : Expr) (h : (e.annotate .identical names).2 = []) :
    e.annotate .promote names = e.annotate .identical names := by
  have typed {e : Expr} (hm : e.mark.ty ≠ none) :
      e.annotate .promote names = e.annotate .identical names := by
    rw [annotate_of_ty hm, annotate_of_ty hm]
  induction e with
  | literal | var => rw [annotate, annotate]
  | unary mark op e ih =>
    by_cases hm : mark.ty = none
    · rw [annotate_unary hm, List.append_eq_nil_iff] at h
      rw [annotate_unary hm, annotate_unary hm, ih h.1]
    · exact typed hm
  | binary mark op l r ihl ihr =>
    by_cases hm : mark.ty = none
    · rw [annotate_binary hm, List.append_eq_nil_iff, List.append_eq_nil_iff] at h
      rw [annotate_binary hm, annotate_binary hm, ihl h.1.1, ihr h.1.2]
    · exact typed hm
  | concat mark l r ihl ihr =>
    by_cases hm : mark.ty = none
    · rw [annotate_concat hm, List.append_eq_nil_iff, List.append_eq_nil_iff] at h
      rw [annotate_concat hm, annotate_concat hm, ihl h.1.1, ihr h.1.2]
    · exact typed hm
  | ternary mark c t f ihc iht ihf =>
    by_cases hm : mark.ty = none
    · simp only [annotate_ternary hm, List.append_eq_nil_iff] at h
      obtain ⟨⟨⟨⟨hc, _⟩, ht⟩, hf⟩, branches⟩ := h
      rw [annotate_ternary hm, annotate_ternary hm, ihc hc, iht ht, ihf hf,
        branchType_promote_eq branches]
    · exact typed hm
  | guarded mark c t ihc iht =>
    by_cases hm : mark.ty = none
    · simp only [annotate_guarded hm, List.append_eq_nil_iff] at h
      rw [annotate_guarded hm, annotate_guarded hm, ihc h.1.1, iht h.2]
    · exact typed hm

end Expr

/-- The same context where numbers are converted. -/
def Context.promoting (ctx : Context) : Context :=
  { ctx with typing := .promote }

namespace Check

variable {α β : Type}

/-- Where a check meets no mistake it comes to the same if numbers are converted. -/
structure Survives (x : Check α) : Prop where
  keeps : Keeps x
  same : ∀ ctx : Context, ctx.typing = .identical → (x ctx).2.diagnostics = #[] →
    x ctx.promoting = ((x ctx).1, (x ctx).2.promoting) ∧ (x ctx).2.typing = .identical

theorem survives_pure (a : α) : Survives (pure a) :=
  ⟨keeps_pure a, fun _ hi _ => ⟨rfl, hi⟩⟩

theorem Survives.bind {x : Check α} {f : α → Check β} (hx : Survives x) (hf : ∀ a, Survives (f a)) :
    Survives (x >>= f) := by
  refine ⟨hx.keeps.bind fun a => (hf a).keeps, fun ctx hi hd => ?_⟩
  have hd' := ((hf _).keeps _).diagnostics hd
  obtain ⟨hfirst, hi'⟩ := hx.same ctx hi hd'
  obtain ⟨hsecond, hi''⟩ := (hf (x ctx).1).same (x ctx).2 hi' hd
  refine ⟨?_, hi''⟩
  change f (x ctx.promoting).1 (x ctx.promoting).2 = _
  rw [hfirst]
  exact hsecond

/-- A check that only changes the context, and not by the typing. -/
theorem survives_modify {f : Context → Context} (keeps : ∀ ctx : Context, ctx.Keeps (f ctx))
    (same : ∀ ctx : Context, f ctx.promoting = (f ctx).promoting)
    (typing : ∀ ctx : Context, (f ctx).typing = ctx.typing) : Survives (modify f) :=
  ⟨keeps, fun ctx hi _ => ⟨congrArg (Prod.mk _) (same ctx), (typing ctx).trans hi⟩⟩

theorem survives_report (line : Nat) (mistake : Mistake) : Survives (report line mistake) :=
  survives_modify (fun ctx => ctx.keeps_report line mistake) (fun _ => rfl) fun _ => rfl

theorem survives_expr (e : Expr) : Survives (expr e) := by
  refine ⟨keeps_expr e, fun ctx hi hd => ?_⟩
  have hnil := (Context.reportAll_eq_nil hd).1
  rw [hi] at hnil
  have hsame := e.annotate_promote_eq hnil
  refine ⟨?_, hi⟩
  simp only [expr, hi]
  change ((e.annotate .promote ctx.lookup?).1,
    ctx.promoting.reportAll (e.annotate .promote ctx.lookup?).2) = _
  rw [hsame]
  rfl

theorem survives_typed (expected : Ty) (e : Expr) : Survives (typed expected e) := by
  refine (survives_expr e).bind fun e => Survives.bind ?_ fun _ => survives_pure e
  exact survives_modify (fun ctx => ctx.keeps_reportAll _) (fun _ => rfl) fun _ => rfl

theorem survives_option {check : α → Check α} (h : ∀ a, Survives (check a)) (o : Option α) :
    Survives (option check o) := by
  cases o with
  | none => exact survives_pure none
  | some a =>
    rw [option, ← bind_pure_comp]
    exact (h a).bind fun _ => survives_pure _

theorem declare_promoting (ctx : Context) (name : String) (ty : Ty) (line : Nat) :
    ctx.promoting.declare name ty line =
      ((ctx.declare name ty line).1, (ctx.declare name ty line).2.promoting) ∧
    (ctx.declare name ty line).2.typing = ctx.typing := by
  by_cases hname : ctx.innermost.names.contains name = true
  · simp [Context.declare, Context.promoting, Context.report, hname]
  · by_cases hroom : ctx.nextSlot < slotLimit <;>
      simp [Context.declare, Context.promoting, Context.report, hname, hroom]

theorem survives_declare (name : String) (ty : Ty) (line : Nat) :
    Survives (declare name ty line) := by
  refine ⟨fun ctx => ctx.keeps_declare name ty line, fun ctx hi _ => ?_⟩
  obtain ⟨same, typing⟩ := declare_promoting ctx name ty line
  exact ⟨same, typing.trans hi⟩

theorem survives_declarator (d : Declarator) : Survives (declarator d) :=
  (survives_option (survives_typed d.ty) d.init).bind fun _ =>
    (survives_declare d.name d.ty d.line).bind fun _ => survives_pure _

theorem survives_declarators (ds : List Declarator) : Survives (declarators ds) := by
  induction ds with
  | nil => exact survives_pure []
  | cons d ds ih => exact (survives_declarator d).bind fun _ => ih.bind fun _ => survives_pure _

theorem Survives.inScope {x : Check α} (hx : Survives x) : Survives (inScope x) := by
  refine ⟨hx.keeps.inScope, fun ctx hi hd => ?_⟩
  have hd' : (x ctx.push).2.diagnostics = #[] := by
    rw [← Context.pop_diagnostics]
    exact hd
  obtain ⟨hsame, hi'⟩ := hx.same ctx.push hi hd'
  have hpop (c : Context) : c.promoting.pop = c.pop.promoting ∧ c.pop.typing = c.typing := by
    unfold Context.pop
    cases hc : c.outer <;> simp [Context.promoting, hc]
  change ((x ctx.push.promoting).1, (x ctx.push.promoting).2.pop) =
    ((x ctx.push).1, (x ctx.push).2.pop.promoting) ∧ (x ctx.push).2.pop.typing = .identical
  rw [hsame]
  exact ⟨congrArg (Prod.mk _) (hpop _).1, (hpop _).2.trans hi'⟩

mutual

theorem survives_stmt (s : Stmt) : Survives (stmt s) :=
  match s with
  | .declare _ _ names => by
    rw [stmt]
    exact (survives_declarators names).bind fun _ => survives_pure _
  | .eval e => by
    rw [stmt]
    exact (survives_expr e).bind fun _ => survives_pure _
  | .print _ e => by
    rw [stmt]
    refine (survives_expr e).bind fun e => ?_
    split
    · exact (survives_report _ _).bind fun _ => survives_pure _
    · exact survives_pure _
  | .block _ body => by
    rw [stmt]
    exact .inScope ((survives_stmts body).bind fun _ => survives_pure _)
  | .doWhile _ body condition => by
    rw [stmt]
    exact (survives_typed .boolean condition).bind fun _ => (survives_stmt body).bind fun _ =>
      survives_pure _
  | .forLoop _ names init condition update body => by
    rw [stmt]
    exact .inScope ((survives_declarators names).bind fun _ => (survives_stmts init).bind fun _ =>
      (survives_option (survives_typed .boolean) condition).bind fun _ =>
      (survives_stmt body).bind fun _ => (survives_stmts update).bind fun _ => survives_pure _)

theorem survives_stmts (ss : List Stmt) : Survives (stmts ss) :=
  match ss with
  | [] => by
    rw [stmts]
    exact survives_pure []
  | s :: ss => by
    rw [stmts]
    exact (survives_stmt s).bind fun _ => (survives_stmts ss).bind fun _ => survives_pure _

end

end Check

/-- A program without mistakes is checked alike under both typings. -/
theorem Program.check_promote_eq {program : Program}
    (h : (program.check .identical).diagnostics = []) :
    program.check .promote = program.check .identical := by
  have hnil : (Check.stmts program (.new .identical)).2.diagnostics = #[] := Array.ext' h
  obtain ⟨hsame, _⟩ := (Check.survives_stmts program).same (.new .identical) rfl hnil
  have hnew : Context.new .promote = (Context.new .identical).promoting := rfl
  simp only [Program.check, hnew, hsame]
  rfl

/-- What compiles where both branches of a conditional expression must have one type has the same
checked program, and compiles to the same bytecode, where numbers are converted. -/
theorem Source.compile_promote {source : Source} {b : Bytecode}
    (h : source.compile .identical = .ok b) :
    source.compile .promote = .ok b ∧
      ∃ checked, source.check .identical = .ok checked ∧ source.check .promote = .ok checked := by
  obtain ⟨checked, hc, hd, hg⟩ := compile_ok h
  obtain ⟨program, hp, rfl⟩ := check_ok hc
  have hc' : source.check .promote = .ok (program.check .identical) := by
    rw [check, hp, Except.map, Program.check_promote_eq hd]
  refine ⟨?_, program.check .identical, hc, hc'⟩
  simp only [compile, hc', Checked.compile, hd, hg]
  rfl

/-- A conditional expression of two doubles, one of them in another conditional expression. -/
theorem Source.compile_promote_nested : ∃ b,
    (Source.ofString "boolean c = true; print(c ? 1.5 : c ? 2.5 : 3.5);").compile .identical = .ok b ∧
    (Source.ofString "boolean c = true; print(c ? 1.5 : c ? 2.5 : 3.5);").compile .promote = .ok b := by
  have hrun : ((Source.ofString "boolean c = true; print(c ? 1.5 : c ? 2.5 : 3.5);").compile
      .identical).isOk = true := by
    decide +kernel
  obtain ⟨b, hb⟩ := exists_of_isOk hrun
  exact ⟨b, hb, (Source.compile_promote hb).1⟩

end BlockLang
