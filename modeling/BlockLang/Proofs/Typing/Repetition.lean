import BlockLang.Proofs.Rules.Expr
import BlockLang.Proofs.Typing.Beside

namespace BlockLang

namespace Expr

variable {typing : BranchTyping} {names : String → Option Binding} {line : Nat} {e l r : Expr}

theorem ty_ne_none_prefixed (op : UnaryOp) : (prefixed line op e).1.mark.ty ≠ none := by
  cases op with
  | negate =>
    simp only [prefixed]
    split <;> simp [Expr.mark]
  | not => simp [prefixed, Expr.mark]

theorem ty_ne_none_applied (op : BinaryOp) : (applied line op l r).1.mark.ty ≠ none := by
  cases op with
  | arith op =>
    simp only [applied, arithmetic]
    split
    · simp [joined, Expr.mark]
    · split <;> simp [Expr.mark]
  | assign =>
    simp only [applied]
    split <;> simp [Expr.mark]
  | _ => simp [applied, Expr.mark]

/-- A checked expression has a type, also where a mistake was found. -/
theorem ty_ne_none_annotate (e : Expr) : (e.annotate typing names).1.mark.ty ≠ none := by
  unfold annotate
  split
  · rename_i typed
    exact Option.isSome_iff_ne_none.mp typed
  cases e with
  | var mark name slot =>
    simp only [resolved]
    split <;> simp [Expr.mark]
  | unary mark op e => exact ty_ne_none_prefixed op
  | binary mark op l r => exact ty_ne_none_applied op
  | _ => simp [joined, Expr.mark]

/-- Checking leaves alone what it gave, whatever the names stand for by then. -/
theorem annotate_annotate {typing' : BranchTyping} {names' : String → Option Binding} (e : Expr) :
    (e.annotate typing names).1.annotate typing' names' = ((e.annotate typing names).1, []) :=
  annotate_of_ty e.ty_ne_none_annotate

end Expr

/-- The second context is the first one without some of its mistakes. -/
abbrev Context.Covers (ctx ctx' : Context) : Prop :=
  ctx.Beside (fun ds ds' => ds'.Sublist ds) ctx'

namespace Check

variable {α β : Type} {ctx : Context}

/-- What the first check gives in a context, the second one gives in each context that the first covers,
and it meets no mistake that the first does not. -/
def Repeats (ctx : Context) (x x' : Check α) : Prop :=
  ∀ ctx', ctx.Covers ctx' → (x' ctx').1 = (x ctx).1 ∧ (x ctx).2.Covers (x' ctx').2

theorem repeats_pure (a : α) : Repeats ctx (pure a) (pure a) :=
  fun _ h => ⟨rfl, h⟩

/-- What follows has to be repeated only where the first part leads. -/
theorem Repeats.bind {x x' : Check α} {f f' : α → Check β} (hx : Repeats ctx x x')
    (hf : Repeats (x ctx).2 (f (x ctx).1) (f' (x ctx).1)) : Repeats ctx (x >>= f) (x' >>= f') := by
  intro ctx' h
  obtain ⟨hresult, hctx⟩ := hx ctx' h
  change (f' (x' ctx').1 (x' ctx').2).1 = _ ∧ Context.Covers _ (f' (x' ctx').1 (x' ctx').2).2
  rw [hresult]
  exact hf _ hctx

theorem repeats_reportAll (ds : List Diagnostic) :
    Repeats ctx (modify (·.reportAll ds)) (modify (·.reportAll ds)) :=
  fun _ h => ⟨rfl, h.reportAll fun _ _ hs => hs.append_right ds⟩

theorem repeats_report (line : Nat) (mistake : Mistake) :
    Repeats ctx (report line mistake) (report line mistake) :=
  repeats_reportAll [⟨line, mistake⟩]

/-- An expression that is checked has no more mistakes of its own. -/
theorem repeats_expr (e : Expr) : Repeats ctx (expr e) (expr (expr e ctx).1) := by
  intro ctx' h
  simp only [expr, e.annotate_annotate, true_and]
  refine h.reportAll fun ds ds' hs => ?_
  rw [List.append_nil]
  exact hs.trans (List.sublist_append_left ds _)

/-- That its type is not the expected one is found again. -/
theorem repeats_typed (expected : Ty) (e : Expr) :
    Repeats ctx (typed expected e) (typed expected (typed expected e ctx).1) :=
  (repeats_expr e).bind ((repeats_reportAll _).bind (repeats_pure _))

theorem repeats_option {check : α → Check α} (h : ∀ a, Repeats ctx (check a) (check (check a ctx).1))
    (o : Option α) : Repeats ctx (option check o) (option check (option check o ctx).1) := by
  cases o with
  | none => exact repeats_pure none
  | some a =>
    intro ctx' hctx
    obtain ⟨hresult, hnext⟩ := h a ctx' hctx
    exact ⟨congrArg some hresult, hnext⟩

theorem repeats_declare (name : String) (ty : Ty) (line : Nat) :
    Repeats ctx (declare name ty line) (declare name ty line) :=
  fun _ h => h.declare (fun _ _ ds hs => hs.append_right ds) name ty line

theorem repeats_declarator (d : Declarator) :
    Repeats ctx (declarator d) (declarator (declarator d ctx).1) :=
  (repeats_option (repeats_typed d.ty) d.init).bind
    ((repeats_declare d.name d.ty d.line).bind (repeats_pure _))

theorem repeats_declarators (ds : List Declarator) :
    Repeats ctx (declarators ds) (declarators (declarators ds ctx).1) := by
  induction ds generalizing ctx with
  | nil => exact repeats_pure []
  | cons d ds ih => exact (repeats_declarator d).bind (ih.bind (repeats_pure _))

theorem Repeats.inScope {x x' : Check α} (h : Repeats ctx.push x x') :
    Repeats ctx (inScope x) (inScope x') := by
  intro ctx' hctx
  obtain ⟨hresult, hinside⟩ := h ctx'.push hctx.push
  exact ⟨hresult, hinside.pop⟩

mutual

-- A checked statement is of the kind that it was of before, so that the second check takes the same
-- steps; each of them starts where the first check was at that step.

theorem repeats_stmt (s : Stmt) (ctx : Context) : Repeats ctx (stmt s) (stmt (stmt s ctx).1) :=
  match s with
  | .declare line ty names => by
    rw [stmt]
    change Repeats ctx _ (stmt (.declare line ty _))
    rw [stmt]
    exact (repeats_declarators names).bind (repeats_pure _)
  | .eval e => by
    rw [stmt]
    change Repeats ctx _ (stmt (.eval _))
    rw [stmt]
    exact (repeats_expr e).bind (repeats_pure _)
  | .print line e => by
    have hprinted : (stmt (.print line e) ctx).1 = .print line (expr e ctx).1 := by
      rw [stmt]
      simp only [Check.expr, bind, StateT.bind]
      split <;> rfl
    rw [hprinted, stmt, stmt]
    refine (repeats_expr e).bind ?_
    split
    · exact (repeats_report _ _).bind (repeats_pure _)
    · exact repeats_pure _
  | .block line body => by
    rw [stmt]
    change Repeats ctx _ (stmt (.block line _))
    rw [stmt]
    exact .inScope ((repeats_stmts body _).bind (repeats_pure _))
  | .doWhile line body condition => by
    rw [stmt]
    change Repeats ctx _ (stmt (.doWhile line _ _))
    rw [stmt]
    exact (repeats_typed .boolean condition).bind ((repeats_stmt body _).bind (repeats_pure _))
  | .forLoop line names init condition update body => by
    rw [stmt]
    change Repeats ctx _ (stmt (.forLoop line _ _ _ _ _))
    rw [stmt]
    refine .inScope ((repeats_declarators names).bind ?_)
    refine (repeats_stmts init _).bind ?_
    refine (repeats_option (repeats_typed .boolean) condition).bind ?_
    refine (repeats_stmt body _).bind ?_
    exact (repeats_stmts update _).bind (repeats_pure _)

theorem repeats_stmts (ss : List Stmt) (ctx : Context) :
    Repeats ctx (stmts ss) (stmts (stmts ss ctx).1) :=
  match ss with
  | [] => by
    rw [stmts]
    change Repeats ctx _ (stmts [])
    rw [stmts]
    exact repeats_pure []
  | s :: ss => by
    rw [stmts]
    change Repeats ctx _ (stmts (_ :: _))
    rw [stmts]
    exact (repeats_stmt s _).bind ((repeats_stmts ss _).bind (repeats_pure _))

end

end Check

/-- A checked program that is checked again stays as it is and needs as many slots, and the mistakes
are some of those that were found before, in the same order. Without mistakes it stays so. -/
theorem Program.check_check (typing : BranchTyping) (program : Program) :
    let once := program.check typing
    let twice := once.program.check typing
    twice.program = once.program ∧ twice.maxLocals = once.maxLocals ∧
      twice.diagnostics.Sublist once.diagnostics ∧ (once.diagnostics = [] → twice.diagnostics = []) := by
  intro once twice
  have hnew : (Context.new typing).Covers (.new typing) := ⟨#[], rfl, .slnil⟩
  obtain ⟨hprogram, hctx⟩ := Check.repeats_stmts program (.new typing) (.new typing) hnew
  have hfewer : twice.diagnostics.Sublist once.diagnostics := hctx.diagnostics
  refine ⟨hprogram, hctx.maxLocals, hfewer, fun hclean => ?_⟩
  rw [hclean] at hfewer
  exact List.sublist_nil.mp hfewer

/-- What a declaration gets wrong is found both times, an unknown name only the first time. -/
example :
    let program : Program :=
      [.declare 1 .int [⟨1, "n", .int, some (.literal (.untyped 1) (.boolean true)), none⟩],
        .declare 2 .int [⟨2, "n", .int, none, none⟩], .print 3 (.var (.untyped 3) "m" none)]
    let once := program.check .identical
    once.diagnostics =
        [⟨1, .typeMismatch .int .boolean⟩, ⟨2, .redeclared "n"⟩, ⟨3, .unknownVariable "m"⟩] ∧
      (Program.check .identical once.program).diagnostics =
        [⟨1, .typeMismatch .int .boolean⟩, ⟨2, .redeclared "n"⟩] :=
  ⟨rfl, rfl⟩

end BlockLang
