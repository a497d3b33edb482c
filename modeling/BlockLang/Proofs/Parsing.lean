import BlockLang.Instruction
import BlockLang.Stmt.Parser

namespace BlockLang

section Results

variable {ε α β : Type} {result : Except ε α} {f : α → β}

/-- What is known of a result through a function was a result. -/
theorem exists_of_map_ok {b : β} (h : result.map f = .ok b) : ∃ a, result = .ok a ∧ f a = b := by
  cases result with
  | error e => cases h
  | ok a => exact ⟨a, rfl, Except.ok.inj h⟩

theorem eq_error_of_map {e : ε} (h : result.map f = .error e) : result = .error e := by
  cases result with
  | error e => exact congrArg Except.error (Except.error.inj h)
  | ok a => cases h

theorem exists_of_isOk (h : result.isOk = true) : ∃ a, result = .ok a := by
  cases result with
  | error e => cases h
  | ok a => exact ⟨a, rfl⟩

end Results

/-- No node of the expression has a type. -/
def Expr.Untyped : Expr → Prop
  | literal mark _ | var mark _ _ => mark.ty = none
  | unary mark _ e => mark.ty = none ∧ e.Untyped
  | binary mark _ l r | concat mark l r => mark.ty = none ∧ l.Untyped ∧ r.Untyped
  | ternary mark c t f => mark.ty = none ∧ c.Untyped ∧ t.Untyped ∧ f.Untyped
  | guarded mark c t => mark.ty = none ∧ c.Untyped ∧ t.Untyped

structure Declarator.Untyped (d : Declarator) : Prop where
  kind : ∃ kind, d.ty.kind? = some kind
  init : ∀ e, d.init = some e → e.Untyped

mutual

/-- No expression in the statement has a type, and every declared name has one with values. -/
def Stmt.Untyped : Stmt → Prop
  | .declare _ _ names => ∀ d ∈ names, d.Untyped
  | .eval e | .print _ e => e.Untyped
  | .block _ body => AllUntyped body
  | .doWhile _ body condition => body.Untyped ∧ condition.Untyped
  | .forLoop _ names init condition update body =>
    (∀ d ∈ names, d.Untyped) ∧ AllUntyped init ∧ (∀ e, condition = some e → e.Untyped) ∧
      AllUntyped update ∧ body.Untyped

def Stmt.AllUntyped : List Stmt → Prop
  | [] => True
  | s :: ss => s.Untyped ∧ AllUntyped ss

end

theorem TokenKind.kind_of_ty? {kind : TokenKind} {ty : Ty} (h : kind.ty? = some ty) :
    ∃ k, ty.kind? = some k := by
  cases kind with
  | keyword word => cases word <;> cases h <;> exact ⟨_, rfl⟩
  | _ => cases h

theorem Expr.Untyped.applyPrefixes {ops : List (Nat × UnaryOp)} {e : Expr} (h : e.Untyped) :
    (Expr.applyPrefixes ops e).Untyped := by
  induction ops with
  | nil => exact h
  | cons op ops ih => exact ⟨rfl, ih⟩

namespace Reader

variable {α β : Type}

/-- What a reader returns satisfies the predicate. -/
def Yields (x : Reader α) (P : α → Prop) : Prop :=
  ∀ scan a scan', x scan = .ok (a, scan') → P a

theorem Yields.pure {P : α → Prop} {a : α} (h : P a) : Yields (pure a) P := by
  rintro scan _ _ ⟨⟩
  exact h

theorem Yields.bind {x : Reader α} {f : α → Reader β} {P : α → Prop} {Q : β → Prop}
    (hx : Yields x P) (hf : ∀ a, P a → Yields (f a) Q) : Yields (x >>= f) Q := by
  intro scan b scan' h
  change (x scan).bind (fun r => f r.1 r.2) = .ok (b, scan') at h
  cases hr : x scan with
  | error e => simp [hr, Except.bind] at h
  | ok r =>
    obtain ⟨a, next⟩ := r
    simp only [hr, Except.bind] at h
    exact hf a (hx scan a next hr) next b scan' h

theorem yields_any (x : Reader α) : Yields x fun _ => True :=
  fun _ _ _ _ => trivial

/-- Where nothing need be known of the first result. -/
theorem Yields.after {x : Reader α} {f : α → Reader β} {Q : β → Prop}
    (hf : ∀ a, Yields (f a) Q) : Yields (x >>= f) Q :=
  (yields_any x).bind fun a _ => hf a

theorem yields_fail {fault : ParseFault} {offset : Nat} {P : α → Prop} :
    Yields (fail fault offset) P := nofun

theorem Yields.within {construct : Construct} {x : Reader α} {P : α → Prop} (h : Yields x P) :
    Yields (within construct x) P := by
  intro scan a scan' hr
  unfold Reader.within at hr
  split at hr
  · rename_i hx
    cases hr
    exact h _ _ _ hx
  · cases hr

theorem yields_literal (token : Token) (value : Literal) :
    Yields (literal token value) Expr.Untyped :=
  .after fun _ => .pure rfl

theorem yields_prefixed {ops : List (Nat × UnaryOp)} {x : Reader Expr} (h : Yields x Expr.Untyped) :
    Yields (x >>= fun e => pure (Expr.applyPrefixes ops e)) Expr.Untyped :=
  h.bind fun _ he => .pure he.applyPrefixes

theorem yields_intLiteral (ops : List (Nat × UnaryOp)) (token : Token) :
    Yields (intLiteral ops token) Expr.Untyped := by
  unfold intLiteral
  dsimp only
  split
  · exact yields_fail
  · exact yields_prefixed (yields_literal token _)

theorem yields_stringLiteral (token : Token) : Yields (stringLiteral token) Expr.Untyped := by
  unfold stringLiteral
  split
  · exact yields_fail
  · exact yields_literal token _

/-- At every depth, all the readers of expressions build trees without types. -/
theorem yields_exprs (depth : Nat) :
    Yields (expr depth) Expr.Untyped ∧ Yields (operand depth) Expr.Untyped ∧
    (∀ least lhs, Expr.Untyped lhs → Yields (climb depth least lhs) Expr.Untyped) ∧
    (∀ op rhs, Expr.Untyped rhs → Yields (extend depth op rhs) Expr.Untyped) := by
  induction depth with
  | zero =>
    refine ⟨?_, ?_, ?_, ?_⟩
    · rw [expr]
      exact yields_fail
    · rw [operand]
      exact yields_fail
    · intro least lhs _
      rw [climb]
      exact yields_fail
    · intro op rhs _
      rw [extend]
      exact yields_fail
  | succ depth ih =>
    obtain ⟨hexpr, hoperand, hclimb, hextend⟩ := ih
    refine ⟨?_, ?_, ?_, ?_⟩
    · rw [expr]
      exact .within (hoperand.bind fun lhs hl => hclimb 0 lhs hl)
    · rw [operand]
      refine .after fun ops => .after fun token => ?_
      split
      · exact .after fun _ => hexpr.bind fun _ he => .after fun _ => .pure he.applyPrefixes
      · exact .after fun _ => .pure (Expr.Untyped.applyPrefixes rfl)
      · exact yields_intLiteral ops token
      · exact yields_prefixed (yields_literal token _)
      · exact yields_prefixed (yields_stringLiteral token)
      · exact yields_prefixed (yields_literal token _)
      · exact yields_prefixed (yields_literal token _)
      · exact yields_fail
    · intro least lhs hl
      rw [climb]
      refine .after fun op => ?_
      split
      · exact .pure hl
      · split
        · exact .pure hl
        · have hmark : Yields (Mark.untyped <$> line) fun mark => mark.ty = none := by
            rw [← bind_pure_comp]
            exact .after fun _ => .pure rfl
          refine hmark.bind fun mark hm => .after fun _ => ?_
          split
          · refine hoperand.bind fun first hf => (hextend _ first hf).bind fun rhs hr => ?_
            exact hclimb _ _ ⟨hm, hl, hr⟩
          · refine (Yields.within hexpr).bind fun whenTrue ht => .after fun next => ?_
            split
            · refine .after fun _ => hoperand.bind fun first hf =>
                (hextend _ first hf).bind fun whenFalse hf => ?_
              exact hclimb _ _ ⟨hm, hl, ht, hf⟩
            · exact hclimb _ _ ⟨hm, hl, ht⟩
    · intro op rhs hr
      rw [extend]
      refine .after fun next => ?_
      split
      · exact .pure hr
      · split
        · exact (hclimb _ rhs hr).bind fun rhs hr => hextend op rhs hr
        · split
          · exact (hclimb _ rhs hr).bind fun rhs hr => hextend op rhs hr
          · exact .pure hr

theorem yields_expr (depth : Nat) : Yields (expr depth) Expr.Untyped :=
  (yields_exprs depth).1

theorem yields_parenthesized (depth : Nat) : Yields (parenthesized depth) Expr.Untyped :=
  .after fun _ => (yields_expr depth).bind fun _ he => .after fun _ => .pure he

theorem yields_initializer? (depth : Nat) :
    Yields (initializer? depth) fun init => ∀ e, init = some e → e.Untyped := by
  refine .after fun next => ?_
  split
  · refine .after fun _ => (Yields.within (yields_expr depth)).bind fun e he => .pure ?_
    rintro _ ⟨⟩
    exact he
  · exact .pure nofun

theorem yields_declarators {ty : Ty} (hty : ∃ kind, ty.kind? = some kind) (depth : Nat) :
    Yields (declarators ty depth) fun ds => ∀ d ∈ ds, d.Untyped := by
  induction depth with
  | zero => exact yields_fail
  | succ depth ih =>
    refine .after fun token => .after fun _ => (yields_initializer? depth).bind fun init hi => ?_
    have hfirst : Declarator.Untyped ⟨token.line, token.text, ty, init, none⟩ := ⟨hty, hi⟩
    refine .after fun next => ?_
    split
    · refine .after fun _ => ih.bind fun ds hds => .pure ?_
      exact List.forall_mem_cons.mpr ⟨hfirst, hds⟩
    · exact .pure (List.forall_mem_singleton.mpr hfirst)

theorem yields_declaration {ty : Ty} (hty : ∃ kind, ty.kind? = some kind) (depth : Nat) :
    Yields (declaration ty depth) fun ds => ∀ d ∈ ds, d.Untyped :=
  .after fun _ => yields_declarators hty depth

theorem yields_evals (depth : Nat) : Yields (evals depth) Stmt.AllUntyped := by
  induction depth with
  | zero => exact yields_fail
  | succ depth ih =>
    refine (yields_expr depth).bind fun e he => .after fun next => ?_
    split
    · exact .after fun _ => ih.bind fun _ hs => .pure ⟨he, hs⟩
    · exact .pure ⟨he, trivial⟩

theorem yields_evalsUpTo (last : TokenKind) (depth : Nat) :
    Yields (evalsUpTo last depth) Stmt.AllUntyped := by
  refine .after fun next => ?_
  split
  · exact .pure trivial
  · exact yields_evals depth

theorem yields_loopStart (depth : Nat) :
    Yields (loopStart depth) fun start => (∀ d ∈ start.1, d.Untyped) ∧ Stmt.AllUntyped start.2 := by
  refine .after fun kind => ?_
  split
  · rename_i ty hty
    obtain ⟨kind, _, hk⟩ := Option.bind_eq_some_iff.mp hty
    exact (yields_declaration (TokenKind.kind_of_ty? hk) depth).bind fun ds hds =>
      .pure ⟨hds, trivial⟩
  · exact (yields_evalsUpTo .semicolon depth).bind fun ss hs => .pure ⟨nofun, hs⟩

theorem yields_loopCondition (depth : Nat) :
    Yields (loopCondition depth) fun condition => ∀ e, condition = some e → e.Untyped := by
  refine .after fun next => ?_
  split
  · exact .pure nofun
  · refine (Yields.within (yields_expr depth)).bind fun e he => .pure ?_
    rintro _ ⟨⟩
    exact he

theorem yields_stmts (depth : Nat) :
    Yields (stmt depth) Stmt.Untyped ∧ Yields (blockRest depth) Stmt.AllUntyped := by
  induction depth with
  | zero =>
    rw [stmt, blockRest]
    exact ⟨yields_fail, yields_fail⟩
  | succ depth ih =>
    obtain ⟨hstmt, hrest⟩ := ih
    refine ⟨?_, ?_⟩
    · rw [stmt]
      refine .within (.after fun token => ?_)
      dsimp only
      split
      · exact .after fun _ => hrest.bind fun _ hb => .pure hb
      · exact .within (.after fun _ => hstmt.bind fun _ hb => .after fun _ =>
          (yields_parenthesized depth).bind fun _ hc => .after fun _ => .pure ⟨hb, hc⟩)
      · refine .within (.after fun _ => .after fun _ => (yields_loopStart depth).bind fun start hs => ?_)
        exact .after fun _ => (yields_loopCondition depth).bind fun _ hc => .after fun _ =>
          (yields_evalsUpTo .closeParen depth).bind fun _ hu => .after fun _ =>
          hstmt.bind fun _ hb => .pure ⟨hs.1, hs.2, hc, hu, hb⟩
      · exact .after fun _ => (yields_parenthesized depth).bind fun _ he => .after fun _ => .pure he
      · split
        · rename_i ty hty
          exact (yields_declaration (TokenKind.kind_of_ty? hty) depth).bind fun _ hd =>
            .after fun _ => .pure hd
        · exact (yields_expr depth).bind fun _ he => .after fun _ => .pure he
    · rw [blockRest]
      refine .after fun token => ?_
      split
      · exact .after fun _ => .pure trivial
      · exact hstmt.bind fun _ hs => hrest.bind fun _ hr => .pure ⟨hs, hr⟩

theorem yields_program (depth : Nat) : Yields (program depth) Stmt.AllUntyped := by
  induction depth with
  | zero => exact yields_fail
  | succ depth ih =>
    rw [program]
    refine .after fun next => ?_
    split
    · exact .pure trivial
    · exact (yields_stmts depth).1.bind fun _ hs => ih.bind fun _ hr => .pure ⟨hs, hr⟩

end Reader

/-- A parsed program has not been checked, and what it declares has values. -/
theorem Program.untyped_of_parse {source : Source} {program : Program}
    (h : Program.parse source = .ok program) : Stmt.AllUntyped program := by
  unfold Program.parse at h
  dsimp only at h
  cases hr : Reader.program (Reader.depthOf (Scan.ofSource source)) (Scan.ofSource source) with
  | error e => simp [hr, Except.map] at h
  | ok r =>
    simp only [hr, Except.map, Except.ok.injEq] at h
    subst h
    exact Reader.yields_program _ _ _ _ hr

end BlockLang
