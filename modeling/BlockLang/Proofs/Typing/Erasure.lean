import BlockLang.Proofs.Rules.Expr
import BlockLang.Stmt.Typing

namespace BlockLang

def Mark.erase (mark : Mark) : Mark :=
  .untyped mark.line

/-- The expression without types and slots. Joined texts are a sum again. -/
def Expr.erase : Expr → Expr
  | literal mark value => literal mark.erase value
  | var mark name _ => var mark.erase name none
  | unary mark op e => unary mark.erase op e.erase
  | binary mark op l r => binary mark.erase op l.erase r.erase
  | concat mark l r => binary mark.erase (.arith .add) l.erase r.erase
  | ternary mark c t f => ternary mark.erase c.erase t.erase f.erase
  | guarded mark c t => guarded mark.erase c.erase t.erase

/-- The declared name without its slot. Its type is part of the program. -/
def Declarator.erase (d : Declarator) : Declarator :=
  ⟨d.line, d.name, d.ty, d.init.map Expr.erase, none⟩

mutual

def Stmt.erase : Stmt → Stmt
  | .declare line ty names => .declare line ty (names.map Declarator.erase)
  | .eval e => .eval e.erase
  | .print line e => .print line e.erase
  | .block line body => .block line (eraseAll body)
  | .doWhile line body condition => .doWhile line body.erase condition.erase
  | .forLoop line names init condition update body =>
    .forLoop line (names.map Declarator.erase) (eraseAll init) (condition.map Expr.erase)
      (eraseAll update) body.erase

def Stmt.eraseAll : List Stmt → List Stmt
  | [] => []
  | s :: ss => s.erase :: eraseAll ss

end

/-- No node has a type, no variable a slot, and no text is joined. -/
def Expr.Bare : Expr → Prop
  | literal mark _ => mark.ty = none
  | var mark _ slot => mark.ty = none ∧ slot = none
  | unary mark _ e => mark.ty = none ∧ e.Bare
  | binary mark _ l r => mark.ty = none ∧ l.Bare ∧ r.Bare
  | concat _ _ _ => False
  | ternary mark c t f => mark.ty = none ∧ c.Bare ∧ t.Bare ∧ f.Bare
  | guarded mark c t => mark.ty = none ∧ c.Bare ∧ t.Bare

structure Declarator.Bare (d : Declarator) : Prop where
  init : ∀ e, d.init = some e → e.Bare
  slot : d.slot = none

mutual

def Stmt.Bare : Stmt → Prop
  | .declare _ _ names => ∀ d ∈ names, d.Bare
  | .eval e | .print _ e => e.Bare
  | .block _ body => AllBare body
  | .doWhile _ body condition => body.Bare ∧ condition.Bare
  | .forLoop _ names init condition update body =>
    (∀ d ∈ names, d.Bare) ∧ AllBare init ∧ (∀ e, condition = some e → e.Bare) ∧ AllBare update ∧
      body.Bare

def Stmt.AllBare : List Stmt → Prop
  | [] => True
  | s :: ss => s.Bare ∧ AllBare ss

end

/-- One of the operands is text. -/
def Expr.HasText (l r : Expr) : Prop :=
  l.ty = .string ∨ r.ty = .string

/-- Where an operand of a sum is text, the sum is joined text, and nowhere else. -/
def Expr.JoinsTexts : Expr → Prop
  | literal _ _ | var _ _ _ => True
  | unary _ _ e => e.JoinsTexts
  | binary _ op l r => (op = .arith .add → ¬ HasText l r) ∧ l.JoinsTexts ∧ r.JoinsTexts
  | concat _ l r => HasText l r ∧ l.JoinsTexts ∧ r.JoinsTexts
  | ternary _ c t f => c.JoinsTexts ∧ t.JoinsTexts ∧ f.JoinsTexts
  | guarded _ c t => c.JoinsTexts ∧ t.JoinsTexts

def Declarator.JoinsTexts (d : Declarator) : Prop :=
  ∀ e, d.init = some e → e.JoinsTexts

mutual

def Stmt.JoinsTexts : Stmt → Prop
  | .declare _ _ names => ∀ d ∈ names, d.JoinsTexts
  | .eval e | .print _ e => e.JoinsTexts
  | .block _ body => AllJoinTexts body
  | .doWhile _ body condition => body.JoinsTexts ∧ condition.JoinsTexts
  | .forLoop _ names init condition update body =>
    (∀ d ∈ names, d.JoinsTexts) ∧ AllJoinTexts init ∧ (∀ e, condition = some e → e.JoinsTexts) ∧
      AllJoinTexts update ∧ body.JoinsTexts

def Stmt.AllJoinTexts : List Stmt → Prop
  | [] => True
  | s :: ss => s.JoinsTexts ∧ AllJoinTexts ss

end

namespace Expr

variable {typing : BranchTyping} {names : String → Option Binding} {line : Nat} {e l r : Expr}

theorem erase_of_bare (h : e.Bare) : e.erase = e := by
  have untyped {mark : Mark} (hm : mark.ty = none) : mark.erase = mark :=
    congrArg (Mark.mk mark.line) hm.symm
  induction e with
  | literal mark value => rw [Expr.erase, untyped h]
  | var mark name slot =>
    obtain ⟨hm, rfl⟩ := h
    rw [Expr.erase, untyped hm]
  | unary mark op e ih =>
    obtain ⟨hm, he⟩ := h
    rw [Expr.erase, untyped hm, ih he]
  | binary mark op l r ihl ihr =>
    obtain ⟨hm, hl, hr⟩ := h
    rw [Expr.erase, untyped hm, ihl hl, ihr hr]
  | concat => exact h.elim
  | ternary mark c t f ihc iht ihf =>
    obtain ⟨hm, hc, ht, hf⟩ := h
    rw [Expr.erase, untyped hm, ihc hc, iht ht, ihf hf]
  | guarded mark c t ihc iht =>
    obtain ⟨hm, hc, ht⟩ := h
    rw [Expr.erase, untyped hm, ihc hc, iht ht]

theorem erase_prefixed (op : UnaryOp) :
    (prefixed line op e).1.erase = unary (.untyped line) op e.erase := by
  cases op with
  | negate =>
    simp only [prefixed]
    split <;> rfl
  | not => rfl

theorem erase_applied (op : BinaryOp) :
    (applied line op l r).1.erase = binary (.untyped line) op l.erase r.erase := by
  cases op with
  | arith op =>
    simp only [applied, arithmetic]
    split
    · rename_i hjoin
      rw [hjoin.1]
      rfl
    · split <;> rfl
  | assign =>
    simp only [applied]
    split <;> rfl
  | _ => rfl

/-- Checking an expression changes nothing but types, slots and sums of texts. -/
theorem erase_annotate (e : Expr) : (e.annotate typing names).1.erase = e.erase := by
  have typed {e : Expr} (hm : e.mark.ty ≠ none) : (e.annotate typing names).1.erase = e.erase := by
    rw [annotate_of_ty hm]
  induction e with
  | literal mark value =>
    by_cases hm : mark.ty = none
    · rw [annotate_literal hm]
      rfl
    · exact typed hm
  | var mark name slot =>
    by_cases hm : mark.ty = none
    · rw [annotate_var hm]
      cases names name <;> rfl
    · exact typed hm
  | unary mark op e ih =>
    by_cases hm : mark.ty = none
    · rw [annotate_unary hm, erase_prefixed, ih]
      rfl
    · exact typed hm
  | binary mark op l r ihl ihr =>
    by_cases hm : mark.ty = none
    · rw [annotate_binary hm, erase_applied, ihl, ihr]
      rfl
    · exact typed hm
  | concat mark l r ihl ihr =>
    by_cases hm : mark.ty = none
    · simp only [annotate_concat hm, joined, Expr.erase, ihl, ihr]
      rfl
    · exact typed hm
  | ternary mark c t f ihc iht ihf =>
    by_cases hm : mark.ty = none
    · simp only [annotate_ternary hm, Expr.erase, ihc, iht, ihf]
      rfl
    · exact typed hm
  | guarded mark c t ihc iht =>
    by_cases hm : mark.ty = none
    · simp only [annotate_guarded hm, Expr.erase, ihc, iht]
      rfl
    · exact typed hm

theorem joinsTexts_prefixed (op : UnaryOp) (he : e.JoinsTexts) : (prefixed line op e).1.JoinsTexts := by
  cases op with
  | negate =>
    simp only [prefixed]
    split <;> exact he
  | not => exact he

theorem joinsTexts_applied (op : BinaryOp) (hl : l.JoinsTexts) (hr : r.JoinsTexts) :
    (applied line op l r).1.JoinsTexts := by
  cases op with
  | arith op =>
    simp only [applied, arithmetic]
    split
    · rename_i hjoin
      exact ⟨hjoin.2, hl, hr⟩
    · rename_i hjoin
      have apart : BinaryOp.arith op = .arith .add → ¬ HasText l r :=
        fun hop htext => hjoin ⟨BinaryOp.arith.inj hop, htext⟩
      split <;> exact ⟨apart, hl, hr⟩
  | assign =>
    simp only [applied]
    split <;> exact ⟨by simp, hl, hr⟩
  | _ => exact ⟨by simp, hl, hr⟩

theorem joinsTexts_annotate (h : e.Bare) : (e.annotate typing names).1.JoinsTexts := by
  induction e with
  | literal mark value =>
    rw [annotate_literal h]
    trivial
  | var mark name slot =>
    rw [annotate_var h.1]
    cases names name <;> trivial
  | unary mark op e ih =>
    obtain ⟨hm, he⟩ := h
    rw [annotate_unary hm]
    exact joinsTexts_prefixed op (ih he)
  | binary mark op l r ihl ihr =>
    obtain ⟨hm, hl, hr⟩ := h
    rw [annotate_binary hm]
    exact joinsTexts_applied op (ihl hl) (ihr hr)
  | concat => exact h.elim
  | ternary mark c t f ihc iht ihf =>
    obtain ⟨hm, hc, ht, hf⟩ := h
    rw [annotate_ternary hm]
    exact ⟨ihc hc, iht ht, ihf hf⟩
  | guarded mark c t ihc iht =>
    obtain ⟨hm, hc, ht⟩ := h
    rw [annotate_guarded hm]
    exact ⟨ihc hc, iht ht⟩

end Expr

namespace Check

variable {α β : Type}

/-- What a check gives is as said, whatever the context. -/
def Returns (x : Check α) (P : α → Prop) : Prop :=
  ∀ ctx, P (x ctx).1

theorem returns_pure {P : α → Prop} {a : α} (h : P a) : Returns (pure a) P :=
  fun _ => h

theorem Returns.bind {x : Check α} {f : α → Check β} {P : α → Prop} {Q : β → Prop}
    (hx : Returns x P) (hf : ∀ a, P a → Returns (f a) Q) : Returns (x >>= f) Q :=
  fun ctx => hf _ (hx ctx) _

/-- Where the first result does not matter. -/
theorem Returns.next {x : Check α} {f : α → Check β} {Q : β → Prop} (hf : ∀ a, Returns (f a) Q) :
    Returns (x >>= f) Q :=
  fun _ => hf _ _

theorem Returns.inScope {x : Check α} {P : α → Prop} (h : Returns x P) : Returns (inScope x) P :=
  fun ctx => h ctx.push

theorem returns_expr {e : Expr} (h : e.Bare) :
    Returns (expr e) fun e' => e'.erase = e ∧ e'.JoinsTexts := by
  intro ctx
  exact ⟨(Expr.erase_annotate e).trans (Expr.erase_of_bare h), Expr.joinsTexts_annotate h⟩

theorem returns_typed (expected : Ty) {e : Expr} (h : e.Bare) :
    Returns (typed expected e) fun e' => e'.erase = e ∧ e'.JoinsTexts :=
  (returns_expr h).bind fun _ he => .next fun _ => returns_pure he

theorem returns_option (expected : Ty) {o : Option Expr} (h : ∀ e, o = some e → e.Bare) :
    Returns (option (typed expected) o) fun o' =>
      o'.map Expr.erase = o ∧ ∀ e, o' = some e → e.JoinsTexts := by
  cases o with
  | none => exact returns_pure ⟨rfl, nofun⟩
  | some e =>
    intro ctx
    obtain ⟨herase, hjoins⟩ := returns_typed expected (h e rfl) ctx
    refine ⟨congrArg some herase, ?_⟩
    rintro _ ⟨⟩
    exact hjoins

theorem returns_declarator {d : Declarator} (h : d.Bare) :
    Returns (declarator d) fun d' => d'.erase = d ∧ d'.JoinsTexts := by
  obtain ⟨line, name, ty, init, slot⟩ := d
  obtain ⟨hinit, rfl⟩ := h
  refine (returns_option ty hinit).bind fun init' hi => .next fun slot => returns_pure ⟨?_, hi.2⟩
  rw [Declarator.erase, hi.1]

theorem returns_declarators {ds : List Declarator} (h : ∀ d ∈ ds, d.Bare) :
    Returns (declarators ds) fun ds' => ds'.map Declarator.erase = ds ∧ ∀ d ∈ ds', d.JoinsTexts := by
  induction ds with
  | nil => exact returns_pure ⟨rfl, nofun⟩
  | cons d ds ih =>
    obtain ⟨hd, hds⟩ := List.forall_mem_cons.mp h
    refine (returns_declarator hd).bind fun d' hd' => (ih hds).bind fun ds' hds' => ?_
    refine returns_pure ⟨?_, List.forall_mem_cons.mpr ⟨hd'.2, hds'.2⟩⟩
    rw [List.map_cons, hd'.1, hds'.1]

mutual

theorem returns_stmt (s : Stmt) (h : s.Bare) :
    Returns (stmt s) fun s' => s'.erase = s ∧ s'.JoinsTexts :=
  match s with
  | .declare line ty names => by
    rw [stmt]
    refine (returns_declarators h).bind fun names' hn => returns_pure ⟨?_, hn.2⟩
    rw [Stmt.erase, hn.1]
  | .eval e => by
    rw [stmt]
    refine (returns_expr h).bind fun e' he => returns_pure ⟨?_, he.2⟩
    rw [Stmt.erase, he.1]
  | .print line e => by
    rw [stmt]
    refine (returns_expr h).bind fun e' he => ?_
    have herase : (Stmt.print line e').erase = .print line e := by rw [Stmt.erase, he.1]
    split
    · exact .next fun _ => returns_pure ⟨herase, he.2⟩
    · exact returns_pure ⟨herase, he.2⟩
  | .block line body => by
    rw [stmt]
    refine .inScope ((returns_stmts body h).bind fun body' hb => returns_pure ⟨?_, hb.2⟩)
    rw [Stmt.erase, hb.1]
  | .doWhile line body condition => by
    obtain ⟨hbody, hcondition⟩ := h
    rw [stmt]
    refine (returns_typed .boolean hcondition).bind fun condition' hc => ?_
    refine (returns_stmt body hbody).bind fun body' hb => returns_pure ⟨?_, hb.2, hc.2⟩
    rw [Stmt.erase, hb.1, hc.1]
  | .forLoop line names init condition update body => by
    obtain ⟨hnames, hinit, hcondition, hupdate, hbody⟩ := h
    rw [stmt]
    refine .inScope ((returns_declarators hnames).bind fun names' hn => ?_)
    refine (returns_stmts init hinit).bind fun init' hi => ?_
    refine (returns_option .boolean hcondition).bind fun condition' hc => ?_
    refine (returns_stmt body hbody).bind fun body' hb => ?_
    refine (returns_stmts update hupdate).bind fun update' hu => ?_
    refine returns_pure ⟨?_, hn.2, hi.2, hc.2, hu.2, hb.2⟩
    rw [Stmt.erase, hn.1, hi.1, hc.1, hu.1, hb.1]

theorem returns_stmts (ss : List Stmt) (h : Stmt.AllBare ss) :
    Returns (stmts ss) fun ss' => Stmt.eraseAll ss' = ss ∧ Stmt.AllJoinTexts ss' :=
  match ss with
  | [] => by
    rw [stmts]
    exact returns_pure ⟨rfl, trivial⟩
  | s :: ss => by
    rw [stmts]
    refine (returns_stmt s h.1).bind fun s' hs => (returns_stmts ss h.2).bind fun ss' hss => ?_
    refine returns_pure ⟨?_, hs.2, hss.2⟩
    rw [Stmt.eraseAll, hs.1, hss.1]

end

end Check

/-- Without its types, its slots and its joined texts a checked program is the program that was checked,
and a sum joins texts exactly if one of its checked operands is text. This holds of programs with
mistakes as well. -/
theorem Program.check_erase {program : Program} (h : Stmt.AllBare program) (typing : BranchTyping) :
    Stmt.eraseAll (program.check typing).program = program ∧
      Stmt.AllJoinTexts (program.check typing).program :=
  Check.returns_stmts program h (.new typing)

/-- Of the two sums in `1 + n + "!"` the outer one joins texts, also where nothing is known of `n`. -/
theorem Program.check_erase_text :
    let sum (mark : Mark) (n : Expr) : Expr :=
      .binary mark (.arith .add) (.literal ⟨1, mark.ty.map fun _ => .int⟩ (.int 1)) n
    let program : Program := [.print 1 (.binary (.untyped 1) (.arith .add)
      (sum (.untyped 1) (.var (.untyped 2) "n" none)) (.literal (.untyped 2) (.string "!")))]
    Stmt.AllBare program ∧
      (program.check .identical).program = [.print 1 (.concat ⟨1, some .string⟩
        (sum ⟨1, some .any⟩ (.var ⟨2, some .any⟩ "n" none)) (.literal ⟨2, some .string⟩ (.string "!")))] ∧
      (program.check .identical).diagnostics = [⟨2, .unknownVariable "n"⟩] ∧
      Stmt.eraseAll (program.check .identical).program = program := by
  intro sum program
  have bare : Stmt.AllBare program := ⟨⟨rfl, ⟨rfl, rfl, rfl, rfl⟩, rfl⟩, trivial⟩
  exact ⟨bare, rfl, rfl, (Program.check_erase bare .identical).1⟩

end BlockLang
