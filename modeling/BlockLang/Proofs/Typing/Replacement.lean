import BlockLang.Proofs.Holes
import BlockLang.Proofs.Rules.Stmt
import BlockLang.Proofs.Typing.Beside

namespace BlockLang

/-- The type stays, or becomes that of a mistake. -/
def Ty.BlursTo (ty ty' : Ty) : Prop :=
  ty' = ty ∨ ty' = .any

theorem Ty.BlursTo.refl (ty : Ty) : ty.BlursTo ty :=
  .inl rfl

theorem Ty.BlursTo.eq {ty ty' : Ty} (h : ty.BlursTo ty') (hne : ty' ≠ .any) : ty' = ty :=
  h.resolve_right hne

theorem Ty.BlursTo.ne_void {ty ty' : Ty} (h : ty.BlursTo ty') (hty : ty ≠ .void) : ty' ≠ .void := by
  rcases h with rfl | rfl
  · exact hty
  · simp

/-- What agrees with a type agrees with it after both are blurred. -/
theorem Diagnostic.ofMismatch_blurred {found found' expected expected' : Ty} {line line' : Nat}
    (hf : found.BlursTo found') (he : expected.BlursTo expected')
    (h : ofMismatch line found expected = []) : ofMismatch line' found' expected' = [] := by
  have hagrees : found.agrees expected = true := by
    simpa [ofMismatch] using h
  have hagrees' : found'.agrees expected' = true := by
    rcases hf with rfl | rfl
    · rcases he with rfl | rfl
      · exact hagrees
      · simp [Ty.agrees]
    · simp [Ty.agrees]
  rw [ofMismatch, if_pos hagrees']

namespace Expr

variable {typing : BranchTyping} {names : String → Option Binding} {line : Nat} {e e' l l' r r' : Expr}

/-- If the first check finds no mistake, the second one finds none, and the type is blurred at most. -/
def Blurs (checked checked' : Expr × List Diagnostic) : Prop :=
  checked.2 = [] → checked'.2 = [] ∧ checked.1.ty.BlursTo checked'.1.ty

theorem prefixed_blurs (op : UnaryOp) (h : e.ty.BlursTo e'.ty) :
    Blurs (prefixed line op e) (prefixed line op e') := by
  intro hd
  cases op with
  | negate =>
    have hnumeric : e.ty.isNumeric = true ∨ e.ty = .any := by
      refine Decidable.byContradiction fun hn => ?_
      simp [prefixed, hn] at hd
    have hnumeric' : e'.ty.isNumeric = true ∨ e'.ty = .any := by
      rcases h with h | h
      · rwa [h]
      · exact .inr h
    simp only [prefixed, if_pos hnumeric, if_pos hnumeric']
    exact ⟨trivial, h⟩
  | not =>
    exact ⟨Diagnostic.ofMismatch_blurred h (.refl _) hd, .refl _⟩

theorem joined_blurs (hl : l.ty.BlursTo l'.ty) (hr : r.ty.BlursTo r'.ty) :
    Blurs (joined line l r) (joined line l' r') := by
  intro hd
  obtain ⟨hvl, hvr⟩ := joined_eq_nil_iff.mp hd
  have hd' : (joined line l' r').2 = [] := joined_eq_nil_iff.mpr ⟨hl.ne_void hvl, hr.ne_void hvr⟩
  rw [joined_ty hd, joined_ty hd']
  exact ⟨hd', .refl _⟩

/-- An operand of the type of a mistake is reported only by what joins texts. -/
theorem arithmetic_any {op : ArithOp} (htext : ¬ (op = .add ∧ (l.ty = .string ∨ r.ty = .string)))
    (hany : l.ty = .any ∨ r.ty = .any) :
    arithmetic line op l r = (binary ⟨line, some .any⟩ (.arith op) l r, []) := by
  have hnone : Ty.promote l.ty r.ty = none := by
    cases hp : Ty.promote l.ty r.ty with
    | none => rfl
    | some ty =>
      obtain ⟨_, numericLeft, numericRight⟩ := Ty.eq_of_promote hp
      rcases hany with h | h
      · rw [h] at numericLeft
        cases numericLeft
      · rw [h] at numericRight
        cases numericRight
  rw [arithmetic, if_neg htext, hnone]
  simp only [if_pos hany]

theorem arithmetic_blurs (op : ArithOp) (hl : l.ty.BlursTo l'.ty) (hr : r.ty.BlursTo r'.ty) :
    Blurs (arithmetic line op l r) (arithmetic line op l' r') := by
  intro hd
  by_cases htext : op = .add ∧ (l'.ty = .string ∨ r'.ty = .string)
  · have htext₀ : op = .add ∧ (l.ty = .string ∨ r.ty = .string) := by
      refine ⟨htext.1, ?_⟩
      rcases htext.2 with h | h
      · exact .inl ((hl.eq (by simp [h])).symm.trans h)
      · exact .inr ((hr.eq (by simp [h])).symm.trans h)
    rw [arithmetic_text htext₀] at hd ⊢
    rw [arithmetic_text htext]
    exact joined_blurs hl hr hd
  by_cases hany : l'.ty = .any ∨ r'.ty = .any
  · rw [arithmetic_any htext hany]
    exact ⟨rfl, .inr rfl⟩
  · obtain ⟨hleft, hright⟩ := not_or.mp hany
    have htl := hl.eq hleft
    have htr := hr.eq hright
    rw [htl] at hleft
    rw [htr] at hright
    rw [htl, htr] at htext
    obtain ⟨hnl, hnr⟩ := (arithmetic_cases hd hleft hright).resolve_left htext
    rw [arithmetic_numeric hnl hnr, arithmetic_numeric (htl ▸ hnl) (htr ▸ hnr)]
    exact ⟨rfl, .inl htl⟩

theorem comparison_blurred {relation : Relation} {ofLeft ofLeft' ofRight ofRight' : Ty}
    (hl : ofLeft.BlursTo ofLeft') (hr : ofRight.BlursTo ofRight')
    (hd : comparison line relation ofLeft ofRight = []) :
    comparison line relation ofLeft' ofRight' = [] := by
  by_cases hany : ofLeft' = .any ∨ ofRight' = .any
  · rcases hany with rfl | rfl <;> simp [comparison]
  · obtain ⟨hleft, hright⟩ := not_or.mp hany
    rw [hl.eq hleft, hr.eq hright]
    exact hd

theorem branchType_blurred {ofTrue ofTrue' ofFalse ofFalse' : Ty} (ht : ofTrue.BlursTo ofTrue')
    (hf : ofFalse.BlursTo ofFalse') (hd : (branchType typing line ofTrue ofFalse).2 = []) :
    (branchType typing line ofTrue' ofFalse').2 = [] ∧
      (branchType typing line ofTrue ofFalse).1.BlursTo
        (branchType typing line ofTrue' ofFalse').1 := by
  by_cases hany : ofTrue' = .any ∨ ofFalse' = .any
  · have hmistake : branchType typing line ofTrue' ofFalse' = (.any, []) := by
      unfold branchType
      split
      · rename_i hsame
        rw [hsame, or_self] at hany
        rw [hsame, hany]
      · rfl
    rw [hmistake]
    exact ⟨rfl, .inr rfl⟩
  · obtain ⟨htrue, hfalse⟩ := not_or.mp hany
    rw [ht.eq htrue, hf.eq hfalse]
    exact ⟨hd, .refl _⟩

/-- The left side of an assignment may change to a variable only. -/
theorem applied_blurs (op : BinaryOp) (hl : l.ty.BlursTo l'.ty) (hr : r.ty.BlursTo r'.ty)
    (hv : l.isVariable = true → l'.isVariable = true) :
    Blurs (applied line op l r) (applied line op l' r') := by
  intro hd
  cases op with
  | arith op => exact arithmetic_blurs op hl hr hd
  | bit op | logic op =>
    obtain ⟨hleft, hright⟩ := List.append_eq_nil_iff.mp hd
    refine ⟨List.append_eq_nil_iff.mpr ⟨?_, ?_⟩, .refl _⟩
    · exact Diagnostic.ofMismatch_blurred hl (.refl _) hleft
    · exact Diagnostic.ofMismatch_blurred hr (.refl _) hright
  | compare relation => exact ⟨comparison_blurred hl hr hd, .refl _⟩
  | assign =>
    simp only [applied] at hd ⊢
    split at hd
    · rename_i hvar
      rw [if_pos hvar, if_pos (hv hvar)]
      exact ⟨Diagnostic.ofMismatch_blurred hr hl hd, hl⟩
    · cases hd

/-- Where no mistake is found in the first expression, just those that are given are found in the second
one, and its type is blurred at most. -/
def Costs (typing : BranchTyping) (names : String → Option Binding) (found : List Diagnostic)
    (e e' : Expr) : Prop :=
  (e.annotate typing names).2 = [] →
    (e'.annotate typing names).2 = found ∧
      (e.annotate typing names).1.ty.BlursTo (e'.annotate typing names).1.ty

theorem Costs.refl (e : Expr) : Costs typing names [] e e :=
  fun hd => ⟨hd, .refl _⟩

section Congruence

variable {mark : Mark} {first second third : List Diagnostic} {c c' t t' f f' : Expr}

theorem Costs.unary (hm : mark.ty = none) (op : UnaryOp) (he : Costs typing names first e e') :
    Costs typing names first (unary mark op e) (unary mark op e') := by
  intro hd
  rw [annotate_unary hm] at hd ⊢
  obtain ⟨inner, own⟩ := List.append_eq_nil_iff.mp hd
  obtain ⟨mistakes, hty⟩ := he inner
  obtain ⟨own', hty'⟩ := prefixed_blurs op hty own
  rw [annotate_unary hm, mistakes, own', List.append_nil]
  exact ⟨rfl, hty'⟩

theorem Costs.binary (hm : mark.ty = none) (op : BinaryOp) (hl : Costs typing names first l l')
    (hr : Costs typing names second r r') (hv : l.isVariable = true → l'.isVariable = true) :
    Costs typing names (first ++ second) (binary mark op l r) (binary mark op l' r') := by
  intro hd
  rw [annotate_binary hm] at hd ⊢
  obtain ⟨operands, own⟩ := List.append_eq_nil_iff.mp hd
  obtain ⟨left, right⟩ := List.append_eq_nil_iff.mp operands
  obtain ⟨mistakesLeft, htl⟩ := hl left
  obtain ⟨mistakesRight, htr⟩ := hr right
  have hv' : (l.annotate typing names).1.isVariable = true →
      (l'.annotate typing names).1.isVariable = true := by
    rw [isVariable_annotate, isVariable_annotate]
    exact hv
  obtain ⟨own', hty'⟩ := applied_blurs op htl htr hv' own
  rw [annotate_binary hm, mistakesLeft, mistakesRight, own', List.append_nil]
  exact ⟨rfl, hty'⟩

theorem Costs.concat (hm : mark.ty = none) (hl : Costs typing names first l l')
    (hr : Costs typing names second r r') :
    Costs typing names (first ++ second) (concat mark l r) (concat mark l' r') := by
  intro hd
  rw [annotate_concat hm] at hd ⊢
  obtain ⟨operands, own⟩ := List.append_eq_nil_iff.mp hd
  obtain ⟨left, right⟩ := List.append_eq_nil_iff.mp operands
  obtain ⟨mistakesLeft, htl⟩ := hl left
  obtain ⟨mistakesRight, htr⟩ := hr right
  obtain ⟨own', hty'⟩ := joined_blurs htl htr own
  rw [annotate_concat hm, mistakesLeft, mistakesRight, own', List.append_nil]
  exact ⟨rfl, hty'⟩

theorem Costs.ternary (hm : mark.ty = none) (hc : Costs typing names first c c')
    (ht : Costs typing names second t t') (hf : Costs typing names third f f') :
    Costs typing names (first ++ second ++ third) (ternary mark c t f) (ternary mark c' t' f') := by
  intro hd
  simp only [annotate_ternary hm, List.append_eq_nil_iff] at hd ⊢
  obtain ⟨⟨⟨⟨ofCondition, test⟩, ofTrue⟩, ofFalse⟩, join⟩ := hd
  obtain ⟨mistakes, hty⟩ := hc ofCondition
  obtain ⟨mistakesTrue, htyTrue⟩ := ht ofTrue
  obtain ⟨mistakesFalse, htyFalse⟩ := hf ofFalse
  obtain ⟨join', hty'⟩ := branchType_blurred htyTrue htyFalse join
  rw [mistakes, Diagnostic.ofMismatch_blurred hty (.refl _) test, mistakesTrue, mistakesFalse, join',
    List.append_nil, List.append_nil]
  exact ⟨rfl, hty'⟩

theorem Costs.guarded (hm : mark.ty = none) (hc : Costs typing names first c c')
    (ht : Costs typing names second t t') :
    Costs typing names (first ++ second) (guarded mark c t) (guarded mark c' t') := by
  intro hd
  simp only [annotate_guarded hm, List.append_eq_nil_iff] at hd ⊢
  obtain ⟨⟨ofCondition, test⟩, ofTrue⟩ := hd
  obtain ⟨mistakes, hty⟩ := hc ofCondition
  obtain ⟨mistakesTrue, _⟩ := ht ofTrue
  rw [mistakes, Diagnostic.ofMismatch_blurred hty (.refl _) test, mistakesTrue, List.append_nil]
  exact ⟨rfl, .refl _⟩

end Congruence

/-- The name in the place of an expression, as it is before it is checked. -/
def replacedBy (node : Expr) (name : String) : Expr :=
  var (.untyped node.line) name none

/-- No mistake follows from that of the name in the place of a node. -/
theorem costs_replaced {node : Expr} {name : String} (hk : names name = none) (hole : Hole)
    (hu : (hole.fill node).Untyped) :
    Costs typing names [⟨node.line, .unknownVariable name⟩] (hole.fill node)
      (hole.fill (node.replacedBy name)) := by
  induction hole with
  | here =>
    intro _
    have hm : (Mark.untyped node.line).ty = none := rfl
    rw [Hole.fill, Hole.fill, replacedBy, annotate_var hm, hk]
    exact ⟨rfl, .inr rfl⟩
  | operand mark op inside ih => exact .unary hu.1 op (ih hu.2)
  | lhs mark op inside r ih =>
    refine .binary hu.1 op (ih hu.2.1) (.refl r) ?_
    -- Only where the node itself is the left side can a variable be replaced.
    cases inside with
    | here => exact fun _ => rfl
    | _ =>
      intro hv
      cases hv
  | rhs mark op l inside ih => exact .binary hu.1 op (.refl l) (ih hu.2.2) id
  | joinedLhs mark inside r ih => exact .concat hu.1 (ih hu.2.1) (.refl r)
  | joinedRhs mark l inside ih => exact .concat hu.1 (.refl l) (ih hu.2.2)
  | condition mark inside t f ih => exact .ternary hu.1 (ih hu.2.1) (.refl t) (.refl f)
  | whenTrue mark c inside f ih => exact .ternary hu.1 (.refl c) (ih hu.2.2.1) (.refl f)
  | whenFalse mark c t inside ih => exact .ternary hu.1 (.refl c) (.refl t) (ih hu.2.2.2)
  | guard mark inside t ih => exact .guarded hu.1 (ih hu.2.1) (.refl t)
  | guarded mark c inside ih => exact .guarded hu.1 (.refl c) (ih hu.2.2)

end Expr

mutual

/-- The names that are declared in a statement, at any depth. -/
def Stmt.names : Stmt → List String
  | .declare _ _ names => names.map Declarator.name
  | .eval _ | .print _ _ => []
  | .block _ body => namesAll body
  | .doWhile _ body _ => body.names
  | .forLoop _ names init _ update body =>
    names.map Declarator.name ++ namesAll init ++ namesAll update ++ body.names

def Stmt.namesAll : List Stmt → List String
  | [] => []
  | s :: ss => s.names ++ namesAll ss

end

theorem Stmt.not_mem_names_forLoop {name : String} {line : Nat} {names : List Declarator}
    {init update : List Stmt} {condition : Option Expr} {body : Stmt} :
    name ∉ (Stmt.forLoop line names init condition update body).names ↔
      name ∉ names.map Declarator.name ∧ name ∉ namesAll init ∧ name ∉ namesAll update ∧
        name ∉ body.names := by
  simp only [Stmt.names, List.mem_append, not_or, and_assoc]

theorem Stmt.not_mem_namesAll_cons {name : String} {s : Stmt} {ss : List Stmt} :
    name ∉ namesAll (s :: ss) ↔ name ∉ s.names ∧ name ∉ namesAll ss := by
  rw [namesAll, List.mem_append, not_or]

/-- The second context has the mistakes that are given, if the first one has none. The name is not in
scope. -/
structure Context.Blames (name : String) (found : List Diagnostic) (ctx ctx' : Context) : Prop where
  beside : ctx.Beside (fun ds ds' => ds = [] → ds' = found) ctx'
  unknown : ∀ scope ∈ ctx.scopes, scope.names[name]? = none

namespace Context

variable {name : String} {found found' : List Diagnostic} {ctx ctx' : Context}

theorem blames_new (name : String) (typing : BranchTyping) :
    (new typing).Blames name [] (new typing) := by
  refine ⟨⟨#[], rfl, id⟩, fun scope hs => ?_⟩
  rw [List.mem_singleton.mp hs]
  exact Scope.names_empty 0 name

theorem Blames.lookup (h : ctx.Blames name found ctx') : ctx.lookup? name = none :=
  List.findSome?_eq_none_iff.mpr h.unknown

theorem Blames.push (h : ctx.Blames name found ctx') : ctx.push.Blames name found ctx'.push :=
  ⟨h.beside.push, List.forall_mem_cons.mpr ⟨Scope.names_empty _ name, h.unknown⟩⟩

theorem Blames.pop (h : ctx.Blames name found ctx') : ctx.pop.Blames name found ctx'.pop := by
  refine ⟨h.beside.pop, ?_⟩
  have hunknown := h.unknown
  unfold Context.pop
  split
  · exact hunknown
  · rename_i houter
    rw [scopes, houter] at hunknown
    exact (List.forall_mem_cons.mp hunknown).2

/-- What is reported in the second context has to come to the given mistakes where nothing is reported
in the first. -/
theorem Blames.reportAll {ds ds' : List Diagnostic} (h : ctx.Blames name found ctx')
    (hds : ds = [] → found ++ ds' = found') :
    (ctx.reportAll ds).Blames name found' (ctx'.reportAll ds') := by
  refine ⟨h.beside.reportAll fun before before' hbefore hnil => ?_, h.unknown⟩
  obtain ⟨hb, hd⟩ := List.append_eq_nil_iff.mp hnil
  rw [hbefore hb]
  exact hds hd

theorem Blames.declare {other : String} (h : ctx.Blames name found ctx') (hn : other ≠ name) (ty : Ty)
    (line : Nat) :
    (ctx.declare other ty line).2.Blames name found (ctx'.declare other ty line).2 := by
  constructor
  · refine (h.beside.declare (fun before before' ds hbefore hnil => ?_) other ty line).2
    obtain ⟨hb, rfl⟩ := List.append_eq_nil_iff.mp hnil
    rw [List.append_nil]
    exact hbefore hb
  · obtain ⟨mistake, he⟩ | ⟨_, he⟩ := ctx.declare_cases other ty line
    · rw [he]
      exact h.unknown
    · rw [he]
      obtain ⟨innermost, outer⟩ := List.forall_mem_cons.mp h.unknown
      refine List.forall_mem_cons.mpr ⟨?_, outer⟩
      rw [Scope.names_insert, if_neg hn]
      exact innermost

end Context

namespace Check

variable {α β : Type} {name : String} {found found' found'' : List Diagnostic}

/-- Where the first check meets no mistake, the second one starts with some that are given, and ends with
others that are given. What the checks return does not matter. -/
def Carries (name : String) (found found' : List Diagnostic) (x x' : Check α) : Prop :=
  ∀ ctx ctx' : Context, ctx.Blames name found ctx' → (x ctx).2.Blames name found' (x' ctx').2

theorem carries_pure (a a' : α) : Carries name found found (pure a) (pure a') :=
  fun _ _ h => h

theorem Carries.bind {x x' : Check α} {f f' : α → Check β} (hx : Carries name found found' x x')
    (hf : ∀ a a', Carries name found' found'' (f a) (f' a')) :
    Carries name found found'' (x >>= f) (x' >>= f') :=
  fun ctx ctx' h => hf _ _ _ _ (hx ctx ctx' h)

theorem Carries.inScope {x x' : Check α} (h : Carries name found found' x x') :
    Carries name found found' (inScope x) (inScope x') :=
  fun ctx ctx' hctx => (h ctx.push ctx'.push hctx.push).pop

/-- A check of an expression reports its mistakes, and what is wrong with the result. A type that is
blurred is not wrong for that. -/
def Judges (x : Expr → Check α) : Prop :=
  ∃ judge : Expr → List Diagnostic,
    (∀ e ctx, (x e ctx).2 = ctx.reportAll ((e.annotate ctx.typing ctx.lookup?).2 ++
      judge (e.annotate ctx.typing ctx.lookup?).1)) ∧
    ∀ e e', e.ty.BlursTo e'.ty → judge e = [] → judge e' = []

theorem judges_expr : Judges expr := by
  refine ⟨fun _ => [], fun e ctx => ?_, fun _ _ _ _ => rfl⟩
  rw [List.append_nil]
  rfl

theorem judges_typed (expected : Ty) : Judges (typed expected) := by
  refine ⟨fun e => Diagnostic.ofMismatch e.line e.ty expected, fun e ctx => ?_, fun e e' h => ?_⟩
  · rw [← Context.reportAll_append]
    rfl
  · exact Diagnostic.ofMismatch_blurred h (.refl _)

theorem judges_print (line : Nat) : Judges fun e => stmt (.print line e) := by
  refine ⟨fun e => if e.ty = .void then [⟨e.line, .noValue⟩] else [], stmt_print line,
    fun e e' h hvalue => ?_⟩
  have hty : e.ty ≠ .void := by simpa using hvalue
  exact if_neg (h.ne_void hty)

/-- The parts of a loop in the order in which they are checked. -/
theorem Carries.forLoop {before₁ before₂ before₃ before₄ before₅ before₆ : List Diagnostic} {line : Nat}
    {names names' : List Declarator} {init init' update update' : List Stmt}
    {condition condition' : Option Expr} {body body' : Stmt}
    (hnames : Carries name before₁ before₂ (declarators names) (declarators names'))
    (hinit : Carries name before₂ before₃ (stmts init) (stmts init'))
    (hcondition : Carries name before₃ before₄ (option (typed .boolean) condition)
      (option (typed .boolean) condition'))
    (hbody : Carries name before₄ before₅ (stmt body) (stmt body'))
    (hupdate : Carries name before₅ before₆ (stmts update) (stmts update')) :
    Carries name before₁ before₆ (stmt (.forLoop line names init condition update body))
      (stmt (.forLoop line names' init' condition' update' body')) := by
  rw [stmt, stmt]
  refine .inScope (hnames.bind fun _ _ => hinit.bind fun _ _ => hcondition.bind fun _ _ => ?_)
  exact hbody.bind fun _ _ => hupdate.bind fun _ _ => carries_pure _ _

theorem Judges.same {x : Expr → Check α} (hx : Judges x) (e : Expr) :
    Carries name found found (x e) (x e) := by
  obtain ⟨judge, hreports, _⟩ := hx
  intro ctx ctx' h
  rw [hreports, hreports, h.beside.lookup, h.beside.typing]
  refine h.reportAll fun hnil => ?_
  rw [hnil, List.append_nil]

theorem carries_option (expected : Ty) (o : Option Expr) :
    Carries name found found (option (typed expected) o) (option (typed expected) o) := by
  cases o with
  | none => exact carries_pure none none
  | some e => exact fun ctx ctx' h => (judges_typed expected).same e ctx ctx' h

theorem carries_declare {other : String} (hn : other ≠ name) (ty : Ty) (line : Nat) :
    Carries name found found (declare other ty line) (declare other ty line) :=
  fun _ _ h => h.declare hn ty line

theorem carries_declarator {d : Declarator} (hn : d.name ≠ name) :
    Carries name found found (declarator d) (declarator d) :=
  (carries_option d.ty d.init).bind fun _ _ => (carries_declare hn d.ty d.line).bind fun _ _ =>
    carries_pure _ _

theorem carries_declarators {ds : List Declarator} (hn : name ∉ ds.map Declarator.name) :
    Carries name found found (declarators ds) (declarators ds) := by
  induction ds with
  | nil => exact carries_pure [] []
  | cons d ds ih =>
    rw [List.map_cons, List.mem_cons, not_or] at hn
    obtain ⟨hd, hds⟩ := hn
    exact (carries_declarator (Ne.symm hd)).bind fun _ _ => (ih hds).bind fun _ _ => carries_pure _ _

mutual

theorem carries_stmt (s : Stmt) (hn : name ∉ s.names) :
    Carries name found found (stmt s) (stmt s) :=
  match s with
  | .declare _ _ names => by
    rw [stmt]
    exact (carries_declarators hn).bind fun _ _ => carries_pure _ _
  | .eval e => by
    rw [stmt]
    exact (judges_expr.same e).bind fun _ _ => carries_pure _ _
  | .print line e => (judges_print line).same e
  | .block _ body => by
    rw [stmt]
    exact .inScope ((carries_stmts body hn).bind fun _ _ => carries_pure _ _)
  | .doWhile _ body condition => by
    rw [stmt]
    exact ((judges_typed .boolean).same condition).bind fun _ _ => (carries_stmt body hn).bind fun _ _ =>
      carries_pure _ _
  | .forLoop _ names init condition update body => by
    obtain ⟨hnames, hinit, hupdate, hbody⟩ := Stmt.not_mem_names_forLoop.mp hn
    exact .forLoop (carries_declarators hnames) (carries_stmts init hinit)
      (carries_option .boolean condition) (carries_stmt body hbody) (carries_stmts update hupdate)

theorem carries_stmts (ss : List Stmt) (hn : name ∉ Stmt.namesAll ss) :
    Carries name found found (stmts ss) (stmts ss) :=
  match ss with
  | [] => by
    rw [stmts]
    exact carries_pure [] []
  | s :: ss => by
    obtain ⟨hs, hss⟩ := Stmt.not_mem_namesAll_cons.mp hn
    rw [stmts]
    exact (carries_stmt s hs).bind fun _ _ => (carries_stmts ss hss).bind fun _ _ => carries_pure _ _

end

variable {node : Expr}

/-- With the name in the place of the node its mistake is the only one. -/
abbrev Blames (node : Expr) (name : String) (x x' : Check α) : Prop :=
  Carries name [] [⟨node.line, .unknownVariable name⟩] x x'

theorem Judges.replaced {x : Expr → Check α} (hx : Judges x) (hole : Expr.Hole)
    (hu : (hole.fill node).Untyped) :
    Blames node name (x (hole.fill node)) (x (hole.fill (node.replacedBy name))) := by
  obtain ⟨judge, hreports, htolerates⟩ := hx
  intro ctx ctx' h
  rw [hreports, hreports, h.beside.lookup, h.beside.typing]
  refine h.reportAll fun hnil => ?_
  obtain ⟨inner, own⟩ := List.append_eq_nil_iff.mp hnil
  obtain ⟨mistake, hty⟩ := Expr.costs_replaced h.lookup hole hu inner
  rw [mistake, htolerates _ _ hty own]
  rfl

theorem blames_option (expected : Ty) (hole : Expr.Hole) (hu : (hole.fill node).Untyped) :
    Blames node name (option (typed expected) (some (hole.fill node)))
      (option (typed expected) (some (hole.fill (node.replacedBy name)))) :=
  fun ctx ctx' h => (judges_typed expected).replaced hole hu ctx ctx' h

theorem blames_declarators (hole : Declarator.Hole) (hu : ∀ d ∈ hole.fill node, d.Untyped)
    (hn : name ∉ (hole.fill node).map Declarator.name) :
    Blames node name (declarators (hole.fill node))
      (declarators (hole.fill (node.replacedBy name))) := by
  induction hole with
  | head line other ty inside slot rest =>
    rw [Declarator.Hole.fill, List.map_cons, List.mem_cons, not_or] at hn
    obtain ⟨hd, hds⟩ := hn
    have hinit := (List.forall_mem_cons.mp hu).1.init _ rfl
    have hdeclarator : Blames node name (declarator ⟨line, other, ty, some (inside.fill node), slot⟩)
        (declarator ⟨line, other, ty, some (inside.fill (node.replacedBy name)), slot⟩) :=
      (blames_option ty inside hinit).bind fun _ _ => (carries_declare (Ne.symm hd) ty line).bind fun _ _ =>
        carries_pure _ _
    exact hdeclarator.bind fun _ _ => (carries_declarators hds).bind fun _ _ => carries_pure _ _
  | tail first inside ih =>
    rw [Declarator.Hole.fill, List.map_cons, List.mem_cons, not_or] at hn
    obtain ⟨hd, hds⟩ := hn
    have hinside := ih (List.forall_mem_cons.mp hu).2 hds
    exact (carries_declarator (Ne.symm hd)).bind fun _ _ => hinside.bind fun _ _ => carries_pure _ _

mutual

theorem blames_stmt (hole : Stmt.Hole) (hu : (hole.fill node).Untyped)
    (hn : name ∉ (hole.fill node).names) :
    Blames node name (stmt (hole.fill node)) (stmt (hole.fill (node.replacedBy name))) :=
  match hole with
  | .declare _ _ inside => by
    rw [Stmt.Hole.fill, Stmt.Hole.fill, stmt, stmt]
    exact (blames_declarators inside hu hn).bind fun _ _ => carries_pure _ _
  | .eval inside => by
    rw [Stmt.Hole.fill, Stmt.Hole.fill, stmt, stmt]
    exact (judges_expr.replaced inside hu).bind fun _ _ => carries_pure _ _
  | .print line inside => (judges_print line).replaced inside hu
  | .block _ inside => by
    rw [Stmt.Hole.fill, Stmt.Hole.fill, stmt, stmt]
    exact .inScope ((blames_stmts inside hu hn).bind fun _ _ => carries_pure _ _)
  | .doBody _ inside condition => by
    rw [Stmt.Hole.fill, Stmt.Hole.fill, stmt, stmt]
    refine ((judges_typed .boolean).same condition).bind fun _ _ => ?_
    exact (blames_stmt inside hu.1 hn).bind fun _ _ => carries_pure _ _
  | .doCondition _ body inside => by
    rw [Stmt.Hole.fill, Stmt.Hole.fill, stmt, stmt]
    refine ((judges_typed .boolean).replaced inside hu.2).bind fun _ _ => ?_
    exact (carries_stmt body hn).bind fun _ _ => carries_pure _ _
  | .forNames _ inside init condition update body => by
    obtain ⟨hnames, hinit, hupdate, hbody⟩ := Stmt.not_mem_names_forLoop.mp hn
    exact .forLoop (blames_declarators inside hu.1 hnames) (carries_stmts init hinit)
      (carries_option .boolean condition) (carries_stmt body hbody) (carries_stmts update hupdate)
  | .forInit _ names inside condition update body => by
    obtain ⟨hnames, hinit, hupdate, hbody⟩ := Stmt.not_mem_names_forLoop.mp hn
    exact .forLoop (carries_declarators hnames) (blames_stmts inside hu.2.1 hinit)
      (carries_option .boolean condition) (carries_stmt body hbody) (carries_stmts update hupdate)
  | .forCondition _ names init inside update body => by
    obtain ⟨hnames, hinit, hupdate, hbody⟩ := Stmt.not_mem_names_forLoop.mp hn
    exact .forLoop (carries_declarators hnames) (carries_stmts init hinit)
      (blames_option .boolean inside (hu.2.2.1 _ rfl)) (carries_stmt body hbody)
      (carries_stmts update hupdate)
  | .forUpdate _ names init condition inside body => by
    obtain ⟨hnames, hinit, hupdate, hbody⟩ := Stmt.not_mem_names_forLoop.mp hn
    exact .forLoop (carries_declarators hnames) (carries_stmts init hinit)
      (carries_option .boolean condition) (carries_stmt body hbody)
      (blames_stmts inside hu.2.2.2.1 hupdate)
  | .forBody _ names init condition update inside => by
    obtain ⟨hnames, hinit, hupdate, hbody⟩ := Stmt.not_mem_names_forLoop.mp hn
    exact .forLoop (carries_declarators hnames) (carries_stmts init hinit)
      (carries_option .boolean condition) (blames_stmt inside hu.2.2.2.2 hbody)
      (carries_stmts update hupdate)

theorem blames_stmts (hole : Stmt.ListHole) (hu : Stmt.AllUntyped (hole.fill node))
    (hn : name ∉ Stmt.namesAll (hole.fill node)) :
    Blames node name (stmts (hole.fill node)) (stmts (hole.fill (node.replacedBy name))) :=
  match hole with
  | .head inside rest => by
    obtain ⟨hs, hss⟩ := Stmt.not_mem_namesAll_cons.mp hn
    rw [Stmt.ListHole.fill, Stmt.ListHole.fill, stmts, stmts]
    refine (blames_stmt inside hu.1 hs).bind fun _ _ => ?_
    exact (carries_stmts rest hss).bind fun _ _ => carries_pure _ _
  | .tail first inside => by
    obtain ⟨hs, hss⟩ := Stmt.not_mem_namesAll_cons.mp hn
    rw [Stmt.ListHole.fill, Stmt.ListHole.fill, stmts, stmts]
    refine (carries_stmt first hs).bind fun _ _ => ?_
    exact (blames_stmts inside hu.2 hss).bind fun _ _ => carries_pure _ _

end

end Check

/-- In a program without mistakes a name that is declared nowhere may be put in the place of any
expression. Wherever the expression stands, the name is then the only mistake, at the line of the
expression. -/
theorem Program.check_replaced {source : Source} {program : Program}
    (hp : Program.parse source = .ok program) {typing : BranchTyping}
    (hd : (Program.check typing program).diagnostics = []) {name : String}
    (hn : name ∉ Stmt.namesAll program) {node : Expr} (hnode : node ∈ Stmt.nodesAll program) :
    (∃ hole : Program.Hole, hole.fill node = program) ∧
    ∀ hole : Program.Hole, hole.fill node = program →
      (Program.check typing (hole.fill (node.replacedBy name))).diagnostics =
        [⟨node.line, .unknownVariable name⟩] := by
  refine ⟨(Program.mem_nodes_iff program node).mp hnode, ?_⟩
  rintro hole rfl
  have hblames := Check.blames_stmts hole (Program.untyped_of_parse hp) hn _ _
    (Context.blames_new name typing)
  exact hblames.beside.diagnostics hd

/-- A name that is not declared, deep in the text that is printed. -/
theorem Program.check_replaced_nested :
    ∃ program, Program.parse (.ofString "boolean b = true; print(\"a\" + (b ? 1 +\n2 : 3));") =
        .ok program ∧
      (Program.check .identical program).diagnostics = [] ∧ "c" ∉ Stmt.namesAll program ∧
      .literal (.untyped 2) (.int 2) ∈ Stmt.nodesAll program ∧
      ∃ hole : Program.Hole, hole.fill (.literal (.untyped 2) (.int 2)) = program ∧
        (Program.check .identical (hole.fill (.var (.untyped 2) "c" none))).diagnostics =
          [⟨2, .unknownVariable "c"⟩] := by
  have hrun : (Program.parse (.ofString "boolean b = true; print(\"a\" + (b ? 1 +\n2 : 3));")).map
      (fun program => ((Program.check .identical program).diagnostics.isEmpty,
        decide ("c" ∈ Stmt.namesAll program),
        decide (.literal (.untyped 2) (.int 2) ∈ Stmt.nodesAll program))) =
      .ok (true, false, true) := by
    decide +kernel
  obtain ⟨program, hp, hrun⟩ := exists_of_map_ok hrun
  simp only [Prod.mk.injEq, List.isEmpty_iff, decide_eq_true_eq, decide_eq_false_iff_not] at hrun
  obtain ⟨hd, hn, hnode⟩ := hrun
  obtain ⟨⟨hole, hfill⟩, hblames⟩ := Program.check_replaced hp hd hn hnode
  exact ⟨program, hp, hd, hn, hnode, hole, hfill, hblames hole hfill⟩

end BlockLang
