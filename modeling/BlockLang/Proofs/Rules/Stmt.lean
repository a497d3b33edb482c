import Mathlib.Algebra.Ring.Nat
import Mathlib.Data.List.Forall2
import BlockLang.Proofs.Rules.Expr
import BlockLang.Proofs.Typing.Stmt

namespace BlockLang

/-- The names of each open scope with their types, innermost scope first. -/
abbrev Scopes := List (List (String × Ty))

namespace Scopes

/-- The type of a name is that of its innermost declaration. -/
def ty? (scopes : Scopes) (name : String) : Option Ty :=
  scopes.findSome? (·.lookup name)

/-- The declarations in all open scopes. -/
def count (scopes : Scopes) : Nat :=
  (scopes.map List.length).sum

end Scopes

/-- A name that is new to the innermost scope is added to it, if a slot is left. -/
inductive Scopes.Adds (name : String) (ty : Ty) : Scopes → Scopes → Prop
  | intro {scope : List (String × Ty)} {outer : Scopes} (fresh : scope.lookup name = none)
      (room : Scopes.count (scope :: outer) < slotLimit) :
      Adds name ty (scope :: outer) (((name, ty) :: scope) :: outer)

section Rules

variable (typing : BranchTyping)

/-- The initial value has the declared type where the name is not yet visible. -/
structure Declarator.WellTyped (scopes : Scopes) (d : Declarator) (next : Scopes) : Prop where
  init : ∀ e, d.init = some e → e.HasType typing scopes.ty? d.ty
  adds : Scopes.Adds d.name d.ty scopes next

inductive Declarator.AllWellTyped : Scopes → List Declarator → Scopes → Prop
  | nil {scopes} : AllWellTyped scopes [] scopes
  | cons {d ds scopes next last} (head : d.WellTyped typing scopes next)
      (tail : AllWellTyped next ds last) : AllWellTyped scopes (d :: ds) last

mutual

/-- A statement is well typed where some scopes are open, and leaves the scopes that are open for
what follows it. -/
inductive Stmt.WellTyped : Scopes → Stmt → Scopes → Prop
  | declare {line ty names scopes next} (declared : Declarator.AllWellTyped typing scopes names next) :
      WellTyped scopes (.declare line ty names) next
  | eval {e ty scopes} (value : e.HasType typing scopes.ty? ty) : WellTyped scopes (.eval e) scopes
  | print {line e ty scopes} (value : e.HasType typing scopes.ty? ty) (printable : ty ≠ .void) :
      WellTyped scopes (.print line e) scopes
  | block {line body scopes inner} (inside : AllWellTyped ([] :: scopes) body inner) :
      WellTyped scopes (.block line body) scopes
  -- The body may be a declaration. The condition does not see it, what follows the loop does.
  | doWhile {line body condition scopes next} (test : condition.HasType typing scopes.ty? .boolean)
      (inside : WellTyped scopes body next) : WellTyped scopes (.doWhile line body condition) next
  | forLoop {line names init condition update body scopes declared started looped inner}
      (ofNames : Declarator.AllWellTyped typing ([] :: scopes) names declared)
      (start : AllWellTyped declared init started)
      (test : ∀ e, condition = some e → e.HasType typing started.ty? .boolean)
      (inside : WellTyped started body looped) (again : AllWellTyped looped update inner) :
      WellTyped scopes (.forLoop line names init condition update body) scopes

inductive Stmt.AllWellTyped : Scopes → List Stmt → Scopes → Prop
  | nil {scopes} : AllWellTyped scopes [] scopes
  | cons {s ss scopes next last} (head : WellTyped scopes s next) (tail : AllWellTyped next ss last) :
      AllWellTyped scopes (s :: ss) last

end

/-- A program is well typed from one empty scope on. -/
def Program.WellTyped (program : Program) : Prop :=
  ∃ scopes, Stmt.AllWellTyped typing [[]] program scopes

end Rules

/-- A scope has the names that are declared in it, with their types. -/
def Scope.Holds (scope : Scope) (declared : List (String × Ty)) : Prop :=
  ∀ name, (scope.names[name]?).map (·.ty) = declared.lookup name

theorem Scope.Holds.empty (firstSlot : Nat) : (Scope.empty firstSlot).Holds [] :=
  fun name => by simp [Scope.empty]

theorem Scope.Holds.insert {scope : Scope} {declared : List (String × Ty)} (h : scope.Holds declared)
    (name : String) (binding : Binding) (firstSlot : Nat) :
    Scope.Holds ⟨scope.names.insert name binding, firstSlot⟩ ((name, binding.ty) :: declared) := by
  intro other
  rw [List.lookup_cons, Scope.names_insert]
  by_cases hname : name = other
  · simp [hname]
  · have hbeq : (other == name) = false := by simpa using fun h => hname h.symm
    rw [if_neg hname, hbeq]
    exact h other

theorem Scope.Holds.contains_iff {scope : Scope} {declared : List (String × Ty)}
    (h : scope.Holds declared) (name : String) :
    scope.names.contains name = true ↔ declared.lookup name ≠ none := by
  rw [← h name, Std.TreeMap.contains_eq_isSome_getElem?]
  cases scope.names[name]? <;> simp

/-- The innermost scope that has a name gives its type. -/
theorem Scopes.ty?_of_holds {opened : List Scope} {scopes : Scopes}
    (h : List.Forall₂ Scope.Holds opened scopes) (name : String) :
    (opened.findSome? (·.names[name]?)).map (·.ty) = scopes.ty? name := by
  induction h with
  | nil => rfl
  | @cons scope declared _ _ head _ ih =>
    have hname := head name
    rw [Scopes.ty?, List.findSome?_cons, List.findSome?_cons]
    cases hb : scope.names[name]? with
    | none =>
      rw [hb] at hname
      rw [← hname]
      exact ih
    | some binding =>
      rw [hb] at hname
      rw [← hname]
      rfl

namespace Context

/-- The context has the scopes that the rules speak of, and a slot is taken for each declaration. -/
structure Reflects (typing : BranchTyping) (ctx : Context) (scopes : Scopes) : Prop where
  holds : List.Forall₂ Scope.Holds ctx.scopes scopes
  slots : ctx.nextSlot = scopes.count
  typing : ctx.typing = typing
  types : ∀ declared ∈ scopes, ∀ p ∈ declared, p.2 ≠ .any

variable {typing : BranchTyping} {ctx ctx' : Context} {scopes : Scopes}

theorem Reflects.new (typing : BranchTyping) : (new typing).Reflects typing [[]] :=
  ⟨.cons (.empty 0) .nil, rfl, rfl, by simp⟩

theorem Reflects.lookup (h : ctx.Reflects typing scopes) (name : String) :
    (ctx.lookup? name).map (·.ty) = scopes.ty? name :=
  Scopes.ty?_of_holds h.holds name

theorem Reflects.ne_any (h : ctx.Reflects typing scopes) (name : String) :
    scopes.ty? name ≠ some .any := by
  intro hany
  obtain ⟨declared, hmem, hlookup⟩ := List.exists_of_findSome?_eq_some hany
  obtain ⟨before, after, rfl, _⟩ := List.lookup_eq_some_iff.mp hlookup
  exact h.types _ hmem (name, .any) (by simp) rfl

/-- The rules for expressions apply where the context is reflected. -/
theorem Reflects.hasType_iff (h : ctx.Reflects typing scopes) {e : Expr} (hu : e.Untyped) (ty : Ty) :
    e.HasType typing scopes.ty? ty ↔
      (e.annotate ctx.typing ctx.lookup?).2 = [] ∧ (e.annotate ctx.typing ctx.lookup?).1.ty = ty := by
  rw [h.typing]
  exact Expr.hasType_iff h.ne_any h.lookup hu ty

theorem Reflects.reportAll (h : ctx.Reflects typing scopes) (ds : List Diagnostic) :
    (ctx.reportAll ds).Reflects typing scopes :=
  ⟨h.holds, h.slots, h.typing, h.types⟩

theorem Reflects.push (h : ctx.Reflects typing scopes) : ctx.push.Reflects typing ([] :: scopes) := by
  refine ⟨.cons (.empty _) h.holds, ?_, h.typing, ?_⟩
  · rw [Scopes.count, List.map_cons, List.sum_cons, List.length_nil, Nat.zero_add]
    exact h.slots
  · exact List.forall_mem_cons.mpr ⟨nofun, h.types⟩

/-- What was visible before a scope was opened is visible after it is closed. -/
theorem Reflects.pop {inner : Scopes} (h : ctx.Reflects typing scopes) (hk : ctx.push.Keeps ctx')
    (hi : ctx'.Reflects typing inner) : ctx'.pop.Reflects typing scopes := by
  rw [hk.pop_eq]
  exact ⟨h.holds, h.slots, hi.typing, h.types⟩

theorem reportAll_append (ctx : Context) (ds ds' : List Diagnostic) :
    (ctx.reportAll ds).reportAll ds' = ctx.reportAll (ds ++ ds') := by
  have h : ctx.diagnostics ++ ds ++ ds' = ctx.diagnostics ++ (ds ++ ds') :=
    Array.ext' (by simp [Array.toList_appendList])
  simp [Context.reportAll, h]

/-- A name is declared without mistake exactly if the rules let it be added. -/
theorem Reflects.declare (h : ctx.Reflects typing scopes) (hd : ctx.diagnostics = #[])
    (name : String) {ty : Ty} (hty : ty ≠ .any) (line : Nat) :
    ((ctx.declare name ty line).2.diagnostics = #[] → ∃ next, Scopes.Adds name ty scopes next) ∧
    ∀ next, Scopes.Adds name ty scopes next →
      (ctx.declare name ty line).2.diagnostics = #[] ∧
        (ctx.declare name ty line).2.Reflects typing next := by
  obtain ⟨holds, slots, htyping, types⟩ := h
  cases holds with
  | @cons _ scope _ outer inside outside =>
    have hcontains := inside.contains_iff name
    unfold Context.declare
    constructor
    · intro hclean
      by_cases hname : ctx.innermost.names.contains name = true
      · rw [if_pos hname] at hclean
        exact absurd hclean (ctx.report_ne_empty _ _)
      · rw [if_neg hname] at hclean
        have fresh : scope.lookup name = none := Decidable.not_not.mp (hcontains.not.mp hname)
        by_cases hroom : ctx.nextSlot < slotLimit
        · exact ⟨_, .intro fresh (slots ▸ hroom)⟩
        · rw [if_neg hroom] at hclean
          exact absurd hclean (ctx.report_ne_empty _ _)
    · rintro _ ⟨fresh, room⟩
      rw [← slots] at room
      rw [if_neg (fun h => hcontains.mp h fresh), if_pos room]
      refine ⟨hd, .cons (inside.insert name _ _) outside, ?_, htyping, ?_⟩
      · simp only [slots, Scopes.count, List.map_cons, List.sum_cons, List.length_cons]
        omega
      · obtain ⟨first, rest⟩ := List.forall_mem_cons.mp types
        exact List.forall_mem_cons.mpr ⟨List.forall_mem_cons.mpr ⟨hty, first⟩, rest⟩

end Context

namespace Check

variable {typing : BranchTyping} {scopes : Scopes} {t u : Context → Context}

/-- A check, as a change of the context, finds no mistake exactly where the rules lead on from the
scopes, and follows them. -/
def Decides (typing : BranchTyping) (scopes : Scopes) (t : Context → Context)
    (rules : Scopes → Prop) : Prop :=
  ∀ ctx : Context, ctx.Reflects typing scopes → ctx.diagnostics = #[] →
    ((t ctx).diagnostics = #[] → ∃ next, rules next) ∧
    ∀ next, rules next → (t ctx).diagnostics = #[] ∧ (t ctx).Reflects typing next

variable {rules rules' : Scopes → Prop}

theorem Decides.congr (h : Decides typing scopes t rules) (he : ∀ next, rules next ↔ rules' next) :
    Decides typing scopes t rules' := by
  have : rules = rules' := funext fun next => propext (he next)
  exact this ▸ h

theorem decides_id : Decides typing scopes id (· = scopes) := by
  intro ctx hr hd
  refine ⟨fun _ => ⟨scopes, rfl⟩, ?_⟩
  rintro _ rfl
  exact ⟨hd, hr⟩

/-- Mistakes found in a sequence are found by one of its parts. -/
theorem Decides.andThen {rest : Scopes → Scopes → Prop} (ht : Decides typing scopes t rules)
    (hk : ∀ ctx : Context, ctx.Keeps (u ctx))
    (hu : ∀ next, rules next → Decides typing next u (rest next)) :
    Decides typing scopes (fun ctx => u (t ctx)) fun last => ∃ next, rules next ∧ rest next last := by
  intro ctx hr hd
  obtain ⟨sound, complete⟩ := ht ctx hr hd
  constructor
  · intro hlast
    have hfirst := (hk (t ctx)).diagnostics hlast
    obtain ⟨next, hnext⟩ := sound hfirst
    obtain ⟨last, hrest⟩ := (hu next hnext (t ctx) (complete next hnext).2 hfirst).1 hlast
    exact ⟨last, next, hnext, hrest⟩
  · rintro last ⟨next, hnext, hrest⟩
    obtain ⟨hfirst, hreflects⟩ := complete next hnext
    exact (hu next hnext (t ctx) hreflects hfirst).2 last hrest

/-- A check that only reports leaves the scopes as they are. -/
theorem decides_reports {P : Prop}
    (h : ∀ ctx : Context, ctx.Reflects typing scopes → ∃ ds, t ctx = ctx.reportAll ds ∧ (ds = [] ↔ P)) :
    Decides typing scopes t fun next => next = scopes ∧ P := by
  intro ctx hr hd
  obtain ⟨ds, he, hds⟩ := h ctx hr
  rw [he]
  constructor
  · intro hnil
    exact ⟨scopes, rfl, hds.mp (Context.reportAll_eq_nil hnil).1⟩
  · rintro _ ⟨rfl, hp⟩
    rw [hds.mpr hp]
    exact ⟨hd, hr.reportAll []⟩

/-- What is added to a new scope is gone when it is closed. -/
theorem Decides.inScope (hk : ∀ ctx : Context, ctx.Keeps (t ctx))
    (h : Decides typing ([] :: scopes) t rules) :
    Decides typing scopes (fun ctx => (t ctx.push).pop) fun next =>
      next = scopes ∧ ∃ inner, rules inner := by
  intro ctx hr hd
  obtain ⟨sound, complete⟩ := h ctx.push hr.push hd
  rw [Context.pop_diagnostics]
  constructor
  · intro hinner
    exact ⟨scopes, rfl, sound hinner⟩
  · rintro _ ⟨rfl, inner, hinner⟩
    obtain ⟨hclean, hreflects⟩ := complete inner hinner
    exact ⟨hclean, hr.pop (hk ctx.push) hreflects⟩

theorem decides_expr {e : Expr} (hu : e.Untyped) :
    Decides typing scopes (fun ctx => (expr e ctx).2) fun next =>
      next = scopes ∧ ∃ ty, e.HasType typing scopes.ty? ty := by
  refine decides_reports fun ctx hr => ⟨(e.annotate ctx.typing ctx.lookup?).2, rfl, ?_⟩
  constructor
  · intro hd
    exact ⟨_, (hr.hasType_iff hu _).mpr ⟨hd, rfl⟩⟩
  · rintro ⟨ty, ht⟩
    exact ((hr.hasType_iff hu ty).mp ht).1

theorem decides_typed {expected : Ty} (hexp : expected ≠ .any) {e : Expr} (hu : e.Untyped) :
    Decides typing scopes (fun ctx => (typed expected e ctx).2) fun next =>
      next = scopes ∧ e.HasType typing scopes.ty? expected := by
  refine decides_reports fun ctx hr => ?_
  refine ⟨_, ctx.reportAll_append (e.annotate ctx.typing ctx.lookup?).2
    (Diagnostic.ofMismatch _ _ _), ?_⟩
  rw [List.append_eq_nil_iff, hr.hasType_iff hu]
  constructor
  · rintro ⟨hd, hmismatch⟩
    have hany := ((hr.hasType_iff hu _).mpr ⟨hd, rfl⟩).ne_any hr.ne_any
    exact ⟨hd, Diagnostic.eq_of_ofMismatch hmismatch hany hexp⟩
  · rintro ⟨hd, hty⟩
    refine ⟨hd, ?_⟩
    rw [hty]
    exact Diagnostic.ofMismatch_self _ _

theorem decides_option {expected : Ty} (hexp : expected ≠ .any) {o : Option Expr}
    (hu : ∀ e, o = some e → e.Untyped) :
    Decides typing scopes (fun ctx => (option (typed expected) o ctx).2) fun next =>
      next = scopes ∧ ∀ e, o = some e → e.HasType typing scopes.ty? expected := by
  cases o with
  | none => exact decides_id.congr fun next => by simp
  | some e => exact (decides_typed hexp (hu e rfl)).congr fun next => by simp

theorem decides_declare {name : String} {ty : Ty} (hty : ty ≠ .any) (line : Nat) :
    Decides typing scopes (fun ctx => (declare name ty line ctx).2) (Scopes.Adds name ty scopes) :=
  fun _ hr hd => hr.declare hd name hty line

theorem decides_declarator {d : Declarator} (hu : d.Untyped) :
    Decides typing scopes (fun ctx => (declarator d ctx).2) (d.WellTyped typing scopes) := by
  have hexp : d.ty ≠ .any := by
    obtain ⟨kind, hk⟩ := hu.kind
    intro hany
    rw [hany] at hk
    cases hk
  refine ((decides_option hexp hu.init).andThen (fun ctx => ctx.keeps_declare d.name d.ty d.line)
    fun _ _ => decides_declare hexp d.line).congr fun next => ?_
  constructor
  · rintro ⟨_, ⟨rfl, hinit⟩, hadds⟩
    exact ⟨hinit, hadds⟩
  · rintro ⟨hinit, hadds⟩
    exact ⟨_, ⟨rfl, hinit⟩, hadds⟩

theorem decides_declarators {ds : List Declarator} (hu : ∀ d ∈ ds, d.Untyped) :
    Decides typing scopes (fun ctx => (declarators ds ctx).2)
      (Declarator.AllWellTyped typing scopes ds) := by
  induction ds generalizing scopes with
  | nil =>
    refine decides_id.congr fun next => ?_
    constructor
    · rintro rfl
      exact .nil
    · rintro ⟨⟩
      rfl
  | cons d ds ih =>
    obtain ⟨hd, hds⟩ := List.forall_mem_cons.mp hu
    refine ((decides_declarator hd).andThen (keeps_declarators ds) fun _ _ => ih hds).congr
      fun last => ?_
    constructor
    · rintro ⟨_, head, tail⟩
      exact .cons head tail
    · rintro (_ | ⟨head, tail⟩)
      exact ⟨_, head, tail⟩

theorem stmt_print (line : Nat) (e : Expr) (ctx : Context) :
    (stmt (.print line e) ctx).2 = ctx.reportAll ((e.annotate ctx.typing ctx.lookup?).2 ++
      if (e.annotate ctx.typing ctx.lookup?).1.ty = .void then
        [⟨(e.annotate ctx.typing ctx.lookup?).1.line, .noValue⟩]
      else []) := by
  rw [stmt, ← Context.reportAll_append]
  simp only [Check.expr, bind, StateT.bind]
  split <;> rfl

theorem decides_print (line : Nat) {e : Expr} (hu : e.Untyped) :
    Decides typing scopes (fun ctx => (stmt (.print line e) ctx).2) fun next =>
      next = scopes ∧ ∃ ty, e.HasType typing scopes.ty? ty ∧ ty ≠ .void := by
  refine decides_reports fun ctx hr => ⟨_, stmt_print line e ctx, ?_⟩
  rw [List.append_eq_nil_iff]
  constructor
  · rintro ⟨hd, hvoid⟩
    refine ⟨_, (hr.hasType_iff hu _).mpr ⟨hd, rfl⟩, fun h => ?_⟩
    rw [if_pos h] at hvoid
    cases hvoid
  · rintro ⟨ty, value, printable⟩
    obtain ⟨hd, rfl⟩ := (hr.hasType_iff hu ty).mp value
    exact ⟨hd, if_neg printable⟩

mutual

theorem decides_stmt (s : Stmt) (scopes : Scopes) (hu : s.Untyped) :
    Decides typing scopes (fun ctx => (stmt s ctx).2) (s.WellTyped typing scopes) :=
  match s with
  | .declare _ _ names => by
    rw [stmt]
    refine (decides_declarators hu).congr fun next => ?_
    constructor
    · exact .declare
    · rintro ⟨declared⟩
      exact declared
  | .eval e => by
    rw [stmt]
    refine (decides_expr hu).congr fun next => ?_
    constructor
    · rintro ⟨rfl, ty, value⟩
      exact .eval value
    · intro h
      cases h with
      | eval value => exact ⟨rfl, _, value⟩
  | .print line e => by
    refine (decides_print line hu).congr fun next => ?_
    constructor
    · rintro ⟨rfl, ty, value, printable⟩
      exact .print value printable
    · intro h
      cases h with
      | print value printable => exact ⟨rfl, _, value, printable⟩
  | .block _ body => by
    rw [stmt]
    refine ((decides_stmts body ([] :: scopes) hu).inScope (keeps_stmts body)).congr fun next => ?_
    constructor
    · rintro ⟨rfl, inner, inside⟩
      exact .block inside
    · intro h
      cases h with
      | block inside => exact ⟨rfl, _, inside⟩
  | .doWhile _ body condition => by
    rw [stmt]
    refine ((decides_typed (by simp) hu.2).andThen (keeps_stmt body) fun next _ =>
      decides_stmt body next hu.1).congr fun next => ?_
    constructor
    · rintro ⟨_, ⟨rfl, test⟩, inside⟩
      exact .doWhile test inside
    · intro h
      cases h with
      | doWhile test inside => exact ⟨_, ⟨rfl, test⟩, inside⟩
  | .forLoop line names init condition update body => by
    obtain ⟨hnames, hinit, hcondition, hupdate, hbody⟩ := hu
    rw [stmt]
    have hnamed : Decides typing ([] :: scopes) _ _ := decides_declarators hnames
    have hstarted := hnamed.andThen (keeps_stmts init) fun next _ => decides_stmts init next hinit
    have htested := hstarted.andThen (keeps_option (keeps_typed .boolean) condition)
      fun _ _ => decides_option (by simp) hcondition
    have hlooped := htested.andThen (keeps_stmt body) fun next _ => decides_stmt body next hbody
    have hupdated := hlooped.andThen (keeps_stmts update) fun next _ =>
      decides_stmts update next hupdate
    have keeps (ctx : Context) := (keeps_declarators names ctx).trans <|
      (keeps_stmts init _).trans <| (keeps_option (keeps_typed .boolean) condition _).trans <|
      (keeps_stmt body _).trans (keeps_stmts update _)
    refine (hupdated.inScope keeps).congr fun next => ?_
    constructor
    · rintro ⟨rfl, _, _, ⟨_, ⟨_, ⟨_, ofNames, start⟩, rfl, test⟩, inside⟩, again⟩
      exact .forLoop ofNames start test inside again
    · intro h
      cases h with
      | forLoop ofNames start test inside again =>
        exact ⟨rfl, _, _, ⟨_, ⟨_, ⟨_, ofNames, start⟩, rfl, test⟩, inside⟩, again⟩

theorem decides_stmts (ss : List Stmt) (scopes : Scopes) (hu : Stmt.AllUntyped ss) :
    Decides typing scopes (fun ctx => (stmts ss ctx).2) (Stmt.AllWellTyped typing scopes ss) :=
  match ss with
  | [] => by
    rw [stmts]
    refine decides_id.congr fun next => ?_
    constructor
    · rintro rfl
      exact .nil
    · rintro ⟨⟩
      rfl
  | s :: ss => by
    rw [stmts]
    refine ((decides_stmt s scopes hu.1).andThen (keeps_stmts ss) fun next _ =>
      decides_stmts ss next hu.2).congr fun last => ?_
    constructor
    · rintro ⟨_, head, tail⟩
      exact .cons head tail
    · rintro (_ | ⟨head, tail⟩)
      exact ⟨_, head, tail⟩

end

end Check

/-- No mistake is found in a parsed program exactly if the rules derive it. -/
theorem Program.check_clean_iff {source : Source} {program : Program}
    (h : Program.parse source = .ok program) (typing : BranchTyping) :
    (program.check typing).diagnostics = [] ↔ program.WellTyped typing := by
  obtain ⟨sound, complete⟩ := Check.decides_stmts program [[]] (Program.untyped_of_parse h)
    (.new typing) (.new typing) rfl
  constructor
  · intro hd
    exact sound (Array.ext' hd)
  · rintro ⟨next, hnext⟩
    exact congrArg Array.toList (complete next hnext).1

/-- An `int` and a `double` may be the two branches only where branches are promoted. -/
theorem Program.check_clean_iff_branches :
    ∃ program, Program.parse (.ofString "double d = 0.5; print(d < 1.0 ? 1 : d);") = .ok program ∧
      program.WellTyped .promote ∧ ¬ program.WellTyped .identical := by
  have hclean : (Program.parse (.ofString "double d = 0.5; print(d < 1.0 ? 1 : d);")).map
      (fun program => ((program.check .promote).diagnostics.isEmpty,
        (program.check .identical).diagnostics.isEmpty)) = .ok (true, false) := by
    decide +kernel
  obtain ⟨program, hp, hclean⟩ := exists_of_map_ok hclean
  simp only [Prod.mk.injEq, List.isEmpty_iff, List.isEmpty_eq_false_iff] at hclean
  exact ⟨program, hp, (Program.check_clean_iff hp .promote).mp hclean.1,
    (Program.check_clean_iff hp .identical).not.mp hclean.2⟩

end BlockLang
