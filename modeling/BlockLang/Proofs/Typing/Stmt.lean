import BlockLang.Proofs.View
import BlockLang.Stmt.Typing

namespace BlockLang

theorem Scope.names_empty (firstSlot : Nat) (name : String) :
    (Scope.empty firstSlot).names[name]? = none :=
  Std.TreeMap.getElem?_emptyc

/-- A name that is added to a scope is found, and the others as before. -/
theorem Scope.names_insert (names : Std.TreeMap String Binding) (name other : String)
    (binding : Binding) :
    (names.insert name binding)[other]? = if name = other then some binding else names[other]? := by
  simp only [Std.TreeMap.getElem?_insert, Std.LawfulEqCmp.compare_eq_iff_eq]

namespace Context

/-- What no check takes back: the scopes around the innermost one, where that one starts, the
mistakes, and the limit on slots. -/
structure Keeps (ctx ctx' : Context) : Prop where
  outer : ctx'.outer = ctx.outer
  first : ctx'.innermost.firstSlot = ctx.innermost.firstSlot
  diagnostics : ctx'.diagnostics = #[] → ctx.diagnostics = #[]
  rooms : ctx.maxLocals ≤ slotLimit → ctx'.maxLocals ≤ slotLimit

/-- The context knows the same names as the view, and all their slots are taken. -/
structure Agrees (ctx : Context) (view : View) : Prop where
  lookup : ∀ name, ctx.lookup? name = view.bindings name
  taken : ∀ p ∈ view.names, p.2.slot.toNat < ctx.nextSlot
  kinds : ∀ p ∈ view.names, ∃ kind, p.2.ty.kind? = some kind

variable {ctx ctx' : Context} {view : View}

theorem Keeps.refl (ctx : Context) : ctx.Keeps ctx :=
  ⟨rfl, rfl, id, id⟩

theorem Keeps.trans {ctx'' : Context} (h : ctx.Keeps ctx') (h' : ctx'.Keeps ctx'') :
    ctx.Keeps ctx'' :=
  ⟨h'.outer.trans h.outer, h'.first.trans h.first, fun hd => h.diagnostics (h'.diagnostics hd),
    fun hr => h'.rooms (h.rooms hr)⟩

theorem reportAll_eq_nil {ds : List Diagnostic} (h : (ctx.reportAll ds).diagnostics = #[]) :
    ds = [] ∧ ctx.diagnostics = #[] := by
  have hl : (ctx.diagnostics ++ ds).toList = [] := congrArg Array.toList h
  rw [Array.toList_appendList, List.append_eq_nil_iff] at hl
  exact ⟨hl.2, Array.ext' hl.1⟩

theorem keeps_reportAll (ctx : Context) (ds : List Diagnostic) : ctx.Keeps (ctx.reportAll ds) :=
  ⟨rfl, rfl, fun h => (reportAll_eq_nil h).2, id⟩

theorem report_ne_empty (ctx : Context) (line : Nat) (mistake : Mistake) :
    (ctx.report line mistake).diagnostics ≠ #[] := by
  simp [report]

theorem keeps_report (ctx : Context) (line : Nat) (mistake : Mistake) :
    ctx.Keeps (ctx.report line mistake) :=
  ⟨rfl, rfl, fun h => absurd h (ctx.report_ne_empty line mistake), id⟩

/-- Either a mistake is reported and nothing else happens, or the name is new in its scope and gets
the next slot. -/
theorem declare_spec (ctx : Context) (name : String) (ty : Ty) (line : Nat) :
    (ctx.innermost.names.contains name = true ∧
      ctx.declare name ty line = (none, ctx.report line (.redeclared name))) ∨
    (ctx.innermost.names.contains name = false ∧ slotLimit ≤ ctx.nextSlot ∧
      ctx.declare name ty line = (none, ctx.report line .tooManyLocals)) ∨
    (ctx.innermost.names.contains name = false ∧ ctx.nextSlot < slotLimit ∧
      ctx.declare name ty line = (some (UInt16.ofNat ctx.nextSlot),
      { ctx with
        innermost := ⟨ctx.innermost.names.insert name ⟨UInt16.ofNat ctx.nextSlot, ty⟩,
          ctx.innermost.firstSlot⟩
        nextSlot := ctx.nextSlot + 1
        maxLocals := max ctx.maxLocals (ctx.nextSlot + 1) })) := by
  unfold declare
  by_cases hname : ctx.innermost.names.contains name = true
  · rw [if_pos hname]
    exact .inl ⟨hname, rfl⟩
  · rw [if_neg hname]
    rw [Bool.not_eq_true] at hname
    by_cases hroom : ctx.nextSlot < slotLimit
    · rw [if_pos hroom]
      exact .inr (.inr ⟨hname, hroom, rfl⟩)
    · rw [if_neg hroom]
      exact .inr (.inl ⟨hname, Nat.le_of_not_lt hroom, rfl⟩)

/-- A name gets the next slot, or a mistake is reported. -/
theorem declare_cases (ctx : Context) (name : String) (ty : Ty) (line : Nat) :
    (∃ mistake, ctx.declare name ty line = (none, ctx.report line mistake)) ∨
    (ctx.nextSlot < slotLimit ∧ ctx.declare name ty line = (some (UInt16.ofNat ctx.nextSlot),
      { ctx with
        innermost := ⟨ctx.innermost.names.insert name ⟨UInt16.ofNat ctx.nextSlot, ty⟩,
          ctx.innermost.firstSlot⟩
        nextSlot := ctx.nextSlot + 1
        maxLocals := max ctx.maxLocals (ctx.nextSlot + 1) })) := by
  obtain ⟨_, h⟩ | ⟨_, _, h⟩ | ⟨_, hroom, h⟩ := ctx.declare_spec name ty line
  · exact .inl ⟨_, h⟩
  · exact .inl ⟨_, h⟩
  · exact .inr ⟨hroom, h⟩

/-- A declaration that is granted was the first of its name in the innermost scope. -/
theorem declare_eq_some {name : String} {ty : Ty} {line : Nat} {slot : UInt16}
    (h : (ctx.declare name ty line).1 = some slot) :
    ctx.innermost.names[name]? = none ∧ slot.toNat = ctx.nextSlot ∧ ctx.nextSlot < slotLimit ∧
      (ctx.declare name ty line).2 =
        { ctx with
          innermost := ⟨ctx.innermost.names.insert name ⟨slot, ty⟩, ctx.innermost.firstSlot⟩
          nextSlot := ctx.nextSlot + 1
          maxLocals := max ctx.maxLocals (ctx.nextSlot + 1) } := by
  obtain ⟨_, he⟩ | ⟨_, _, he⟩ | ⟨hname, hroom, he⟩ := ctx.declare_spec name ty line
  · rw [he] at h
    cases h
  · rw [he] at h
    cases h
  · rw [he] at h
    cases h
    refine ⟨?_, ?_, hroom, congrArg Prod.snd he⟩
    · rwa [Std.TreeMap.contains_eq_isSome_getElem?, Option.isSome_eq_false_iff,
        Option.isNone_iff_eq_none] at hname
    · exact UInt16.toNat_ofNat_of_lt' (Nat.lt_trans hroom (by decide))

/-- A declaration that is refused leaves one more mistake, and all else as it was. -/
theorem declare_eq_none {name : String} {ty : Ty} {line : Nat}
    (h : (ctx.declare name ty line).1 = none) :
    (ctx.declare name ty line).2 = ctx.report line
      (if ctx.innermost.names.contains name then .redeclared name else .tooManyLocals) := by
  obtain ⟨hname, he⟩ | ⟨hname, _, he⟩ | ⟨_, _, he⟩ := ctx.declare_spec name ty line
  · rw [he, if_pos hname]
  · rw [he, hname]
    rfl
  · rw [he] at h
    cases h

theorem declare_eq_none_iff (ctx : Context) (name : String) (ty : Ty) (line : Nat) :
    (ctx.declare name ty line).1 = none ↔
      ctx.innermost.names.contains name = true ∨ slotLimit ≤ ctx.nextSlot := by
  obtain ⟨hname, he⟩ | ⟨hname, hfull, he⟩ | ⟨hname, hroom, he⟩ := ctx.declare_spec name ty line
  · simp [he, hname]
  · simp [he, hfull]
  · simp [he, hname, Nat.not_le_of_lt hroom]

theorem keeps_declare (ctx : Context) (name : String) (ty : Ty) (line : Nat) :
    ctx.Keeps (ctx.declare name ty line).2 := by
  obtain ⟨mistake, he⟩ | ⟨hlt, he⟩ := ctx.declare_cases name ty line
  · rw [he]
    exact ctx.keeps_report line mistake
  · rw [he]
    exact ⟨rfl, rfl, id, fun h => Nat.max_le.mpr ⟨h, hlt⟩⟩

theorem pop_diagnostics (ctx : Context) : ctx.pop.diagnostics = ctx.diagnostics := by
  unfold pop
  split <;> rfl

/-- A scope that is opened and closed again leaves the scopes as they were. -/
theorem Keeps.pop_eq (h : ctx.push.Keeps ctx') : ctx'.pop = { ctx' with
    innermost := ctx.innermost, outer := ctx.outer, nextSlot := ctx.nextSlot } := by
  simp [Context.pop, h.outer, h.first, push, Scope.empty]

theorem Keeps.pop (h : ctx.push.Keeps ctx') : ctx.Keeps ctx'.pop := by
  rw [h.pop_eq]
  exact ⟨rfl, rfl, h.diagnostics, h.rooms⟩

theorem Agrees.new (typing : BranchTyping) : (new typing).Agrees .empty :=
  ⟨fun name => by simp [lookup?, scopes, Context.new, Scope.empty, View.bindings, View.lookup?,
    View.empty], nofun, nofun⟩

theorem Agrees.report (h : ctx.Agrees view) (ds : List Diagnostic) :
    (ctx.reportAll ds).Agrees view :=
  ⟨h.lookup, h.taken, h.kinds⟩

theorem Agrees.push (h : ctx.Agrees view) : ctx.push.Agrees view := by
  refine ⟨fun name => ?_, h.taken, h.kinds⟩
  rw [← h.lookup name]
  simp [lookup?, scopes, Context.push, Scope.empty]

theorem Agrees.pop {inner : View} (h : ctx.Agrees view) (hk : ctx.push.Keeps ctx') :
    ctx'.pop.Agrees (view.leave inner) := by
  rw [hk.pop_eq]
  exact ⟨h.lookup, h.taken, h.kinds⟩

/-- A declared name is found, and the others as before. -/
theorem Agrees.declare (h : ctx.Agrees view) {d : Declarator} {slot : UInt16}
    (hkind : ∃ kind, d.ty.kind? = some kind) (hslot : d.slot = some slot)
    (hd : (ctx.declare d.name d.ty d.line).1 = some slot) :
    (ctx.declare d.name d.ty d.line).2.Agrees (view.declare d) ∧ slot.toNat < slotLimit ∧
      ∀ p ∈ view.names, p.2.slot ≠ slot := by
  obtain ⟨_, hto, hlt, he⟩ := declare_eq_some hd
  rw [he]
  simp only [View.declare, hslot]
  refine ⟨⟨fun name => ?_, ?_, ?_⟩, by rwa [hto], ?_⟩
  · have hold := h.lookup name
    simp only [lookup?, scopes, List.findSome?_cons, View.bindings, View.lookup?,
      List.lookup_cons, Scope.names_insert] at hold ⊢
    by_cases hname : d.name = name
    · simp [hname]
    · have hbeq : (name == d.name) = false := by simpa using fun h => hname h.symm
      rw [if_neg hname, hbeq]
      exact hold
  · refine List.forall_mem_cons.mpr ⟨by simp [hto], ?_⟩
    exact fun p hp => Nat.lt_succ_of_lt (h.taken p hp)
  · exact List.forall_mem_cons.mpr ⟨hkind, h.kinds⟩
  · intro p hp heq
    have := h.taken p hp
    rw [heq, hto] at this
    exact Nat.lt_irrefl _ this

end Context

namespace Check

variable {α β : Type} {view : View}

/-- A check only adds to its context. -/
def Keeps (x : Check α) : Prop :=
  ∀ ctx : Context, ctx.Keeps (x ctx).2

/-- A check that starts in a view and meets no mistake ends in one related to its result. -/
def Finds (view : View) (x : Check α) (P : α → View → Prop) : Prop :=
  ∀ ctx : Context, ctx.Agrees view → (x ctx).2.diagnostics = #[] →
    ∃ view', P (x ctx).1 view' ∧ (x ctx).2.Agrees view'

theorem keeps_pure (a : α) : Keeps (pure a) :=
  fun ctx => .refl ctx

theorem Keeps.bind {x : Check α} {f : α → Check β} (hx : Keeps x) (hf : ∀ a, Keeps (f a)) :
    Keeps (x >>= f) :=
  fun ctx => (hx ctx).trans (hf _ _)

theorem keeps_expr (e : Expr) : Keeps (expr e) :=
  fun ctx => ctx.keeps_reportAll _

theorem keeps_typed (expected : Ty) (e : Expr) : Keeps (typed expected e) :=
  (keeps_expr e).bind fun _ => Keeps.bind (fun ctx => ctx.keeps_reportAll _) fun _ => keeps_pure _

theorem keeps_option {check : α → Check α} (h : ∀ a, Keeps (check a)) (o : Option α) :
    Keeps (option check o) := by
  cases o with
  | none => exact keeps_pure none
  | some a => exact fun ctx => h a ctx

theorem keeps_declarator (d : Declarator) : Keeps (declarator d) :=
  (keeps_option (keeps_typed d.ty) d.init).bind fun _ =>
    Keeps.bind (fun ctx => ctx.keeps_declare d.name d.ty d.line) fun _ => keeps_pure _

theorem keeps_declarators (ds : List Declarator) : Keeps (declarators ds) := by
  induction ds with
  | nil => exact keeps_pure []
  | cons d ds ih => exact (keeps_declarator d).bind fun _ => ih.bind fun _ => keeps_pure _

theorem Keeps.inScope {x : Check α} (hx : Keeps x) : Keeps (inScope x) :=
  fun ctx => (hx ctx.push).pop

mutual

theorem keeps_stmt (s : Stmt) : Keeps (stmt s) :=
  match s with
  | .declare _ _ names => by
    rw [stmt]
    exact (keeps_declarators names).bind fun _ => keeps_pure _
  | .eval e => by
    rw [stmt]
    exact (keeps_expr e).bind fun _ => keeps_pure _
  | .print _ e => by
    rw [stmt]
    refine (keeps_expr e).bind fun e => ?_
    split
    · exact Keeps.bind (fun ctx => ctx.keeps_report _ _) fun _ => keeps_pure _
    · exact keeps_pure _
  | .block _ body => by
    rw [stmt]
    exact .inScope ((keeps_stmts body).bind fun _ => keeps_pure _)
  | .doWhile _ body condition => by
    rw [stmt]
    exact (keeps_typed .boolean condition).bind fun _ => (keeps_stmt body).bind fun _ => keeps_pure _
  | .forLoop _ names init condition update body => by
    rw [stmt]
    exact .inScope ((keeps_declarators names).bind fun _ => (keeps_stmts init).bind fun _ =>
      (keeps_option (keeps_typed .boolean) condition).bind fun _ => (keeps_stmt body).bind fun _ =>
      (keeps_stmts update).bind fun _ => keeps_pure _)

theorem keeps_stmts (ss : List Stmt) : Keeps (stmts ss) :=
  match ss with
  | [] => by
    rw [stmts]
    exact keeps_pure []
  | s :: ss => by
    rw [stmts]
    exact (keeps_stmt s).bind fun _ => (keeps_stmts ss).bind fun _ => keeps_pure _

end

theorem finds_pure {P : α → View → Prop} {a : α} (h : P a view) : Finds view (pure a) P :=
  fun _ ha _ => ⟨view, h, ha⟩

/-- Where a sequence meets no mistake, none of its parts does. -/
theorem Finds.bind {x : Check α} {f : α → Check β} {P : α → View → Prop} {Q : β → View → Prop}
    (hx : Finds view x P) (hk : ∀ a, Keeps (f a)) (hf : ∀ a v, P a v → Finds v (f a) Q) :
    Finds view (x >>= f) Q := by
  intro ctx ha hd
  obtain ⟨v, hp, hv⟩ := hx ctx ha ((hk _ _).diagnostics hd)
  exact hf _ v hp _ hv hd

theorem Finds.inScope {x : Check α} {P : α → View → Prop} (hk : Keeps x)
    (hx : Finds view x fun a inner => P a (view.leave inner)) : Finds view (inScope x) P := by
  intro ctx ha hd
  have hd' : (x ctx.push).2.diagnostics = #[] := by
    rw [← Context.pop_diagnostics]
    exact hd
  obtain ⟨inner, hp, _⟩ := hx ctx.push ha.push hd'
  exact ⟨_, hp, ha.pop (hk ctx.push)⟩

theorem finds_expr {e : Expr} (hu : e.Untyped) :
    Finds view (expr e) fun e' v => v = view ∧ ∃ ty, e'.Typed view.bindings ty := by
  intro ctx ha hd
  have hlookup : ctx.lookup? = view.bindings := funext ha.lookup
  have hn : ∀ name binding, view.bindings name = some binding →
      ∃ kind, binding.ty.kind? = some kind := by
    intro name binding hb
    obtain ⟨d, hl, rfl⟩ := Option.map_eq_some_iff.mp hb
    exact ha.kinds _ (View.mem_of_lookup? hl)
  have hnil := (Context.reportAll_eq_nil hd).1
  rw [hlookup] at hnil
  refine ⟨view, ⟨rfl, ?_⟩, ha.report _⟩
  change ∃ ty, Expr.Typed view.bindings (e.annotate ctx.typing ctx.lookup?).1 ty
  rw [hlookup]
  exact Expr.annotate_typed hn e hu hnil

theorem finds_typed {expected : Ty} (hexp : expected ≠ .any) {e : Expr} (hu : e.Untyped) :
    Finds view (typed expected e) fun e' v => v = view ∧ e'.Typed view.bindings expected := by
  refine (finds_expr hu).bind
    (fun _ => Keeps.bind (fun ctx => ctx.keeps_reportAll _) fun _ => keeps_pure _) ?_
  intro e' _ hfound ctx ha hd
  obtain ⟨rfl, ty, ht⟩ := hfound
  have hnil := (Context.reportAll_eq_nil hd).1
  rw [ht.ty_eq] at hnil
  obtain rfl := Diagnostic.eq_of_ofMismatch hnil ht.ne_any hexp
  exact ⟨_, ⟨rfl, ht⟩, ha.report _⟩

theorem finds_option {expected : Ty} (hexp : expected ≠ .any) {o : Option Expr}
    (hu : ∀ e, o = some e → e.Untyped) :
    Finds view (option (typed expected) o) fun o' v =>
      v = view ∧ ∀ e, o' = some e → e.Typed view.bindings expected := by
  cases o with
  | none => exact finds_pure ⟨rfl, nofun⟩
  | some e =>
    intro ctx ha hd
    obtain ⟨v, ⟨rfl, ht⟩, hv⟩ := finds_typed hexp (hu e rfl) ctx ha hd
    refine ⟨_, ⟨rfl, ?_⟩, hv⟩
    rintro _ ⟨⟩
    exact ht

theorem finds_declarator {d : Declarator} (hu : d.Untyped) :
    Finds view (declarator d) fun d' v => d'.Fits view ∧ v = view.declare d' := by
  obtain ⟨kind, hk⟩ := hu.kind
  have hexp : d.ty ≠ .any := by
    intro hany
    rw [hany] at hk
    cases hk
  refine (finds_option hexp hu.init).bind
    (fun _ => Keeps.bind (fun ctx => ctx.keeps_declare d.name d.ty d.line) fun _ => keeps_pure _) ?_
  intro init _ hfound ctx ha hd
  obtain ⟨rfl, ht⟩ := hfound
  change (ctx.declare d.name d.ty d.line).2.diagnostics = #[] at hd
  cases hs : (ctx.declare d.name d.ty d.line).1 with
  | none =>
    rw [Context.declare_eq_none hs] at hd
    exact absurd hd (ctx.report_ne_empty d.line _)
  | some slot =>
    obtain ⟨hagrees, hlt, hfresh⟩ :=
      ha.declare (d := ⟨d.line, d.name, d.ty, init, some slot⟩) hu.kind rfl hs
    refine ⟨_, ⟨?_, rfl⟩, ?_⟩
    · change Declarator.Fits _ ⟨d.line, d.name, d.ty, init, (ctx.declare d.name d.ty d.line).1⟩
      rw [hs]
      exact ⟨hu.kind, ⟨slot, rfl, hlt, hfresh⟩, ht⟩
    · change (ctx.declare d.name d.ty d.line).2.Agrees
        (View.declare _ ⟨d.line, d.name, d.ty, init, (ctx.declare d.name d.ty d.line).1⟩)
      rw [hs]
      exact hagrees

theorem finds_declarators {ds : List Declarator} (hu : ∀ d ∈ ds, d.Untyped) :
    Finds view (declarators ds) fun ds' v =>
      Declarator.FitAll view ds' ∧ v = view.declareAll ds' := by
  induction ds generalizing view with
  | nil => exact finds_pure ⟨trivial, rfl⟩
  | cons d ds ih =>
    obtain ⟨hd, hds⟩ := List.forall_mem_cons.mp hu
    refine (finds_declarator hd).bind
      (fun _ => (keeps_declarators ds).bind fun _ => keeps_pure _) ?_
    intro d' _ hfound
    obtain ⟨hfit, rfl⟩ := hfound
    refine (ih hds).bind (fun _ => keeps_pure _) ?_
    intro ds' _ hfound
    obtain ⟨hfits, rfl⟩ := hfound
    exact finds_pure ⟨⟨hfit, hfits⟩, rfl⟩

mutual

theorem finds_stmt (s : Stmt) (view : View) (hu : s.Untyped) :
    Finds view (stmt s) fun s' v => s'.Fits view ∧ v = s'.after view :=
  match s with
  | .declare _ _ names => by
    rw [stmt]
    refine (finds_declarators hu).bind (fun _ => keeps_pure _) ?_
    intro _ _ hfound
    obtain ⟨hfit, rfl⟩ := hfound
    exact finds_pure ⟨hfit, rfl⟩
  | .eval e => by
    rw [stmt]
    refine (finds_expr hu).bind (fun _ => keeps_pure _) ?_
    intro _ _ hfound
    obtain ⟨rfl, ht⟩ := hfound
    exact finds_pure ⟨ht, rfl⟩
  | .print _ e => by
    rw [stmt]
    refine (finds_expr hu).bind (fun e => ?_) ?_
    · split
      · exact Keeps.bind (fun ctx => ctx.keeps_report _ _) fun _ => keeps_pure _
      · exact keeps_pure _
    intro e _ hfound
    obtain ⟨rfl, ty, ht⟩ := hfound
    split
    · intro ctx _ hd
      exact absurd hd (ctx.report_ne_empty _ _)
    · rename_i hvoid
      exact finds_pure ⟨⟨ty, ht, fun h => hvoid (ht.ty_eq.trans h)⟩, rfl⟩
  | .block _ body => by
    rw [stmt]
    refine .inScope ((keeps_stmts body).bind fun _ => keeps_pure _)
      ((finds_stmts body view hu).bind (fun _ => keeps_pure _) ?_)
    intro body' _ hfound
    obtain ⟨hfit, rfl⟩ := hfound
    exact finds_pure ⟨hfit, rfl⟩
  | .doWhile _ body condition => by
    rw [stmt]
    refine (finds_typed (by simp) hu.2).bind
      (fun _ => (keeps_stmt body).bind fun _ => keeps_pure _) ?_
    intro condition' _ hfound
    obtain ⟨rfl, hc⟩ := hfound
    refine (finds_stmt body _ hu.1).bind (fun _ => keeps_pure _) ?_
    intro body' _ hfound
    obtain ⟨hfit, rfl⟩ := hfound
    exact finds_pure ⟨⟨hc, hfit⟩, rfl⟩
  | .forLoop line names init condition update body => by
    rw [stmt]
    obtain ⟨hnames, hinit, hcondition, hupdate, hbody⟩ := hu
    -- What follows each part keeps the context whatever the part gives.
    have kupdate (f : List Stmt → Stmt) := (keeps_stmts update).bind fun u => keeps_pure (f u)
    have kbody (f : Stmt → List Stmt → Stmt) := (keeps_stmt body).bind fun b => kupdate (f b)
    have kcondition (f : Option Expr → Stmt → List Stmt → Stmt) :=
      (keeps_option (keeps_typed .boolean) condition).bind fun c => kbody (f c)
    have kinit (f : List Stmt → Option Expr → Stmt → List Stmt → Stmt) :=
      (keeps_stmts init).bind fun i => kcondition (f i)
    have hkeeps (ns : List Declarator) := kinit fun i c b u => .forLoop line ns i c u b
    refine .inScope ((keeps_declarators names).bind hkeeps)
      ((finds_declarators hnames).bind hkeeps ?_)
    intro names' _ hfound
    obtain ⟨fnames, rfl⟩ := hfound
    refine (finds_stmts init _ hinit).bind (fun _ => kcondition _) ?_
    intro init' _ hfound
    obtain ⟨finit, rfl⟩ := hfound
    refine (finds_option (by simp) hcondition).bind (fun _ => kbody _) ?_
    intro condition' _ hfound
    obtain ⟨rfl, fcondition⟩ := hfound
    refine (finds_stmt body _ hbody).bind (fun _ => kupdate _) ?_
    intro body' _ hfound
    obtain ⟨fbody, rfl⟩ := hfound
    refine (finds_stmts update _ hupdate).bind (fun _ => keeps_pure _) ?_
    intro update' _ hfound
    obtain ⟨fupdate, rfl⟩ := hfound
    exact finds_pure ⟨⟨fnames, finit, fcondition, fbody, fupdate⟩, rfl⟩

theorem finds_stmts (ss : List Stmt) (view : View) (hu : Stmt.AllUntyped ss) :
    Finds view (stmts ss) fun ss' v => Stmt.FitAll view ss' ∧ v = Stmt.afterAll view ss' :=
  match ss with
  | [] => by
    rw [stmts]
    exact finds_pure ⟨trivial, rfl⟩
  | s :: ss => by
    rw [stmts]
    refine (finds_stmt s view hu.1).bind
      (fun _ => (keeps_stmts ss).bind fun _ => keeps_pure _) ?_
    intro s' _ hfound
    obtain ⟨hfit, rfl⟩ := hfound
    refine (finds_stmts ss _ hu.2).bind (fun _ => keeps_pure _) ?_
    intro ss' _ hfound
    obtain ⟨hfits, rfl⟩ := hfound
    exact finds_pure ⟨⟨hfit, hfits⟩, rfl⟩

end

end Check

/-- A program in which no mistake is found is well typed from the empty view on, and its slots are
within the limit. -/
theorem Program.check_fits {typing : BranchTyping} {program : Program}
    (hu : Stmt.AllUntyped program) (hd : (program.check typing).diagnostics = []) :
    Stmt.FitAll .empty (program.check typing).program ∧
      (program.check typing).maxLocals ≤ slotLimit := by
  have hnil : (Check.stmts program (.new typing)).2.diagnostics = #[] := Array.ext' hd
  have hkeeps := Check.keeps_stmts program (.new typing)
  obtain ⟨_, ⟨hfit, _⟩, _⟩ := Check.finds_stmts program .empty hu _ (.new typing) hnil
  exact ⟨hfit, hkeeps.rooms (Nat.zero_le _)⟩

end BlockLang
