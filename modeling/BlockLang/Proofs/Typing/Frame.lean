import BlockLang.Proofs.Typing.Stmt

namespace BlockLang

/-- Blocks and `for` loops have a scope of their own. -/
def Stmt.isScoped : Stmt → Bool
  | block _ _ | forLoop .. => true
  | _ => false

/-- What a statement declares in the scope that it stands in. The body of a `do` loop stands in that
scope too. -/
def Stmt.declared : Stmt → List Declarator
  | declare _ _ names => names
  | doWhile _ body _ => body.declared
  | eval _ | print _ _ | block _ _ | forLoop .. => []

namespace Context

/-- The innermost scope gains what is declared and loses nothing. A new name has a slot that was free,
and the type it is declared with. Only if there are no more slots may a declared name be missing. -/
structure Gains (ds : List Declarator) (ctx ctx' : Context) : Prop where
  next : ctx.nextSlot ≤ ctx'.nextSlot
  locals : ctx.maxLocals ≤ ctx'.maxLocals
  kept : ∀ (name : String) (binding : Binding), ctx.innermost.names[name]? = some binding →
    ctx'.innermost.names[name]? = some binding
  gained : ∀ (name : String) (binding : Binding), ctx'.innermost.names[name]? = some binding →
    ctx.innermost.names[name]? = some binding ∨
      (∃ d ∈ ds, d.name = name ∧ d.ty = binding.ty) ∧
        ctx.nextSlot ≤ binding.slot.toNat ∧ binding.slot.toNat < ctx'.nextSlot
  complete : ∀ d ∈ ds, ctx'.innermost.names.contains d.name = true ∨ slotLimit ≤ ctx'.nextSlot

/-- What a statement does to the scopes that it is checked in. -/
structure Framed (s : Stmt) (ctx ctx' : Context) : Prop where
  depth : ctx'.scopes.length = ctx.scopes.length
  outer : ctx'.outer = ctx.outer
  gains : ctx.Gains s.declared ctx'
  restored : s.isScoped = true →
    ctx'.scopes = ctx.scopes ∧ ctx'.nextSlot = ctx.nextSlot ∧
      ∀ name, ctx'.lookup? name = ctx.lookup? name

variable {ctx ctx' ctx'' : Context} {ds ds' : List Declarator}

theorem contains_iff (scope : Scope) (name : String) :
    scope.names.contains name = true ↔ ∃ binding, scope.names[name]? = some binding := by
  rw [Std.TreeMap.contains_eq_isSome_getElem?, Option.isSome_iff_exists]

/-- Where the innermost scope and the slots in use are the same, nothing is declared. -/
theorem Gains.of_eq (hi : ctx'.innermost = ctx.innermost) (hn : ctx'.nextSlot = ctx.nextSlot)
    (hl : ctx.maxLocals ≤ ctx'.maxLocals) : ctx.Gains [] ctx' := by
  refine ⟨Nat.le_of_eq hn.symm, hl, fun name binding hb => ?_, fun name binding hb => ?_, nofun⟩
  · rwa [hi]
  · rw [hi] at hb
    exact .inl hb

theorem Gains.refl (ctx : Context) : ctx.Gains [] ctx :=
  .of_eq rfl rfl (Nat.le_refl _)

theorem gains_reportAll (ctx : Context) (ds : List Diagnostic) : ctx.Gains [] (ctx.reportAll ds) :=
  .of_eq rfl rfl (Nat.le_refl _)

theorem gains_report (ctx : Context) (line : Nat) (mistake : Mistake) :
    ctx.Gains [] (ctx.report line mistake) :=
  .of_eq rfl rfl (Nat.le_refl _)

theorem Gains.trans (h : ctx.Gains ds ctx') (h' : ctx'.Gains ds' ctx'') :
    ctx.Gains (ds ++ ds') ctx'' := by
  refine
    { next := Nat.le_trans h.next h'.next
      locals := Nat.le_trans h.locals h'.locals
      kept := fun name binding hb => h'.kept name binding (h.kept name binding hb)
      gained := fun name binding hb => ?gained
      complete := fun d hd => ?complete }
  case gained =>
    rcases h'.gained name binding hb with hb | ⟨⟨d, hd, hdeclared⟩, hlow, hhigh⟩
    · refine (h.gained name binding hb).imp_right ?_
      rintro ⟨⟨d, hd, hdeclared⟩, hlow, hhigh⟩
      exact ⟨⟨d, List.mem_append_left _ hd, hdeclared⟩, hlow, Nat.lt_of_lt_of_le hhigh h'.next⟩
    · exact .inr ⟨⟨d, List.mem_append_right _ hd, hdeclared⟩, Nat.le_trans h.next hlow, hhigh⟩
  case complete =>
    rcases List.mem_append.mp hd with hd | hd
    · refine (h.complete d hd).imp (fun hbound => ?_) fun hfull => Nat.le_trans hfull h'.next
      obtain ⟨binding, hb⟩ := (contains_iff _ _).mp hbound
      exact (contains_iff _ _).mpr ⟨binding, h'.kept d.name binding hb⟩
    · exact h'.complete d hd

/-- A name is gained, or it was there before, or there is no slot for it. -/
theorem gains_declare (ctx : Context) (d : Declarator) :
    ctx.Gains [d] (ctx.declare d.name d.ty d.line).2 := by
  cases hd : (ctx.declare d.name d.ty d.line).1 with
  | none =>
    have hmissing := (ctx.declare_eq_none_iff d.name d.ty d.line).mp hd
    rw [declare_eq_none hd]
    exact { ctx.gains_report d.line _ with
      gained := fun _ _ hb => .inl hb
      complete := List.forall_mem_singleton.mpr hmissing }
  | some slot =>
    obtain ⟨hnew, hslot, _, he⟩ := declare_eq_some hd
    rw [he]
    refine ⟨Nat.le_succ _, Nat.le_max_left _ _, fun name binding hb => ?_, fun name binding hb => ?_,
      List.forall_mem_singleton.mpr (.inl Std.TreeMap.contains_insert_self)⟩
    · dsimp only
      rw [Scope.names_insert, if_neg]
      · exact hb
      · rintro rfl
        rw [hnew] at hb
        cases hb
    · dsimp only at hb
      rw [Scope.names_insert] at hb
      split at hb
      · rename_i hsame
        cases hb
        refine .inr ⟨⟨d, List.mem_singleton_self d, hsame, rfl⟩, Nat.le_of_eq hslot.symm, ?_⟩
        dsimp only
        rw [hslot]
        exact Nat.lt_succ_self _
      · exact .inl hb

/-- What a scope of its own gained is gone when it is closed. -/
theorem Gains.pop (hk : ctx.push.Keeps ctx') (h : ctx.push.Gains ds ctx') : ctx.Gains [] ctx'.pop := by
  rw [hk.pop_eq]
  exact .of_eq rfl rfl h.locals

end Context

namespace Check

variable {α β : Type} {ds ds' : List Declarator}

/-- Whatever a check is made in, the innermost scope gains what is declared. -/
def Gains (ds : List Declarator) (x : Check α) : Prop :=
  ∀ ctx : Context, ctx.Gains ds (x ctx).2

theorem gains_pure (a : α) : Gains [] (pure a) :=
  fun ctx => .refl ctx

theorem Gains.bind {x : Check α} {f : α → Check β} (hx : Gains ds x) (hf : ∀ a, Gains ds' (f a)) :
    Gains (ds ++ ds') (x >>= f) :=
  fun ctx => (hx ctx).trans (hf _ _)

/-- What is left to do declares nothing. -/
theorem Gains.last {x : Check α} {f : α → Check β} (hx : Gains ds x) (hf : ∀ a, Gains [] (f a)) :
    Gains ds (x >>= f) := by
  have h := hx.bind hf
  rwa [List.append_nil] at h

theorem gains_expr (e : Expr) : Gains [] (expr e) :=
  fun ctx => ctx.gains_reportAll _

theorem gains_typed (expected : Ty) (e : Expr) : Gains [] (typed expected e) :=
  (gains_expr e).last fun _ => Gains.last (fun ctx => ctx.gains_reportAll _) fun _ => gains_pure _

theorem gains_option {check : α → Check α} (h : ∀ a, Gains [] (check a)) (o : Option α) :
    Gains [] (option check o) := by
  cases o with
  | none => exact gains_pure none
  | some a => exact fun ctx => h a ctx

theorem gains_declarator (d : Declarator) : Gains [d] (declarator d) :=
  (gains_option (gains_typed d.ty) d.init).bind fun _ =>
    Gains.last (fun ctx => ctx.gains_declare d) fun _ => gains_pure _

theorem gains_declarators (ds : List Declarator) : Gains ds (declarators ds) := by
  induction ds with
  | nil => exact gains_pure []
  | cons d ds ih => exact (gains_declarator d).bind fun _ => ih.last fun _ => gains_pure _

theorem Gains.inScope {x : Check α} (hk : Keeps x) (hx : Gains ds x) : Gains [] (inScope x) :=
  fun ctx => (hx ctx.push).pop (hk ctx.push)

/-- What is checked in the scope of a `for` loop. -/
theorem keeps_loop (line : Nat) (names : List Declarator) (init : List Stmt)
    (condition : Option Expr) (update : List Stmt) (body : Stmt) : Keeps do
      let names ← declarators names
      let init ← stmts init
      let condition ← option (typed .boolean) condition
      let body ← stmt body
      let update ← stmts update
      return Stmt.forLoop line names init condition update body :=
  (keeps_declarators names).bind fun _ => (keeps_stmts init).bind fun _ =>
    (keeps_option (keeps_typed .boolean) condition).bind fun _ => (keeps_stmt body).bind fun _ =>
    (keeps_stmts update).bind fun _ => keeps_pure _

mutual

theorem gains_stmt (s : Stmt) : Gains s.declared (stmt s) :=
  match s with
  | .declare _ _ names => by
    rw [stmt, Stmt.declared]
    exact (gains_declarators names).last fun _ => gains_pure _
  | .eval e => by
    rw [stmt, Stmt.declared]
    exact (gains_expr e).last fun _ => gains_pure _
  | .print _ e => by
    rw [stmt, Stmt.declared]
    refine (gains_expr e).last fun e => ?_
    split
    · exact Gains.last (fun ctx => ctx.gains_report _ _) fun _ => gains_pure _
    · exact gains_pure _
  | .block _ body => by
    rw [stmt, Stmt.declared]
    exact .inScope ((keeps_stmts body).bind fun _ => keeps_pure _)
      ((gains_stmts body).last fun _ => gains_pure _)
  | .doWhile _ body condition => by
    rw [stmt, Stmt.declared]
    exact (gains_typed .boolean condition).bind fun _ => (gains_stmt body).last fun _ => gains_pure _
  | .forLoop line names init condition update body => by
    rw [stmt, Stmt.declared]
    exact .inScope (keeps_loop line names init condition update body)
      ((gains_declarators names).bind fun _ => (gains_stmts init).bind fun _ =>
        (gains_option (gains_typed .boolean) condition).bind fun _ => (gains_stmt body).bind fun _ =>
        (gains_stmts update).last fun _ => gains_pure _)

theorem gains_stmts (ss : List Stmt) : Gains (ss.flatMap Stmt.declared) (stmts ss) :=
  match ss with
  | [] => by
    rw [stmts]
    exact gains_pure []
  | s :: ss => by
    rw [stmts, List.flatMap_cons]
    exact (gains_stmt s).bind fun _ => (gains_stmts ss).last fun _ => gains_pure _

end

theorem stmt_of_isScoped {s : Stmt} (hs : s.isScoped = true) :
    ∃ x, Keeps x ∧ stmt s = inScope x := by
  cases s with
  | block line body => exact ⟨_, (keeps_stmts body).bind fun _ => keeps_pure _, stmt.eq_4 ..⟩
  | forLoop line names init condition update body =>
    exact ⟨_, keeps_loop line names init condition update body, stmt.eq_6 ..⟩
  | _ => cases hs

/-- Every scope is closed again that is opened, whatever is declared in it and whatever is wrong in it.
What is left is what the statement declares where it stands. An expression only adds mistakes. -/
theorem stmt_framed :
    (∀ (s : Stmt) (ctx : Context), ctx.Framed s (stmt s ctx).2) ∧
      ∀ (e : Expr) (ctx : Context), ∃ ds,
        (expr e ctx).2 = { ctx with diagnostics := ctx.diagnostics.appendList ds } := by
  refine ⟨fun s ctx => ?_, fun e ctx => ⟨_, rfl⟩⟩
  have hkeeps := keeps_stmt s ctx
  refine
    { depth := congrArg (·.length + 1) hkeeps.outer
      outer := hkeeps.outer
      gains := gains_stmt s ctx
      restored := fun hs => ?_ }
  obtain ⟨x, hx, he⟩ := stmt_of_isScoped hs
  have hpop : (stmt s ctx).2 = (x ctx.push).2.pop := congrArg (fun check => (check ctx).2) he
  rw [hpop, (hx ctx.push).pop_eq]
  exact ⟨rfl, rfl, fun _ => rfl⟩

/-- The name is declared in the scope that the loop stands in. -/
example : (Check.stmt (.doWhile 1 (.declare 1 .int [⟨1, "a", .int, none, none⟩])
    (.literal (.untyped 1) (.boolean true))) (.new .identical)).2.lookup? "a" = some ⟨0, .int⟩ :=
  rfl

end Check

end BlockLang
