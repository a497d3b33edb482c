import BlockLang.Proofs.Generation.Stmt

namespace BlockLang

/-- Code may go to a target, and to its own labels, which are those from `base` on. -/
def Label.Usable (base : Nat) (targets : List Label) (label : Label) : Prop :=
  label ∈ targets ∨ base ≤ label.number

/-- An entry of such code. Only its own labels are bound in it. -/
def Entry.Allowed (base : Nat) (targets : List Label) : Entry → Prop
  | .label l => base ≤ l.number
  | .instruction (.jump _ l) => l.Usable base targets
  | .instruction _ => True

namespace Assembly

/-- A label stands among the entries as often as it is bound: once or not at all. -/
def BindsOnce (a : Assembly) : Prop :=
  ∀ n : Nat, a.entries.toList.count (.label ⟨n⟩) =
    if a.labels[n]?.join.isSome then 1 else 0

variable {a m a' : Assembly}

theorem BindsOnce.push (h : a.BindsOnce) (i : Instruction Label) : (a.push i).BindsOnce := by
  intro n
  have hentries : (a.push i).entries.toList = a.entries.toList ++ [.instruction i] := by
    simp [Assembly.push]
  rw [hentries, List.count_append, List.count_singleton, h n]
  rfl

theorem BindsOnce.newLabel (h : a.BindsOnce) : a.newLabel.2.BindsOnce := by
  intro n
  have hsame : (a.labels.push none)[n]?.join = a.labels[n]?.join := by
    rw [Array.getElem?_push]
    split
    · rename_i hn
      simp [hn]
    · rfl
  simpa only [Assembly.newLabel, hsame] using h n

theorem BindsOnce.bind {label : Label} {result : Except AssemblyError Unit} (h : a.BindsOnce)
    (hb : a.bind label = (result, a')) : a'.BindsOnce := by
  obtain ⟨_, rfl⟩ | ⟨_, hn, rfl⟩ := bind_cases hb
  · exact h
  intro n
  have hlt := (Array.getElem?_eq_some_iff.mp hn).1
  have hold := h n
  simp only [Array.toList_push, List.count_append, List.count_singleton,
    Array.getElem?_setIfInBounds]
  by_cases he : label.number = n
  · subst he
    rw [hold, hn]
    simp [hlt]
  · have hne : label ≠ ⟨n⟩ := fun hl => he (congrArg Label.number hl)
    simp [he, hne, hold]

theorem BindsOnce.jump {branch : Branch} {label : Label} {result : Except AssemblyError Unit}
    (h : a.BindsOnce) (hj : a.jump branch label = (result, a')) : a'.BindsOnce := by
  obtain ⟨_, _, rfl⟩ | ⟨_, _, rfl⟩ := jump_cases hj
  · exact h
  · exact h.push _

theorem BindsOnce.pushString {text : String} {result : Except AssemblyError Unit} (h : a.BindsOnce)
    (hp : a.pushString text = (result, a')) : a'.BindsOnce := by
  obtain ⟨_, _, _, rfl⟩ | ⟨_, _, _, _, rfl⟩ := pushString_cases hp
  · exact h
  · exact BindsOnce.push h _

/-- No call binds a label a second time. -/
theorem Call.bindsOnce (h : Call a a') (ha : a.BindsOnce) : a'.BindsOnce := by
  cases h with
  | newLabel => exact ha.newLabel
  | bind label =>
    rw [Emit.bind, Emit.snd_act]
    exact ha.bind rfl
  | jump branch label =>
    rw [Emit.jump, Emit.snd_act]
    exact ha.jump rfl
  | op o => exact ha.push _
  | access o slot => exact BindsOnce.push ha _
  | pushInt value => exact ha.push _
  | pushDouble value => exact ha.push _
  | pushString text =>
    rw [Emit.pushString, Emit.snd_act]
    exact ha.pushString rfl
  | reserve count => exact ha

theorem Calls.bindsOnce (h : Calls .empty a) : a.BindsOnce := by
  induction h with
  | refl => simp [BindsOnce, Assembly.empty]
  | tail _ call ih => exact call.bindsOnce ih

/-- From `a` to `a'` calls were made that use the labels from `base` on, and go to the targets
besides. The labels below `base` are as they were. -/
structure Adds (base : Nat) (targets : List Label) (a a' : Assembly) : Prop where
  calls : Calls a a'
  entries : ∃ added, a'.entries.toList = a.entries.toList ++ added ∧
    ∀ e ∈ added, e.Allowed base targets
  labels : ∀ n < base, a'.labels[n]? = a.labels[n]?
  count : a.labels.size ≤ a'.labels.size

variable {base : Nat} {targets : List Label}

theorem Adds.refl (a : Assembly) : a.Adds base targets a :=
  ⟨.refl, ⟨[], by simp, nofun⟩, fun _ _ => rfl, Nat.le_refl _⟩

theorem Adds.trans (h : a.Adds base targets m) (h' : m.Adds base targets a') :
    a.Adds base targets a' := by
  obtain ⟨first, hfirst, hallowed⟩ := h.entries
  obtain ⟨second, hsecond, hallowed'⟩ := h'.entries
  refine ⟨h.calls.trans h'.calls, ⟨first ++ second, ?_, ?_⟩, ?_, Nat.le_trans h.count h'.count⟩
  · rw [hsecond, hfirst, List.append_assoc]
  · exact List.forall_mem_append.mpr ⟨hallowed, hallowed'⟩
  · exact fun n hn => (h'.labels n hn).trans (h.labels n hn)

/-- A call that leaves the entries and the labels alone. -/
theorem Call.adds (call : Call a a') (entries : a'.entries = a.entries)
    (labels : a'.labels = a.labels) : a.Adds base targets a' :=
  ⟨.single call, ⟨[], by simp [entries], nofun⟩, fun _ _ => by rw [labels],
    Nat.le_of_eq (by rw [labels])⟩

/-- A call that pushes an instruction. -/
theorem Call.adds_push {i : Instruction Label} (call : Call a a')
    (entries : a'.entries = a.entries.push (.instruction i)) (labels : a'.labels = a.labels)
    (allowed : (Entry.instruction i).Allowed base targets) : a.Adds base targets a' :=
  ⟨.single call, ⟨[.instruction i], by simp [entries], by simpa using allowed⟩,
    fun _ _ => by rw [labels], Nat.le_of_eq (by rw [labels])⟩

end Assembly

namespace Emit

variable {α β : Type} {base : Nat} {targets : List Label}

/-- Whatever comes of `x`, it adds to an assembly and uses only the labels that it may. -/
def Within (base : Nat) (targets : List Label) (x : Emit α) : Prop :=
  ∀ a : Assembly, base ≤ a.labels.size → a.Adds base targets (x a).2

theorem Within.bind {x : Emit α} {f : α → Emit β} (hx : Within base targets x)
    (hf : ∀ v, Within base targets (f v)) : Within base targets (x >>= f) := by
  intro a ha
  have hfirst := hx a ha
  rw [bind_apply]
  rcases hr : x a with ⟨error | v, m⟩ <;> rw [hr] at hfirst
  · exact hfirst
  · exact hfirst.trans (hf v m (Nat.le_trans ha hfirst.count))

theorem within_pure (v : α) : Within base targets (pure v) :=
  fun a _ => .refl a

theorem within_unresolved (line : Nat) : Within base targets (unresolved line : Emit α) :=
  fun a _ => .refl a

/-- A label that is created may be used from there on. -/
theorem within_newLabel {f : Label → Emit α}
    (hf : ∀ label : Label, base ≤ label.number → Within base targets (f label)) :
    Within base targets (newLabel >>= f) := by
  intro a ha
  have hnew : a.Adds base targets a.newLabel.2 := by
    refine ⟨.single .newLabel, ⟨[], by simp [Assembly.newLabel], nofun⟩, ?_, ?_⟩
    · intro n hn
      rw [Assembly.newLabel, Array.getElem?_push, if_neg (by omega)]
    · simp [Assembly.newLabel]
  exact hnew.trans (hf ⟨a.labels.size⟩ ha a.newLabel.2 (Nat.le_trans ha hnew.count))

theorem within_bind {label : Label} (h : base ≤ label.number) :
    Within base targets (bind label) := by
  intro a _
  have hcall : a.Call (bind label a).2 := .bind label
  rw [Emit.bind, snd_act] at hcall ⊢
  rcases hb : a.bind label with ⟨result, a'⟩
  rw [hb] at hcall
  obtain ⟨_, rfl⟩ | ⟨_, _, rfl⟩ := Assembly.bind_cases hb
  · exact .refl _
  · refine ⟨.single hcall, ⟨[.label label], by simp, List.forall_mem_singleton.mpr h⟩, ?_, by simp⟩
    intro n hn
    rw [Array.getElem?_setIfInBounds, if_neg (by omega)]

theorem within_jump (branch : Branch) {label : Label} (h : label.Usable base targets) :
    Within base targets (jump branch label) := by
  intro a _
  have hcall : a.Call (jump branch label a).2 := .jump branch label
  rw [jump, snd_act] at hcall ⊢
  rcases hj : a.jump branch label with ⟨result, a'⟩
  rw [hj] at hcall
  obtain ⟨_, _, rfl⟩ | ⟨_, _, rfl⟩ := Assembly.jump_cases hj
  · exact .refl a'
  · exact hcall.adds_push rfl rfl h

theorem within_op (o : Opcode) : Within base targets (op o) :=
  fun _ _ => (Assembly.Call.op o).adds_push rfl rfl trivial

theorem within_access (o : LocalOp) (slot : UInt16) : Within base targets (access o slot) :=
  fun _ _ => (Assembly.Call.access o slot).adds_push rfl rfl trivial

theorem within_pushInt (value : Int32) : Within base targets (push (.pushInt value)) :=
  fun _ _ => (Assembly.Call.pushInt value).adds_push rfl rfl trivial

theorem within_pushString (text : String) : Within base targets (pushString text) := by
  intro a _
  have hcall : a.Call (pushString text a).2 := .pushString text
  rw [pushString, snd_act] at hcall ⊢
  rcases hp : a.pushString text with ⟨result, a'⟩
  rw [hp] at hcall
  obtain ⟨_, _, _, rfl⟩ | ⟨_, _, _, _, rfl⟩ := Assembly.pushString_cases hp
  · exact .refl a'
  · exact hcall.adds_push rfl rfl trivial

theorem within_pushLiteral (value : Literal) :
    Within base targets (Expr.pushLiteral value) := by
  cases value with
  | int value => exact within_pushInt value
  | double value => exact fun _ _ => (Assembly.Call.pushDouble value).adds_push rfl rfl trivial
  | boolean value => exact within_pushInt _
  | string value => exact within_pushString value

theorem within_resolvedTy (e : Expr) : Within base targets e.resolvedTy := by
  unfold Expr.resolvedTy
  split
  · exact within_unresolved e.line
  · exact within_unresolved e.line
  · exact within_pure _

theorem within_slotAccess (e : Expr) (op : Kind → LocalOp) :
    Within base targets (e.slotAccess op) := by
  refine (within_resolvedTy e).bind fun ty => ?_
  split
  · exact within_pure _
  · exact within_unresolved e.line

theorem within_convert (source target : Ty) :
    Within base targets (Expr.convert source target) := by
  unfold Expr.convert
  split
  · exact within_op _
  · exact within_op _
  · exact within_pure ()

theorem within_deliver {want : Want} (h : ∀ l ∈ want.targets, l.Usable base targets) :
    Within base targets (Expr.deliver want) := by
  cases want with
  | value => exact within_pure ()
  | jump target onTrue => exact within_jump _ (h target List.mem_cons_self)

theorem within_deliverCondition {condition : Label → Bool → Emit Unit} {want : Want}
    (h : ∀ l ∈ want.targets, l.Usable base targets)
    (hc : ∀ (target : Label) (onTrue : Bool), target.Usable base targets →
      Within base targets (condition target onTrue)) :
    Within base targets (Expr.deliverCondition condition want) := by
  cases want with
  | jump target onTrue => exact hc target onTrue (h target List.mem_cons_self)
  | value =>
    refine within_newLabel fun isFalse hfalse => within_newLabel fun done hdone => ?_
    exact (hc isFalse false (.inr hfalse)).bind fun _ => (within_pushInt 1).bind fun _ =>
      (within_jump .goto (.inr hdone)).bind fun _ => (within_bind hfalse).bind fun _ =>
      (within_pushInt 0).bind fun _ => within_bind hdone

theorem within_both (op : LogicOp) {lhs rhs : Label → Bool → Emit Unit} {target : Label}
    (onTrue : Bool) (h : target.Usable base targets)
    (hl : ∀ (target : Label) (onTrue : Bool), target.Usable base targets →
      Within base targets (lhs target onTrue))
    (hr : ∀ (target : Label) (onTrue : Bool), target.Usable base targets →
      Within base targets (rhs target onTrue)) :
    Within base targets (Expr.both op lhs rhs target onTrue) := by
  unfold Expr.both
  dsimp only
  split
  · exact (hl target onTrue h).bind fun _ => hr target onTrue h
  · refine within_newLabel fun skip hskip => ?_
    exact (hl skip _ (.inr hskip)).bind fun _ => (hr target onTrue h).bind fun _ =>
      within_bind hskip

theorem within_jumpOnRelation (relation : Relation) (ty : Ty) {target : Label} (onTrue : Bool)
    (h : target.Usable base targets) :
    Within base targets (Expr.jumpOnRelation relation ty target onTrue) := by
  unfold Expr.jumpOnRelation
  dsimp only
  split
  · exact (within_op _).bind fun _ => within_jump _ h
  · exact within_jump _ h

theorem within_dropThen (ty : Ty) {rest : Emit α} (h : Within base targets rest) :
    Within base targets (if ty ≠ .void then do op .pop; rest else rest) := by
  split
  · exact (within_op .pop).bind fun _ => h
  · exact h

/-- Code for an expression uses its own labels, and those that it is told to go to. -/
theorem within_code (e : Expr) (want : Want) (h : ∀ l ∈ want.targets, l.Usable base targets) :
    Within base targets (e.code want) := by
  have goes {target : Label} (onTrue : Bool) (ht : target.Usable base targets) :
      ∀ l ∈ (Want.jump target onTrue).targets, l.Usable base targets :=
    List.forall_mem_singleton.mpr ht
  have here : ∀ l ∈ Want.value.targets, l.Usable base targets := List.forall_mem_nil _
  induction e generalizing want with
  | literal mark value =>
    rw [Expr.code]
    refine (within_resolvedTy _).bind fun _ => ?_
    cases value with
    | boolean value =>
      cases want with
      | value => exact within_pushLiteral _
      | jump target onTrue =>
        dsimp only
        split
        · exact within_jump _ (h target List.mem_cons_self)
        · exact within_pure ()
    | _ => exact (within_pushLiteral _).bind fun _ => within_deliver h
  | var mark name slot =>
    rw [Expr.code]
    exact (within_resolvedTy _).bind fun _ => (within_slotAccess _ _).bind fun _ =>
      (within_access _ _).bind fun _ => within_deliver h
  | unary mark op operand ih =>
    rw [Expr.code]
    refine (within_resolvedTy _).bind fun _ => ?_
    cases op with
    | negate =>
      exact (ih .value here).bind fun _ => (within_op _).bind fun _ => within_deliver h
    | not =>
      exact within_deliverCondition h fun target onTrue ht => ih (.jump target !onTrue) (goes _ ht)
  | binary mark op l r ihl ihr =>
    rw [Expr.code]
    refine (within_resolvedTy _).bind fun _ => ?_
    have left := ihl .value here
    have right := ihr .value here
    cases op with
    | arith op =>
      exact left.bind fun _ => right.bind fun _ => (within_resolvedTy r).bind fun _ =>
        (within_convert _ _).bind fun _ => (within_op _).bind fun _ => within_deliver h
    | bit op =>
      exact left.bind fun _ => right.bind fun _ => (within_op _).bind fun _ => within_deliver h
    | logic op =>
      exact within_deliverCondition h fun target onTrue ht => within_both op onTrue ht
        (fun t b ht => ihl (.jump t b) (goes b ht)) fun t b ht => ihr (.jump t b) (goes b ht)
    | compare relation =>
      exact within_deliverCondition h fun target onTrue ht => left.bind fun _ => right.bind fun _ =>
        (within_resolvedTy l).bind fun ty => within_jumpOnRelation relation ty onTrue ht
    | assign =>
      exact (within_slotAccess l .store).bind fun _ => right.bind fun _ =>
        (within_op _).bind fun _ => (within_access _ _).bind fun _ => within_deliver h
  | concat mark l r ihl ihr =>
    rw [Expr.code]
    exact (within_resolvedTy _).bind fun _ => (ihl .value here).bind fun _ =>
      (ihr .value here).bind fun _ => (within_op _).bind fun _ => within_deliver h
  | ternary mark c t f ihc iht ihf =>
    rw [Expr.code]
    refine (within_resolvedTy _).bind fun ty => within_newLabel fun otherwise hother => ?_
    refine (ihc (.jump otherwise false) (goes _ (.inr hother))).bind fun _ => ?_
    refine (iht .value here).bind fun _ => (within_resolvedTy t).bind fun _ => ?_
    refine (within_convert _ ty).bind fun _ => within_newLabel fun done hdone => ?_
    refine (within_jump .goto (.inr hdone)).bind fun _ => (within_bind hother).bind fun _ => ?_
    refine (ihf .value here).bind fun _ => (within_resolvedTy f).bind fun _ => ?_
    exact (within_convert _ ty).bind fun _ => (within_bind hdone).bind fun _ => within_deliver h
  | guarded mark c t ihc iht =>
    rw [Expr.code]
    refine (within_resolvedTy _).bind fun _ => within_newLabel fun otherwise hother => ?_
    refine (ihc (.jump otherwise false) (goes _ (.inr hother))).bind fun _ => ?_
    refine (iht .value here).bind fun _ => (within_resolvedTy t).bind fun ty => ?_
    exact within_dropThen ty ((within_bind hother).bind fun _ => within_deliver h)

theorem within_value (e : Expr) : Within base targets (e.code .value) :=
  within_code e .value (List.forall_mem_nil _)

theorem within_forM {f : α → Emit Unit} (h : ∀ v, Within base targets (f v)) (vs : List α) :
    Within base targets (vs.forM f) := by
  induction vs with
  | nil => exact within_pure ()
  | cons v vs ih => exact (h v).bind fun _ => ih

theorem within_declarator (d : Declarator) : Within base targets d.code := by
  unfold Declarator.code
  split
  · exact within_pure ()
  · split
    · exact (within_value _).bind fun _ => within_access _ _
    · exact within_unresolved d.line

theorem within_loop {body : Label → Emit Unit}
    (h : ∀ out : Label, base ≤ out.number → Within base targets (body out)) :
    Within base targets (loop body) :=
  within_newLabel fun _ htest => within_newLabel fun out hout => (within_bind htest).bind fun _ =>
    (h out hout).bind fun _ => (within_jump .goto (.inr htest)).bind fun _ => within_bind hout

/-- The condition of a loop goes to the label that leaves it. -/
theorem within_condition (e : Expr) {out : Label} (h : base ≤ out.number) :
    Within base targets (e.emitJump out false) :=
  within_code e (.jump out false) (List.forall_mem_singleton.mpr (.inr h))

mutual

theorem within_stmt (s : Stmt) : Within base targets s.code :=
  match s with
  | .declare _ _ names => by
    rw [Stmt.code]
    exact within_forM within_declarator names
  | .eval e => by
    rw [Stmt.code]
    refine (within_value e).bind fun _ => (within_resolvedTy e).bind fun ty => ?_
    split
    · exact within_op .pop
    · exact within_pure ()
  | .print _ e => by
    rw [Stmt.code]
    exact (within_value e).bind fun _ => within_op .print
  | .block _ body => by
    rw [Stmt.code]
    exact within_stmts body
  | .doWhile _ body condition => by
    rw [Stmt.code]
    exact within_loop fun out hout => (within_stmt body).bind fun _ => within_condition condition hout
  | .forLoop _ names init condition update body => by
    rw [Stmt.code]
    have test {out : Label} (hout : base ≤ out.number) :
        Within base targets (condition.forM fun e => e.emitJump out false) := by
      cases condition with
      | none => exact within_pure ()
      | some e => exact within_condition e hout
    exact (within_forM within_declarator names).bind fun _ => (within_stmts init).bind fun _ =>
      within_loop fun out hout => (test hout).bind fun _ => (within_stmt body).bind fun _ =>
      within_stmts update

theorem within_stmts (ss : List Stmt) : Within base targets (Stmt.codeOfAll ss) :=
  match ss with
  | [] => by
    rw [Stmt.codeOfAll]
    exact within_pure ()
  | s :: ss => by
    rw [Stmt.codeOfAll]
    exact (within_stmt s).bind fun _ => within_stmts ss

end

end Emit

namespace Assembly

/-- From `a` to `a'` entries were added. What was there is unchanged, its labels included, and none of
these were bound. -/
structure Appends (a a' : Assembly) (added : List Entry) : Prop where
  entries : a'.entries.toList = a.entries.toList ++ added
  strings : a.strings.entries.toList <+: a'.strings.entries.toList
  labels : a.labels.toList <+: a'.labels.toList
  fresh : ∀ label, .label label ∈ added → a.labels.size ≤ label.number

/-- Each label that was created from `a` to `a'` is bound once in what was added, and every jump there
goes to one of them or to a target. -/
structure Closes (a a' : Assembly) (targets : List Label) (added : List Entry) : Prop where
  bound : ∀ n, a.labels.size ≤ n → n < a'.labels.size → added.count (.label ⟨n⟩) = 1
  jumps : ∀ branch label, .instruction (.jump branch label) ∈ added →
    label ∈ targets ∨ (a.labels.size ≤ label.number ∧ label.number < a'.labels.size)

variable {a a' : Assembly} {targets : List Label}

theorem Adds.appends (h : a.Adds a.labels.size targets a') (ha : a.Valid) :
    ∃ added, a.Appends a' added ∧ ∀ e ∈ added, e.Allowed a.labels.size targets := by
  obtain ⟨added, hentries, hallowed⟩ := h.entries
  obtain ⟨_, hextends⟩ := h.calls.keeps ha
  refine ⟨added, ⟨hentries, hextends.strings, ?_, fun label hl => hallowed _ hl⟩, hallowed⟩
  rw [List.prefix_iff_getElem?]
  intro n hn
  rw [Array.length_toList] at hn
  rw [Array.getElem?_toList, h.labels n hn, Array.getElem?_eq_getElem hn, Array.getElem_toList]

/-- A label that was created is bound among the entries that were added, and only there. -/
theorem Adds.count_eq {added : List Entry} (h : a.Adds a.labels.size targets a')
    (calls : Calls .empty a) (appends : a.Appends a' added)
    (bound : ∀ n : Nat, a'.labels[n]? = some none ↔ a.labels[n]? = some none) {n : Nat}
    (hn : a.labels.size ≤ n) (hn' : n < a'.labels.size) : added.count (.label ⟨n⟩) = 1 := by
  have hold : a.labels[n]? = none := Array.getElem?_eq_none hn
  have hbefore : a.entries.toList.count (.label ⟨n⟩) = 0 := by
    rw [calls.bindsOnce n, hold, if_neg (by simp)]
  have hnot : a'.labels[n]? ≠ some none := by
    simp [bound, hold]
  have hafter : a'.entries.toList.count (.label ⟨n⟩) = 1 := by
    have hcalls : Calls .empty a' := calls.trans h.calls
    rw [hcalls.bindsOnce n, if_pos]
    rw [Array.getElem?_eq_getElem hn'] at hnot ⊢
    cases hx : a'.labels[n] with
    | none => exact absurd (congrArg some hx) hnot
    | some x => rfl
  rw [appends.entries, List.count_append, hbefore] at hafter
  omega

end Assembly

namespace Emit

/-- After whatever calls, an action only appends; and where it comes to a result, it binds its own
labels and goes only to these or to the targets. -/
def Disciplined (targets : List Label) (x : Emit Unit) : Prop :=
  ∀ a, Assembly.Calls .empty a → (∀ l ∈ targets, l.number < a.labels.size) →
    ∃ added, a.Appends (x a).2 added ∧ ((x a).1 = .ok () → a.Closes (x a).2 targets added)

theorem Within.disciplined {missing : Prop} {targets : List Label} {x : Emit Unit}
    (h : ∀ base, Within base targets x) (tidy : Tidy missing targets x) :
    Disciplined targets x := by
  intro a calls known
  have hadds := h a.labels.size a (Nat.le_refl _)
  obtain ⟨added, appends, hallowed⟩ := hadds.appends calls.valid
  refine ⟨added, appends, fun hok => ⟨?_, ?_⟩⟩
  · have hends := tidy a known
    rcases hx : x a with ⟨result, a'⟩
    rw [hx] at hok hadds appends
    subst hok
    simp only [Ends, hx] at hends
    have hbound (n : Nat) : a'.labels[n]? = some none ↔ a.labels[n]? = some none := by
      simpa using hends.unbound n
    exact fun n hn hn' => hadds.count_eq calls appends hbound hn hn'
  · intro branch label hj
    have hvalid := (hadds.calls.keeps calls.valid).1
    have hlt := hvalid.jumps branch label (by simp [appends.entries, hj])
    exact (hallowed _ hj).imp_right fun hle => ⟨hle, hlt⟩

end Emit

/-- The labels of a tree are its own affair, whether or not the tree was checked: its code only appends,
as a value, as a condition and as a statement, and where it is made without error it binds its own
labels once and jumps nowhere else. So code for a program never fails for a label. -/
theorem Program.generate_disciplined :
    (∀ e : Expr, Emit.Disciplined [] e.emitValue) ∧
    (∀ (e : Expr) (target : Label) (onTrue : Bool),
      Emit.Disciplined [target] (e.emitJump target onTrue)) ∧
    (∀ s : Stmt, Emit.Disciplined [] s.code) ∧
    ∀ (program : Program) (maxLocals : Nat) (label : Label),
      program.generate maxLocals ≠ .error (.assembly (.labelRebound label)) ∧
      program.generate maxLocals ≠ .error (.assembly (.unboundLabel label)) ∧
      program.generate maxLocals ≠ .error (.assembly (.unknownLabel label)) := by
  refine ⟨fun e => ?_, fun e target onTrue => ?_, fun s => ?_, fun program maxLocals label => ?_⟩
  · exact Emit.Within.disciplined (fun _ => Emit.within_value e) (Emit.tidy_code e .value)
  · have tidy : Emit.Tidy (¬ e.Resolved) [target] (e.emitJump target onTrue) :=
      Emit.tidy_code e (.jump target onTrue)
    exact Emit.Within.disciplined
      (fun _ => Emit.within_code e (.jump target onTrue) fun _ hl => .inl hl) tidy
  · exact Emit.Within.disciplined (fun _ => Emit.within_stmt s) (Emit.tidy_stmt s)
  · have sized {error : AssemblyError} (h : program.generate maxLocals = .error (.assembly error)) :
        error.OfSize := by
      cases Program.generate_error h with
      | size large => exact large
    refine ⟨?_, ?_, ?_⟩ <;>
    · intro h
      cases sized h

/-- A conjunction passes its right side over by a label of its own, and goes to the target. -/
theorem Program.generate_disciplined_and : ∃ a added, Assembly.Calls .empty a ∧
    a.Appends ((Expr.binary ⟨1, some .boolean⟩ (.logic .and) (.var ⟨1, some .boolean⟩ "b" (some 0))
      (.var ⟨1, some .boolean⟩ "c" (some 1))).emitJump ⟨0⟩ true a).2 added ∧
    a.Closes ((Expr.binary ⟨1, some .boolean⟩ (.logic .and) (.var ⟨1, some .boolean⟩ "b" (some 0))
      (.var ⟨1, some .boolean⟩ "c" (some 1))).emitJump ⟨0⟩ true a).2 [⟨0⟩] added ∧
    added.map Entry.text = ["\tiload 0", "\tifeq .L1", "\tiload 1", "\tifne .L0", ".L1:"] := by
  obtain ⟨added, appends, closes⟩ := Program.generate_disciplined.2.1
    (.binary ⟨1, some .boolean⟩ (.logic .and) (.var ⟨1, some .boolean⟩ "b" (some 0))
      (.var ⟨1, some .boolean⟩ "c" (some 1))) ⟨0⟩ true Assembly.empty.newLabel.2
    (.single .newLabel) (List.forall_mem_singleton.mpr (by decide))
  refine ⟨_, added, .single .newLabel, appends, closes rfl, ?_⟩
  have hadded := appends.entries
  rw [show Assembly.empty.newLabel.2.entries.toList = [] from rfl, List.nil_append] at hadded
  rw [← hadded]
  rfl

end BlockLang
