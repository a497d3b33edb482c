import BlockLang.Proofs.Compilation
import BlockLang.Proofs.Generation.Expr
import BlockLang.Proofs.Resolution

namespace BlockLang

/-- A declared name has a slot and a type with values. -/
structure Declarator.Resolved (d : Declarator) : Prop where
  kind : d.ty.kind? ≠ none
  slot : d.slot ≠ none
  init : ∀ e, d.init = some e → e.Resolved

mutual

/-- Every expression and every declared name is resolved. -/
def Stmt.Resolved : Stmt → Prop
  | .declare _ _ names => ∀ d ∈ names, d.Resolved
  | .eval e | .print _ e => e.Resolved
  | .block _ body => AllResolved body
  | .doWhile _ body condition => body.Resolved ∧ condition.Resolved
  | .forLoop _ names init condition update body =>
    (∀ d ∈ names, d.Resolved) ∧ AllResolved init ∧ (∀ e, condition = some e → e.Resolved) ∧
      AllResolved update ∧ body.Resolved

def Stmt.AllResolved : List Stmt → Prop
  | [] => True
  | s :: ss => s.Resolved ∧ AllResolved ss

end

namespace Emit

variable {missing : Prop} {targets : List Label}

theorem tidy_declarator (d : Declarator) : Tidy (¬ d.Resolved) targets d.code := by
  unfold Declarator.code
  split
  · exact tidy_pure ()
  · rename_i e he
    split
    · have value := (tidy_code e .value).mono (mt fun h : d.Resolved => h.init e he)
      exact value.inside.bind fun _ => tidy_access _ _
    · rename_i hno
      refine tidy_unresolved d.line fun h => ?_
      obtain ⟨kind, hkind⟩ := Option.ne_none_iff_exists'.mp h.kind
      obtain ⟨slot, hslot⟩ := Option.ne_none_iff_exists'.mp h.slot
      exact hno kind slot hkind hslot

theorem tidy_declarators (ds : List Declarator) :
    Tidy (¬ ∀ d ∈ ds, d.Resolved) targets (ds.forM Declarator.code) := by
  induction ds with
  | nil => exact tidy_pure ()
  | cons d ds ih =>
    refine Tidy.bind ((tidy_declarator d).mono (mt ?_)) fun _ => ih.mono (mt ?_)
    · exact fun h => h d List.mem_cons_self
    · exact fun h d' hd => h d' (List.mem_cons_of_mem d hd)

theorem tidy_loop {body : Label → Emit Unit} (h : ∀ out, Tidy missing [out] (body out)) :
    Tidy missing targets (loop body) := by
  intro a _
  refine (ends_newLabel (.refl a)).bind fun test _ ⟨_, hm⟩ => ?_
  refine (ends_newLabel hm).bind fun out _ ⟨hnew, hm⟩ => ?_
  refine (ends_bind_known hm.swap (by simpa [eq_comm] using hnew)).bind fun _ m ⟨hm, htest⟩ => ?_
  -- From here on the label to go back to is among those that exist.
  have hout : out.number < m.labels.size := hm.lt List.mem_cons_self
  refine ((h out).ends (.refl m) (by simpa using hout)).bind fun _ _ hm' => ?_
  have back : Tidy missing [test] (jump .goto test) := tidy_jump .goto List.mem_cons_self
  refine (back.ends hm' (by simpa using htest)).bind fun _ _ hm' => ?_
  exact ends_bind (hm.trans hm') (by simp)

theorem tidy_condition (condition : Option Expr) (out : Label) :
    Tidy (¬ ∀ e, condition = some e → e.Resolved) [out]
      (condition.forM fun e => e.emitJump out false) := by
  cases condition with
  | none => exact tidy_pure ()
  | some e => exact (tidy_code e (.jump out false)).mono (mt fun h => h e rfl)

mutual

theorem tidy_stmt (s : Stmt) : Tidy (¬ s.Resolved) [] s.code :=
  match s with
  | .declare _ _ names => by
    rw [Stmt.code]
    exact tidy_declarators names
  | .eval e => by
    rw [Stmt.code]
    refine (tidy_code e .value).inside.bind fun _ =>
      tidy_typed (mt Expr.Resolved.mark) fun ty _ => ?_
    split
    · exact tidy_op .pop
    · exact tidy_pure ()
  | .print _ e => by
    rw [Stmt.code]
    exact (tidy_code e .value).inside.bind fun _ => tidy_op .print
  | .block _ body => by
    rw [Stmt.code]
    exact tidy_stmts body
  | .doWhile line body condition => by
    rw [Stmt.code]
    have inner := (tidy_stmt body).mono
      (mt fun h : (Stmt.doWhile line body condition).Resolved => h.1)
    exact tidy_loop fun out => inner.inside.bind fun _ =>
      (tidy_code condition (.jump out false)).mono (mt And.right)
  | .forLoop line names init condition update body => by
    rw [Stmt.code]
    have whole {p : Prop} {labels : List Label} {x : Emit Unit} (h : Tidy (¬ p) labels x)
        (hp : (Stmt.forLoop line names init condition update body).Resolved → p) :=
      h.mono (mt hp)
    exact (whole (tidy_declarators names) fun h => h.1).bind fun _ =>
      (whole (tidy_stmts init) fun h => h.2.1).bind fun _ => tidy_loop fun out =>
      (whole (tidy_condition condition out) fun h => h.2.2.1).bind fun _ =>
      (whole (tidy_stmt body) fun h => h.2.2.2.2).inside.bind fun _ =>
      (whole (tidy_stmts update) fun h => h.2.2.2.1).inside

theorem tidy_stmts (ss : List Stmt) : Tidy (¬ Stmt.AllResolved ss) [] (Stmt.codeOfAll ss) :=
  match ss with
  | [] => by
    rw [Stmt.codeOfAll]
    exact tidy_pure ()
  | s :: ss => by
    rw [Stmt.codeOfAll]
    exact ((tidy_stmt s).mono (mt And.left)).bind fun _ => (tidy_stmts ss).mono (mt And.right)

end

end Emit

/-- Where every label is bound, code is finished unless it is too large. -/
theorem Assembly.finish_error {a : Assembly} {error : AssemblyError}
    (hbound : ∀ n : Nat, a.labels[n]? ≠ some none) (h : a.finish = .error error) :
    error.OfSize := by
  unfold finish at h
  split at h
  · rename_i n hn
    obtain ⟨hlt, hnone, _⟩ := Array.findIdx?_eq_some_iff_getElem.mp hn
    refine absurd ?_ (hbound n)
    rw [Array.getElem?_eq_getElem hlt]
    simpa using hnone
  · split at h
    · cases h
      exact .codeTooLarge _
    · rw [encode_eq] at h
      cases hl : locate (a.labels.map (·.getD 0)) 0 a.entries.toList with
      | ok found =>
        rw [List.size_toArray, List.length_nil, hl] at h
        cases h
      | error e =>
        rw [List.size_toArray, List.length_nil, hl] at h
        cases h
        obtain ⟨_, _, _, _, _, _, _, hoffset⟩ := locate_error hl
        rw [(offset_error hoffset).1]
        exact .branchTooFar _ _

/-- Whatever the program, an error says that it is too large or not resolved. -/
theorem Program.generate_error {program : Program} {maxLocals : Nat} {error : CodeError}
    (h : program.generate maxLocals = .error error) :
    error.Expected (¬ Stmt.AllResolved program) := by
  have htidy : Emit.Tidy (¬ Stmt.AllResolved program) [] (do
      Emit.reserve maxLocals
      Stmt.codeOfAll program
      Emit.op .ret) :=
    (Emit.tidy_reserve maxLocals).bind fun _ =>
      (Emit.tidy_stmts program).bind fun _ => Emit.tidy_op .ret
  have hends := htidy .empty (by simp)
  unfold Program.generate at h
  unfold Emit.Ends at hends
  dsimp only [ExceptT.run] at h
  split at hends
  · rename_i a hrun
    rw [hrun] at h
    have hbound (n : Nat) : a.labels[n]? ≠ some none := fun hn => by
      simpa [Assembly.empty] using (hends.unbound n).mp hn
    cases hf : a.finish with
    | ok b => simp [hf, Except.mapError] at h
    | error e =>
      simp only [hf, Except.mapError, Except.error.injEq] at h
      subst h
      exact .size (Assembly.finish_error hbound hf)
  · rename_i e a hrun
    rw [hrun] at h
    cases h
    exact hends

theorem Expr.Typed.resolved {names : String → Option Binding} {e : Expr} {ty : Ty}
    (h : e.Typed names ty) : e.Resolved := by
  have marked {e : Expr} {ty : Ty} (h : e.Typed names ty) : e.mark.Resolved :=
    ⟨ty, h.ty?_eq, h.ne_any⟩
  have hmark := marked h
  induction h with
  | literal => exact hmark
  | var _ kinded marked =>
    refine ⟨hmark, ?_, by simp⟩
    intro hvoid
    rw [Option.some.inj (marked.symm.trans hvoid)] at kinded
    cases kinded
  | negate inner _ _ ih | not inner _ ih => exact ⟨hmark, ih (marked inner)⟩
  | arith left right _ _ ihl ihr | bit left right _ ihl ihr | logic left right _ ihl ihr
  | compare left right _ _ ihl ihr =>
    exact ⟨hmark, nofun, ihl (marked left), ihr (marked right)⟩
  | assign target value _ iht ihv =>
    exact ⟨hmark, fun _ => rfl, iht (marked target), ihv (marked value)⟩
  | concat left right _ _ _ ihl ihr => exact ⟨hmark, ihl (marked left), ihr (marked right)⟩
  | ternary c t f _ _ ihc iht ihf =>
    exact ⟨hmark, ihc (marked c), iht (marked t), ihf (marked f)⟩
  | guarded c t _ ihc iht => exact ⟨hmark, ihc (marked c), iht (marked t)⟩

theorem Declarator.Fits.resolved {view : View} {d : Declarator} (h : d.Fits view) :
    d.Resolved := by
  obtain ⟨kind, hkind⟩ := h.kind
  obtain ⟨slot, hslot, _⟩ := h.slot
  exact ⟨by simp [hkind], by simp [hslot], fun e he => (h.init e he).resolved⟩

theorem Declarator.FitAll.resolved {view : View} {ds : List Declarator}
    (h : FitAll view ds) : ∀ d ∈ ds, d.Resolved := by
  induction ds generalizing view with
  | nil => simp
  | cons d ds ih =>
    intro d' hd
    rcases List.mem_cons.mp hd with rfl | hd
    · exact h.1.resolved
    · exact ih h.2 d' hd

mutual

theorem Stmt.Fits.resolved {view : View} {s : Stmt} (h : s.Fits view) : s.Resolved :=
  match s, h with
  | .declare _ _ _, h => Declarator.FitAll.resolved h
  | .eval _, ⟨_, h⟩ => h.resolved
  | .print _ _, ⟨_, h, _⟩ => h.resolved
  | .block _ _, h => Stmt.FitAll.resolved h
  | .doWhile _ _ _, ⟨hcondition, hbody⟩ => ⟨hbody.resolved, hcondition.resolved⟩
  | .forLoop _ _ _ _ _ _, ⟨hnames, hinit, hcondition, hbody, hupdate⟩ =>
    ⟨hnames.resolved, hinit.resolved, fun e he => (hcondition e he).resolved, hupdate.resolved,
      hbody.resolved⟩

theorem Stmt.FitAll.resolved {view : View} {ss : List Stmt} (h : Stmt.FitAll view ss) :
    Stmt.AllResolved ss :=
  match ss, h with
  | [], _ => trivial
  | _ :: _, ⟨first, rest⟩ => ⟨first.resolved, rest.resolved⟩

end

/-- Where parsing succeeds and no mistake is found, everything in the checked program is resolved, and
code is made unless it is too large. -/
theorem Source.generate_clean {source : Source} {typing : BranchTyping} {checked : Checked}
    (hc : source.check typing = .ok checked) (hd : checked.diagnostics = []) :
    Stmt.AllResolved checked.program ∧
      ((∃ b, checked.generate = .ok b) ∨
        ∃ error, checked.generate = .error (.assembly error) ∧ error.OfSize) := by
  obtain ⟨program, hp, rfl⟩ := check_ok hc
  obtain ⟨hfits, _⟩ := Program.check_fits (Program.untyped_of_parse hp) hd
  have hresolved := hfits.resolved
  refine ⟨hresolved, ?_⟩
  cases hg : (program.check typing).generate with
  | ok b => exact .inl ⟨b, rfl⟩
  | error error =>
    cases Program.generate_error hg with
    | size large => exact .inr ⟨_, rfl, large⟩
    | unresolved line missed => exact absurd hresolved missed

/-- A variable is counted up and joined to text. -/
theorem Source.generate_clean_counting :
    ∃ checked, (Source.ofString "int i = 1; i = i + 1; print(\"i = \" + i);").check .identical =
      .ok checked ∧ checked.diagnostics = [] ∧ Stmt.AllResolved checked.program := by
  have hrun : ((Source.ofString "int i = 1; i = i + 1; print(\"i = \" + i);").check
      .identical).map (fun checked => checked.diagnostics) = .ok [] := by
    decide +kernel
  obtain ⟨checked, hc, hclean⟩ := exists_of_map_ok hrun
  exact ⟨checked, hc, hclean, (Source.generate_clean hc hclean).1⟩

end BlockLang
