import BlockLang.Proofs.Layout.Expr
import BlockLang.Stmt.Code

namespace BlockLang

variable {A : Assembly} {b : Bytecode} {P : Nat → Prop}

/-- A declared name with an initial value stores it; one without needs no code. -/
def Declarator.Laid (b : Bytecode) (d : Declarator) (x y : Nat) : Prop :=
  match d.init with
  | none => x = y
  | some e => ∃ kind slot u, d.ty.kind? = some kind ∧ d.slot = some slot ∧ e.Laid b .value x u ∧
    b.At u (.access (.store kind) slot) y

def Declarator.LaidAll (b : Bytecode) : List Declarator → Nat → Nat → Prop
  | [], x, y => x = y
  | d :: ds, x, y => ∃ u, d.Laid b x u ∧ LaidAll b ds u y

namespace Stmt

mutual

/-- The code of a statement stands between two addresses. `P` holds at the start of every statement
in it, and at the head of every loop. -/
def Laid (b : Bytecode) (P : Nat → Prop) : Stmt → Nat → Nat → Prop
  | declare _ _ names, x, y => P x ∧ Declarator.LaidAll b names x y
  | eval e, x, y => P x ∧ ∃ ty u, e.ty? = some ty ∧ e.Laid b .value x u ∧ ty.Dropped b u y
  | print _ e, x, y => P x ∧ ∃ u, e.Laid b .value x u ∧ b.At u (.plain .print) y
  | block _ body, x, y => P x ∧ LaidAll b P body x y
  | doWhile _ body condition, x, y =>
    P x ∧ ∃ u v, Laid b P body x u ∧ condition.Laid b (.jump y false) u v ∧
      b.At v (.jump .goto x) y
  | forLoop _ names init condition update body, x, y =>
    P x ∧ ∃ u head v w z, Declarator.LaidAll b names x u ∧ LaidAll b P init u head ∧ P head ∧
      (match condition with
        | none => head = v
        | some e => e.Laid b (.jump y false) head v) ∧
      Laid b P body v w ∧ LaidAll b P update w z ∧ b.At z (.jump .goto head) y

def LaidAll (b : Bytecode) (P : Nat → Prop) : List Stmt → Nat → Nat → Prop
  | [], x, y => x = y
  | s :: ss, x, y => ∃ u, Laid b P s x u ∧ LaidAll b P ss u y

end

end Stmt

namespace Emit

theorem lays_forM {α : Type} {f : α → Emit Unit} {P : α → Nat → Nat → Prop}
    {Q : List α → Nat → Nat → Prop} (h : ∀ v, Lays A b (f v) fun _ s t => P v s t)
    (hn : ∀ s, Q [] s s) (hc : ∀ v vs s u t, P v s u → Q vs u t → Q (v :: vs) s t) (vs : List α) :
    Lays A b (vs.forM f) fun _ s t => Q vs s t := by
  induction vs with
  | nil => exact (lays_pure ()).mono (by rintro _ s t ⟨_, rfl⟩; exact hn s)
  | cons v vs ih =>
    refine ((h v).bind fun _ => ih).mono ?_
    intro _ s t hlaid
    obtain ⟨_, u, hv, hvs⟩ := hlaid
    exact hc v vs s u t hv hvs

theorem lays_declarator (d : Declarator) : Lays A b d.code fun _ s t => d.Laid b s t := by
  unfold Declarator.code Declarator.Laid
  cases d.init with
  | none => exact (lays_pure ()).mono fun _ _ _ h => h.2
  | some e =>
    dsimp only
    split
    · rename_i kind slot hk hs
      refine ((lays_code e .value).bind fun _ => lays_access (.store kind) slot).mono ?_
      intro _ s t hlaid
      obtain ⟨_, u, value, stores⟩ := hlaid
      exact ⟨kind, slot, u, hk, hs, value, stores⟩
    · exact (lays_unresolved d.line).mono (by simp)

theorem lays_declarators (ds : List Declarator) :
    Lays A b (ds.forM Declarator.code) fun _ s t => Declarator.LaidAll b ds s t :=
  lays_forM lays_declarator (fun _ => rfl) (fun _ _ _ u _ hd hds => ⟨u, hd, hds⟩) ds

/-- The body of a loop stands between its head and a jump back, behind which the loop is left. -/
theorem lays_loop {body : Label → Emit Unit} {P : Nat → Nat → Nat → Prop}
    (h : ∀ out, Lays A b (body out) fun _ s t => P (A.place out) s t) :
    Lays A b (loop body) fun _ s t => ∃ u, P t s u ∧ b.At u (.jump .goto s) t := by
  refine (lays_newLabel.bind fun test => lays_newLabel.bind fun out => (lays_bind test).bind fun _ =>
    (h out).bind fun _ => (lays_jump .goto test).bind fun _ => lays_bind out).mono ?_
  intro _ s t hlaid
  obtain ⟨test, _, rfl, out, _, rfl, _, _, ⟨rfl, htest⟩, _, u, inner, _, _, back, rfl, hout⟩ :=
    hlaid
  rw [hout] at inner
  rw [htest] at back
  exact ⟨u, inner, back⟩

theorem lays_condition (condition : Option Expr) (out : Label) :
    Lays A b (condition.forM fun e => e.emitJump out false) fun _ s t =>
      match condition with
      | none => s = t
      | some e => e.Laid b (.jump (A.place out) false) s t := by
  cases condition with
  | none => exact (lays_pure ()).mono fun _ _ _ h => h.2
  | some e => exact lays_code e (.jump out false)

mutual

theorem lays_stmt (s : Stmt) : Lays A b s.code fun _ x y => s.Laid b (fun _ => True) x y :=
  match s with
  | .declare _ _ names => by
    rw [Stmt.code]
    exact (lays_declarators names).mono fun _ _ _ h => ⟨trivial, h⟩
  | .eval e => by
    rw [Stmt.code]
    refine ((lays_code e .value).bind fun _ => (lays_resolvedTy e).bind fun ty =>
      lays_drop ty).mono ?_
    intro _ x y hlaid
    obtain ⟨_, u, value, ty, _, ⟨hty, rfl⟩, drops⟩ := hlaid
    exact ⟨trivial, ty, u, hty, value, drops⟩
  | .print _ e => by
    rw [Stmt.code]
    refine ((lays_code e .value).bind fun _ => lays_op .print).mono ?_
    intro _ x y hlaid
    obtain ⟨_, u, value, prints⟩ := hlaid
    exact ⟨trivial, u, value, prints⟩
  | .block _ body => by
    rw [Stmt.code]
    exact (lays_stmts body).mono fun _ _ _ h => ⟨trivial, h⟩
  | .doWhile _ body condition => by
    rw [Stmt.code]
    refine (lays_loop (P := fun t x v => ∃ (_ : Unit) (u : Nat),
      body.Laid b (fun _ => True) x u ∧ condition.Laid b (.jump t false) u v) fun out =>
      (lays_stmt body).bind fun _ => lays_code condition (.jump out false)).mono ?_
    intro _ x y hlaid
    obtain ⟨v, ⟨_, u, inner, test⟩, back⟩ := hlaid
    exact ⟨trivial, u, v, inner, test, back⟩
  | .forLoop _ names init condition update body => by
    rw [Stmt.code]
    refine ((lays_declarators names).bind fun _ => (lays_stmts init).bind fun _ =>
      lays_loop (P := fun t head z => ∃ v w,
        (match condition with
          | none => head = v
          | some e => e.Laid b (.jump t false) head v) ∧
        body.Laid b (fun _ => True) v w ∧ Stmt.LaidAll b (fun _ => True) update w z) fun out =>
      ((lays_condition condition out).bind fun _ => (lays_stmt body).bind fun _ =>
        lays_stmts update).mono ?_).mono ?_
    · intro _ x y hlaid
      obtain ⟨_, v, test, _, w, inner, updates⟩ := hlaid
      exact ⟨v, w, test, inner, updates⟩
    intro _ x y hlaid
    obtain ⟨_, u, hnames, _, head, hinit, z, ⟨v, w, test, inner, updates⟩, back⟩ := hlaid
    exact ⟨trivial, u, head, v, w, z, hnames, hinit, trivial, test, inner, updates, back⟩

theorem lays_stmts (ss : List Stmt) :
    Lays A b (Stmt.codeOfAll ss) fun _ x y => Stmt.LaidAll b (fun _ => True) ss x y :=
  match ss with
  | [] => by
    rw [Stmt.codeOfAll]
    exact (lays_pure ()).mono fun _ _ _ h => h.2
  | s :: ss => by
    rw [Stmt.codeOfAll]
    refine ((lays_stmt s).bind fun _ => lays_stmts ss).mono ?_
    intro _ x y hlaid
    obtain ⟨_, u, first, rest⟩ := hlaid
    exact ⟨u, first, rest⟩

end

end Emit

/-- What is generated is finished code of a valid assembly, with room for the slots asked for. -/
theorem Program.generate_laid {program : Program} {maxLocals : Nat} (hm : maxLocals ≤ 65535)
    (h : program.generate maxLocals = .ok b) :
    ∃ a, Linked a b ∧ maxLocals ≤ a.maxLocals ∧
      ∃ y, Stmt.LaidAll b (fun _ => True) program 0 y ∧ b.At y (.plain .ret) b.code.size := by
  unfold Program.generate at h
  dsimp only at h
  have hrun : ∀ x : Emit Unit, x.run .empty = x .empty := fun _ => rfl
  rw [hrun, Emit.bind_apply, Emit.reserve, Emit.act] at h
  dsimp only at h
  rw [Emit.bind_apply] at h
  have hempty : (Assembly.empty.reserve maxLocals).Valid := Assembly.Valid.empty.reserve hm
  rcases hp : Stmt.codeOfAll program (Assembly.empty.reserve maxLocals) with ⟨_ | _, a⟩
  · rw [hp] at h
    cases h
  rw [hp] at h
  have hlaid := fun A => Emit.lays_stmts (A := A) (b := b) program _ hempty _ _ hp
  have hvalid : a.Valid := (hlaid a).1
  have hret : (a.push (.plain .ret)).Valid := hvalid.push nofun nofun nofun
  have hfinish : (a.push (.plain .ret)).finish = .ok b := by
    change (a.push (.plain .ret)).finish.mapError CodeError.assembly = .ok b at h
    cases hf : (a.push (.plain .ret)).finish with
    | error e =>
      rw [hf] at h
      cases h
    | ok b' =>
      rw [hf] at h
      cases h
      rfl
  have linked : Linked (a.push (.plain .ret)) b := by
    refine hret.linked hfinish ?_
    intro n x hx
    obtain ⟨before, after, he, rfl⟩ := hvalid.bound n x hx
    simp only [Assembly.push, hvalid.address, he, codeSize_append, Instruction.size]
    omega
  obtain ⟨_, hext, hlay⟩ := hlaid (a.push (.plain .ret))
  refine ⟨_, linked, ?_, a.address, ?_, ?_⟩
  · exact Nat.le_trans (Nat.le_max_right _ _) hext.maxLocals
  · exact hlay () rfl linked.toPlaced (hext.holds (a.extends_push _))
  · obtain ⟨_, _, _, _, hsize⟩ := linked.sweep
    rw [hsize]
    exact Emit.at_push linked.toPlaced hvalid ((a.extends_push _).holds (.refl _))

end BlockLang
