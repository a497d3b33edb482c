import BlockLang.Proofs.Emit
import BlockLang.Proofs.Relabeling.Typing
import BlockLang.Compilation

namespace BlockLang

def CodeError.relabel (line : Nat → Nat) : CodeError → CodeError
  | unresolved n => unresolved (line n)
  | assembly error => assembly error

namespace Emit

variable {α β : Type} (line : Nat → Nat)

/-- The same action with other lines in its errors. -/
def relabel (x : Emit α) : Emit α :=
  fun a => ((x a).1.mapError (CodeError.relabel line), (x a).2)

variable {line}

@[simp]
theorem relabel_pure (v : α) : relabel line (pure v) = pure v := rfl

@[simp]
theorem relabel_bind (x : Emit α) (f : α → Emit β) :
    relabel line (x >>= f) = relabel line x >>= fun v => relabel line (f v) := by
  funext a
  simp only [relabel, bind_apply]
  rcases x a with ⟨error | v, a'⟩ <;> rfl

@[simp]
theorem relabel_unresolved (n : Nat) :
    relabel line (unresolved n : Emit α) = unresolved (line n) := rfl

/-- An action of the assembly has no line. -/
@[simp]
theorem relabel_act (action : Assembly → Except AssemblyError Unit × Assembly) :
    relabel line (act action) = act action := by
  funext a
  unfold relabel act
  rcases action a with ⟨error | v, a'⟩ <;> rfl

@[simp]
theorem relabel_push (i : Instruction Label) : relabel line (push i) = push i :=
  relabel_act _

@[simp]
theorem relabel_op (o : Opcode) : relabel line (op o) = op o :=
  relabel_act _

@[simp]
theorem relabel_access (o : LocalOp) (slot : UInt16) : relabel line (access o slot) = access o slot :=
  relabel_act _

@[simp]
theorem relabel_pushString (text : String) : relabel line (pushString text) = pushString text :=
  relabel_act _

@[simp]
theorem relabel_jump (branch : Branch) (label : Label) :
    relabel line (jump branch label) = jump branch label :=
  relabel_act _

@[simp]
theorem relabel_bindLabel (label : Label) : relabel line (Emit.bind label) = Emit.bind label :=
  relabel_act _

@[simp]
theorem relabel_reserve (count : Nat) : relabel line (reserve count) = reserve count :=
  relabel_act _

@[simp]
theorem relabel_newLabel : relabel line newLabel = newLabel := rfl

@[simp]
theorem relabel_ite (p : Prop) [Decidable p] (x y : Emit α) :
    relabel line (if p then x else y) = if p then relabel line x else relabel line y := by
  split <;> rfl

end Emit

namespace Expr

variable {line : Nat → Nat} {r : Relabeling}

theorem resolvedTy_relabel (e : Expr) :
    (e.relabel r).resolvedTy = Emit.relabel r.line e.resolvedTy := by
  unfold resolvedTy
  rw [e.ty?_relabel, e.line_relabel]
  split <;> rfl

theorem slotAccess_relabel (e : Expr) (op : Kind → LocalOp) :
    (e.relabel r).slotAccess op = Emit.relabel r.line (e.slotAccess op) := by
  unfold slotAccess
  rw [Emit.relabel_bind, e.resolvedTy_relabel]
  refine congrArg _ (funext fun ty => ?_)
  rw [e.slot?_relabel, e.line_relabel]
  split <;> rfl

@[simp]
theorem relabel_convert (source target : Ty) :
    Emit.relabel line (convert source target) = convert source target := by
  unfold convert
  split <;> rfl

@[simp]
theorem relabel_pushLiteral (value : Literal) :
    Emit.relabel line (pushLiteral value) = pushLiteral value := by
  cases value <;> simp [pushLiteral]

@[simp]
theorem relabel_deliver (want : Want) : Emit.relabel line (deliver want) = deliver want := by
  cases want with
  | value => rfl
  | jump target onTrue => exact Emit.relabel_jump _ target

@[simp]
theorem relabel_jumpOnRelation (relation : Relation) (ty : Ty) (target : Label) (onTrue : Bool) :
    Emit.relabel line (jumpOnRelation relation ty target onTrue) =
      jumpOnRelation relation ty target onTrue := by
  simp [jumpOnRelation]

theorem relabel_deliverCondition (condition : Label → Bool → Emit Unit) (want : Want) :
    Emit.relabel line (deliverCondition condition want) =
      deliverCondition (fun target onTrue => Emit.relabel line (condition target onTrue)) want := by
  cases want with
  | value => simp [deliverCondition]
  | jump target onTrue => rfl

theorem relabel_both (op : LogicOp) (lhs rhs : Label → Bool → Emit Unit) (target : Label)
    (onTrue : Bool) :
    Emit.relabel line (both op lhs rhs target onTrue) =
      both op (fun target onTrue => Emit.relabel line (lhs target onTrue))
        (fun target onTrue => Emit.relabel line (rhs target onTrue)) target onTrue := by
  simp [both]

/-- The code of a relabelled expression is that of the expression. -/
theorem code_relabel (e : Expr) (want : Want) :
    (e.relabel r).code want = Emit.relabel r.line (e.code want) := by
  have hty (e : Expr) := e.resolvedTy_relabel (r := r)
  induction e generalizing want with
  | literal mark value =>
    have hnode := hty (literal mark value)
    rw [Expr.relabel] at hnode ⊢
    unfold code
    cases value with
    | boolean value => cases want <;> simp [hnode]
    | int value | double value | string value => simp [hnode]
  | var mark name slot =>
    have hnode := hty (var mark name slot)
    have haccess := (var mark name slot).slotAccess_relabel (r := r) .load
    rw [Expr.relabel] at hnode haccess ⊢
    unfold code
    simp [hnode, haccess]
  | unary mark op e ih =>
    have hnode := hty (unary mark op e)
    rw [Expr.relabel] at hnode ⊢
    unfold code
    cases op with
    | negate => simp [hnode, ih]
    | not => simp [hnode, ih, relabel_deliverCondition]
  | binary mark op lhs rhs ihl ihr =>
    have hnode := hty (binary mark op lhs rhs)
    rw [Expr.relabel] at hnode ⊢
    unfold code
    cases op with
    | arith op | bit op => simp [hnode, hty, ihl, ihr]
    | logic op => simp [hnode, ihl, ihr, relabel_deliverCondition, relabel_both]
    | compare relation => simp [hnode, hty, ihl, ihr, relabel_deliverCondition]
    | assign => simp [hnode, ihr, slotAccess_relabel]
  | concat mark lhs rhs ihl ihr =>
    have hnode := hty (concat mark lhs rhs)
    rw [Expr.relabel] at hnode ⊢
    unfold code
    simp [hnode, ihl, ihr]
  | ternary mark c t f ihc iht ihf =>
    have hnode := hty (ternary mark c t f)
    rw [Expr.relabel] at hnode ⊢
    unfold code
    simp [hnode, hty, ihc, iht, ihf]
  | guarded mark c t ihc iht =>
    have hnode := hty (guarded mark c t)
    rw [Expr.relabel] at hnode ⊢
    unfold code
    simp [hnode, hty, ihc, iht]

end Expr

section Statements

variable {r : Relabeling}

theorem Declarator.code_relabel (d : Declarator) :
    (d.relabel r).code = Emit.relabel r.line d.code := by
  obtain ⟨line, name, ty, init, slot⟩ := d
  cases init with
  | none => rfl
  | some init =>
    simp only [Declarator.relabel, Declarator.code, Option.map_some, Expr.emitValue,
      Expr.code_relabel]
    split
    · simp
    · rfl

theorem Declarator.forM_code_relabel (ds : List Declarator) :
    (ds.map (Declarator.relabel r)).forM Declarator.code =
      Emit.relabel r.line (ds.forM Declarator.code) := by
  induction ds with
  | nil => rfl
  | cons d ds ih =>
    change ((d.relabel r).code >>= fun _ => (ds.map (Declarator.relabel r)).forM Declarator.code) =
      Emit.relabel r.line (d.code >>= fun _ => ds.forM Declarator.code)
    rw [Emit.relabel_bind, d.code_relabel, ih]

theorem Emit.relabel_loop {line : Nat → Nat} (body : Label → Emit Unit) :
    relabel line (loop body) = loop fun out => relabel line (body out) := by
  simp [loop]

theorem Expr.forM_emitJump_relabel (o : Option Expr) (out : Label) :
    ((o.map (Expr.relabel r)).forM fun e => e.emitJump out false) =
      Emit.relabel r.line (o.forM fun e => e.emitJump out false) := by
  cases o with
  | none => rfl
  | some e => exact e.code_relabel _

namespace Stmt

mutual

theorem code_relabel (s : Stmt) : (s.relabel r).code = Emit.relabel r.line s.code :=
  match s with
  | .declare line ty names => by
    rw [Stmt.relabel, code, code]
    exact Declarator.forM_code_relabel names
  | .eval e => by
    simp [Stmt.relabel, code, Expr.emitValue, Expr.code_relabel, Expr.resolvedTy_relabel]
  | .print line e => by
    simp [Stmt.relabel, code, Expr.emitValue, Expr.code_relabel]
  | .block line body => by
    rw [Stmt.relabel, code, code]
    exact codeOfAll_relabel body
  | .doWhile line body condition => by
    simp [Stmt.relabel, code, Emit.relabel_loop, Expr.emitJump, code_relabel body,
      Expr.code_relabel]
  | .forLoop line names init condition update body => by
    simp [Stmt.relabel, code, Emit.relabel_loop, Declarator.forM_code_relabel,
      codeOfAll_relabel init, codeOfAll_relabel update, Expr.forM_emitJump_relabel,
      code_relabel body]

theorem codeOfAll_relabel (ss : List Stmt) :
    codeOfAll (relabelAll r ss) = Emit.relabel r.line (codeOfAll ss) :=
  match ss with
  | [] => by
    rw [relabelAll, codeOfAll]
    rfl
  | s :: ss => by
    simp [relabelAll, codeOfAll, code_relabel s, codeOfAll_relabel ss]

end

end Stmt

end Statements

/-- A relabelled program compiles as the program did, byte for byte, or fails where it did. -/
theorem Program.generate_relabel (r : Relabeling) (program : Program) (maxLocals : Nat) :
    Program.generate (Stmt.relabelAll r program) maxLocals =
      (program.generate maxLocals).mapError (CodeError.relabel r.line) := by
  have hemit : (do
      Emit.reserve maxLocals
      Stmt.codeOfAll (Stmt.relabelAll r program)
      Emit.op .ret) = Emit.relabel r.line (do
        Emit.reserve maxLocals
        Stmt.codeOfAll program
        Emit.op .ret) := by
    simp [Stmt.codeOfAll_relabel]
  unfold Program.generate
  dsimp only [ExceptT.run]
  rw [hemit, Emit.relabel]
  rcases (do
    Emit.reserve maxLocals
    Stmt.codeOfAll program
    Emit.op .ret : Emit Unit) .empty with ⟨error | _, a⟩
  · rfl
  · change a.finish.mapError CodeError.assembly = (a.finish.mapError CodeError.assembly).mapError _
    cases a.finish <;> rfl

def CompileError.relabel (r : Relabeling) : CompileError → CompileError
  | parse error => parse error
  | semantic ds => semantic (ds.map (Diagnostic.relabel r))
  | code error => code (error.relabel r.line)

/-- A relabelled program compiles exactly if the program did, and to the same bytecode. -/
theorem Checked.compile_relabel (r : Relabeling) (checked : Checked) :
    (checked.relabel r).compile = checked.compile.mapError (CompileError.relabel r) := by
  have hgenerate : (checked.relabel r).generate =
      checked.generate.mapError (CodeError.relabel r.line) :=
    Program.generate_relabel r checked.program checked.maxLocals
  unfold Checked.compile
  rw [hgenerate]
  obtain ⟨program, maxLocals, diagnostics⟩ := checked
  cases diagnostics with
  | nil =>
    change (((Checked.generate _).mapError _).mapError _) = ((Checked.generate _).mapError _).mapError _
    cases Checked.generate ⟨program, maxLocals, []⟩ <;> rfl
  | cons d ds => rfl

end BlockLang
