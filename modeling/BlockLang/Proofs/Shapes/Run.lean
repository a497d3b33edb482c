import BlockLang.Proofs.Compilation
import BlockLang.Proofs.Shapes.Stmt
import BlockLang.Proofs.Simulation.Stmt

namespace BlockLang

/-- The ways in which a run may fail although its stack is always as expected. -/
def Bytecode.Permits (b : Bytecode) : RunError → Prop
  | .uninitializedLocal _ | .divisionByZero _ | .stepLimit _ => True
  | .typeMismatch address _ _ =>
    ∃ kind slot, Instruction.decode b.code address = .ok (.access (.load kind) slot)
  | _ => False

namespace Machine

variable {b : Bytecode} {x y : Nat} {stack : Stack} {pre post : Shape} {s : State}

/-- What comes of a step: a state of which `Q` holds, the end, or a fault that is permitted. -/
def Goes (b : Bytecode) (Q : State → Prop) : Except RunError Outcome → Prop
  | .ok (.next s) => Q s
  | .ok (.returned _) => True
  | .error error => b.Permits error

/-- The shape of a stack. -/
def shape (stack : Stack) : Shape :=
  stack.map Value.kind

theorem shape_cons {k : Kind} {ks : Shape} (h : shape stack = k :: ks) :
    ∃ value rest, stack = value :: rest ∧ value.kind = k ∧ shape rest = ks :=
  List.map_eq_cons_iff.mp h

theorem shape_int {ks : Shape} (h : shape stack = .int :: ks) :
    ∃ n rest, stack = .int n :: rest ∧ shape rest = ks := by
  obtain ⟨value, rest, rfl, hv, hr⟩ := shape_cons h
  obtain ⟨n, rfl⟩ := Value.eq_int hv
  exact ⟨n, rest, rfl, hr⟩

theorem shape_double {ks : Shape} (h : shape stack = .double :: ks) :
    ∃ d rest, stack = .double d :: rest ∧ shape rest = ks := by
  obtain ⟨value, rest, rfl, hv, hr⟩ := shape_cons h
  obtain ⟨d, rfl⟩ := Value.eq_double hv
  exact ⟨d, rest, rfl, hr⟩

theorem shape_ints {ks : Shape} (h : shape stack = .int :: .int :: ks) :
    ∃ n m rest, stack = .int n :: .int m :: rest ∧ shape rest = ks := by
  obtain ⟨n, rest, rfl, hr⟩ := shape_int h
  obtain ⟨m, rest, rfl, hks⟩ := shape_int hr
  exact ⟨n, m, rest, rfl, hks⟩

theorem shape_doubles {ks : Shape} (h : shape stack = .double :: .double :: ks) :
    ∃ d e rest, stack = .double d :: .double e :: rest ∧ shape rest = ks := by
  obtain ⟨d, rest, rfl, hr⟩ := shape_double h
  obtain ⟨e, rest, rfl, hks⟩ := shape_double hr
  exact ⟨d, e, rest, rfl, hks⟩

/-- An instruction without operand has its effect, unless it divides by zero. -/
theorem applyOp_effect {op : Opcode} (he : (Instruction.plain op).Effect pre post)
    (hk : shape stack = pre) (hp : op ≠ .print) :
    (∃ stack', applyOp x stack op = .ok stack' ∧ shape stack' = post) ∨
      applyOp x stack op = .error (.divisionByZero x) := by
  cases he with
  | pop =>
    obtain ⟨value, rest, rfl, _, hr⟩ := shape_cons hk
    exact .inl ⟨rest, rfl, hr⟩
  | dup =>
    obtain ⟨value, rest, rfl, hv, hr⟩ := shape_cons hk
    exact .inl ⟨_, rfl, by rw [← hv, ← hr]; rfl⟩
  | @intArith op _ =>
    obtain ⟨n, m, rest, rfl, hr⟩ := shape_ints hk
    cases ho : op.onInts m n with
    | some value =>
      refine .inl ⟨.int value :: rest, ?_, by rw [← hr]; rfl⟩
      simp [applyOp, popInts, popInt, pop, ho, Bind.bind, Pure.pure, Except.bind, Except.pure]
    | none =>
      refine .inr ?_
      simp [applyOp, popInts, popInt, pop, ho, Bind.bind, Pure.pure, Except.bind, Except.pure,
        throw, throwThe, MonadExceptOf.throw]
  | doubleArith | compare =>
    obtain ⟨d, e, rest, rfl, hr⟩ := shape_doubles hk
    exact .inl ⟨_, rfl, by rw [← hr]; rfl⟩
  | intNegate | intToDouble =>
    obtain ⟨n, rest, rfl, hr⟩ := shape_int hk
    exact .inl ⟨_, rfl, by rw [← hr]; rfl⟩
  | doubleNegate | doubleToInt =>
    obtain ⟨d, rest, rfl, hr⟩ := shape_double hk
    exact .inl ⟨_, rfl, by rw [← hr]; rfl⟩
  | bit =>
    obtain ⟨n, m, rest, rfl, hr⟩ := shape_ints hk
    exact .inl ⟨_, rfl, by rw [← hr]; rfl⟩
  | concat =>
    obtain ⟨right, under, rfl, _, hu⟩ := shape_cons hk
    obtain ⟨left, rest, rfl, _, hr⟩ := shape_cons hu
    exact .inl ⟨_, rfl, by rw [← hr]; rfl⟩
  | print => exact absurd rfl hp
  | ret => exact .inl ⟨stack, rfl, hk⟩

/-- The test of a jump never fails. -/
theorem test_effect {branch : Branch} {target : Nat}
    (he : (Instruction.jump branch target).Effect pre post) (hk : shape stack = pre) :
    ∃ taken stack', test x stack branch = .ok (taken, stack') ∧ shape stack' = post ∧
      (branch = .goto → taken = true) := by
  cases he with
  | goto => exact ⟨true, stack, rfl, hk, fun _ => rfl⟩
  | zero =>
    obtain ⟨n, rest, rfl, hr⟩ := shape_int hk
    exact ⟨_, rest, rfl, hr, nofun⟩
  | ints =>
    obtain ⟨n, m, rest, rfl, hr⟩ := shape_ints hk
    exact ⟨_, rest, rfl, hr, nofun⟩

variable {locals : Array (Option Value)} {printed : Array String}

/-- A step at an instruction goes where the instruction leads, and leaves the shape that its effect
is; what fails is permitted. -/
theorem goes_step {i : Instruction Nat} (h : b.At x i y) (he : i.Effect pre post)
    (hk : shape stack = pre) (hl : locals.size = b.maxLocals.toNat) :
    Goes b (fun t => i.Leads y t.pc ∧ shape t.stack = post ∧ t.locals.size = b.maxLocals.toNat)
      (step b ⟨x, stack, locals, printed⟩) := by
  cases i with
  | plain op =>
    by_cases hprint : op = .print
    · subst hprint
      cases he with
      | print =>
        obtain ⟨value, rest, rfl, _, hr⟩ := shape_cons hk
        rw [h.step_print]
        exact ⟨rfl, hr, hl⟩
    by_cases hret : op = .ret
    · subst hret
      rw [h.step_ret]
      trivial
    rw [h.step_plain hprint hret]
    rcases applyOp_effect he hk hprint with ⟨stack', hop, hpost⟩ | hop
    · rw [hop]
      refine ⟨?_, hpost, hl⟩
      cases op <;> first | exact absurd rfl hret | rfl
    · rw [hop]
      trivial
  | jump branch target =>
    obtain ⟨taken, stack', htest, hpost, hgoto⟩ := test_effect he hk
    rw [h.step_jump htest]
    refine ⟨?_, hpost, hl⟩
    cases branch with
    | goto => simp [hgoto rfl, Instruction.Leads]
    | zero relation | ints relation => cases taken <;> simp [Instruction.Leads]
  | access op slot =>
    cases he with
    | load room =>
      have hlt : slot.toNat < locals.size := hl ▸ h.slot_lt room
      rw [h.step_load]
      simp only [load]
      split
      · rename_i hnone
        simp [hlt] at hnone
      · trivial
      · split
        · rename_i value _ hkind
          exact ⟨rfl, by rw [← hk, ← hkind]; rfl, hl⟩
        · obtain ⟨j, hm, haims⟩ := h.found
          cases haims
          exact ⟨_, _, (Sweep.decode_of_mem hm).2⟩
    | store room =>
      have hlt : slot.toNat < locals.size := hl ▸ h.slot_lt room
      obtain ⟨value, rest, rfl, hv, hr⟩ := shape_cons hk
      rw [h.step_store]
      simp only [store, hv, ne_eq, not_true_eq_false, if_false, if_pos hlt]
      exact ⟨rfl, hr, by simpa using hl⟩
  | pushInt value =>
    cases he
    rw [h.step_pushInt]
    exact ⟨rfl, by rw [← hk]; rfl, hl⟩
  | pushDouble value =>
    cases he
    rw [h.step_pushDouble]
    exact ⟨rfl, by rw [← hk]; rfl, hl⟩
  | pushString index =>
    cases he
    obtain ⟨j, _, haims⟩ := h.found
    cases haims with
    | pushString known =>
      rw [h.step_pushString (Array.getElem?_eq_getElem known)]
      exact ⟨rfl, by rw [← hk]; rfl, hl⟩

end Machine

/-- The shapes begin with an empty stack and allow for every instruction of the code, the last of
which is a return. -/
structure Bytecode.Shaped (b : Bytecode) (M : Shapes) : Prop where
  start : M.Bare 0
  allows : ∀ x i y, b.At x i y → M.Allow x i y
  returns : ∃ x, b.At x (.plain .ret) b.code.size

namespace Machine

variable {a : Assembly} {b : Bytecode} {M : Shapes} {s t : State}

/-- The machine stands at an instruction, and its stack has the shape that is given there. -/
structure State.Keeps (b : Bytecode) (M : Shapes) (s : State) : Prop where
  pc : s.pc ∈ (Sweep.ofCode b.code).addresses
  stack : shape s.stack = M s.pc
  locals : s.locals.size = b.maxLocals.toNat

theorem keeps_start (hb : Linked a b) (hm : b.Shaped M) : (start b).Keeps b M := by
  obtain ⟨x, hret⟩ := hm.returns
  have hpos : 0 < b.code.size := Nat.zero_lt_of_lt hret.lt_size
  exact ⟨hb.zero_mem hpos, hm.start.symm, by simp [start]⟩

/-- A step keeps to the shapes, or it fails in a way that is permitted. -/
theorem State.Keeps.step (hb : Linked a b) (hm : b.Shaped M) (h : s.Keeps b M) :
    Goes b (State.Keeps b M) (Machine.step b s) := by
  obtain ⟨i, hat⟩ := hb.at_address h.pc
  obtain ⟨x, hret⟩ := hm.returns
  obtain ⟨post, heffect, hleads⟩ := hm.allows _ _ _ hat
  have hgoes : Goes b _ (Machine.step b s) := goes_step hat heffect h.stack h.locals
  cases hs : Machine.step b s with
  | error error =>
    rw [hs] at hgoes
    exact hgoes
  | ok outcome =>
    cases outcome with
    | returned printed => trivial
    | next t =>
      rw [hs] at hgoes
      obtain ⟨hl, hpost, hlocals⟩ := hgoes
      exact ⟨hb.leads_mem hret hat hl, hpost.trans (hleads _ hl).symm, hlocals⟩

/-- So do any number of steps. -/
theorem State.Keeps.steps (hb : Linked a b) (hm : b.Shaped M) {n : Nat} (h : s.Keeps b M)
    (hs : Steps b n s t) : t.Keeps b M := by
  refine hs.keeps (fun u v hu hstep => ?_) h
  have hgoes := hu.step hb hm
  rw [hstep] at hgoes
  exact hgoes

/-- A run that keeps to the shapes fails only in ways that are permitted. -/
theorem State.Keeps.permits (hb : Linked a b) (hm : b.Shaped M) (h : s.Keeps b M)
    {limit steps : Nat} {error : RunError} (hr : runFrom b limit steps s = .error error) :
    b.Permits error := by
  rcases runFrom_error hr with rfl | ⟨n, u, hs, he⟩
  · trivial
  · have hgoes := (h.steps hb hm hs).step hb hm
    rw [he] at hgoes
    exact hgoes

end Machine

open Machine

/-- The code of a well typed program has shapes, with nothing on the stack between statements. -/
theorem Program.Compiled.shaped {program : Program} {b : Bytecode} (h : program.Compiled b) :
    ∃ M, b.Shaped M ∧ ∃ x, Stmt.LaidAll b M.Bare program 0 x ∧
      b.At x (.plain .ret) b.code.size ∧ M.Bare x := by
  obtain ⟨a, hb⟩ := h.linked
  obtain ⟨x, hlaid, hret⟩ := h.laid
  have body := Stmt.LaidAll.flows hb hlaid .empty h.fits
  have last : Flows b x b.code.size [] [] (fun _ => True) fun M => M.Bare x :=
    (Flows.ret hb hret []).mono (fun _ _ _ h => h) fun _ hx _ _ _ => hx
  have whole := body.seq (E := fun _ => True) last fun _ _ _ _ _ => ⟨trivial, trivial⟩
  obtain ⟨M, hstart, ⟨hstatements, hend⟩, hallow⟩ := whole.exists_shapes
  refine ⟨M, ⟨hstart, ?_, x, hret⟩, x, hstatements, hret, hend⟩
  intro z i next hat
  exact hallow z i next (Nat.zero_le z) hat.lt_size hat

/-- Every address of compiled code has a shape that the stack has whenever a run comes there. It is
empty between statements, at the heads of loops and at the return. So no run fails for what is on
the stack, except that a load may find a value of another kind in its slot. -/
theorem Source.compile_shaped {source : Source} {typing : BranchTyping} {b : Bytecode}
    (h : source.compile typing = .ok b) :
    ∃ (checked : Checked) (M : Shapes), source.check typing = .ok checked ∧
      (∀ n s, Steps b n (start b) s →
        s.pc ∈ (Sweep.ofCode b.code).addresses ∧ s.stack.map Value.kind = M s.pc) ∧
      (∃ x, Stmt.LaidAll b M.Bare checked.program 0 x ∧ b.At x (.plain .ret) b.code.size ∧
        M.Bare x) ∧
      ∀ limit error, run b limit = .error error → b.Permits error := by
  obtain ⟨checked, hc, _⟩ := compile_ok h
  have hcompiled := Source.compiled h hc
  obtain ⟨a, hb⟩ := hcompiled.linked
  obtain ⟨M, hm, hstatements⟩ := hcompiled.shaped
  have hstart := keeps_start hb hm
  refine ⟨checked, M, hc, ?_, hstatements, ?_⟩
  · intro n s hs
    have hkeeps := hstart.steps hb hm hs
    exact ⟨hkeeps.pc, hkeeps.stack⟩
  · intro limit error hr
    cases he : runFrom b limit limit (start b) with
    | ok printed =>
      rw [run, he] at hr
      cases hr
    | error error' =>
      rw [run, he] at hr
      cases hr
      exact hstart.permits hb hm he

/-- The shapes of a loop. -/
theorem Source.compile_shaped_loop :
    ∃ (b : Bytecode) (M : Shapes),
      (Source.ofString "int i = 0; do i = i + 1; while (i < 2);").compile .identical = .ok b ∧
      ∀ n s, Steps b n (start b) s → s.stack.map Value.kind = M s.pc := by
  have hcode : ((Source.ofString "int i = 0; do i = i + 1; while (i < 2);").compile
      .identical).isOk = true := by
    decide +kernel
  obtain ⟨b, h⟩ := exists_of_isOk hcode
  obtain ⟨_, M, _, hshapes, _⟩ := Source.compile_shaped h
  exact ⟨b, M, h, fun n s hs => (hshapes n s hs).2⟩

end BlockLang
