import BlockLang.Proofs.Compilation
import BlockLang.Proofs.Locals
import BlockLang.Proofs.Simulation.Stmt

namespace BlockLang

open Machine

variable {source : Source} {typing : BranchTyping} {b : Bytecode} {checked : Checked}
  {program : Program} {fuel : Nat}

/-- The code of a program does what an evaluation says, up to its return. -/
theorem Program.Compiled.follows (h : program.Compiled b) (fuel : Nat) :
    Follows b (Stop.Fails b fuel) (program.evaluate fuel) (start b) fun lines t =>
      ∃ printed : Array String, step b t = .ok (.returned printed) ∧ printed.toList = lines := by
  obtain ⟨y, hlaid, hret⟩ := h.laid
  refine (hlaid.follows .empty h.fits (Memory.Agrees.start b)).map ?_
  intro mem t hsettled
  obtain ⟨locals, _, rfl⟩ := hsettled
  exact follows_ok ⟨mem.printed, hret.step_ret, rfl⟩

/-- What is known of runs from an evaluation with so much fuel. -/
def Bytecode.Accords (b : Bytecode) (fuel : Nat) : Except Stop (List String) → Prop
  | .ok lines => Ends b (.ok lines)
  | .error .divisionByZero => ∃ address, Ends b (.error (.divisionByZero address))
  | .error (.unassigned d left) => ∃ n t, Steps b n (start b) t ∧ t.Reads b d left
  | .error .exhausted => ∀ limit, limit < fuel → run b limit = .error (.stepLimit limit)
  | .error .stuck => False

theorem Program.Compiled.accords (h : program.Compiled b) (fuel : Nat) :
    b.Accords fuel (program.evaluate fuel) := by
  have hf := h.follows fuel
  cases he : program.evaluate fuel with
  | ok lines =>
    rw [he] at hf
    obtain ⟨n, t, hs, printed, hr, rfl⟩ := hf
    exact hs.ends_returned hr
  | error stop =>
    rw [he] at hf
    cases stop with
    | divisionByZero =>
      obtain ⟨n, t, address, hs, ht⟩ := hf
      exact ⟨address, hs.ends_failed ht nofun⟩
    | unassigned d left => exact hf
    | exhausted =>
      obtain ⟨n, t, hle, hs⟩ := hf
      exact fun limit hlt => hs.run_lt (by omega)
    | stuck => exact hf

/-- Where a code ends, an evaluation with enough fuel does. -/
theorem Program.Compiled.exists_fuel (h : program.Compiled b)
    {result : Except RunError (List String)} (he : Ends b result) :
    ∃ fuel, program.evaluate fuel ≠ .error .exhausted := by
  obtain ⟨limit, hlimit⟩ := he.exists_limit
  refine ⟨limit + 1, fun hx => ?_⟩
  have ha := h.accords (limit + 1)
  rw [hx] at ha
  exact hlimit (ha limit (Nat.lt_succ_self limit))

/-- An evaluation that has fuel enough, and reads no unassigned variable, says how the code ends. -/
theorem Program.Compiled.ends (h : program.Compiled b)
    (hread : ∀ fuel d left, program.evaluate fuel ≠ .error (.unassigned d left))
    (hfuel : program.evaluate fuel ≠ .error .exhausted) :
    (∃ lines, program.evaluate fuel = .ok lines ∧ Ends b (.ok lines)) ∨
    (program.evaluate fuel = .error .divisionByZero ∧
      ∃ address, Ends b (.error (.divisionByZero address))) := by
  have ha := h.accords fuel
  cases he : program.evaluate fuel with
  | ok lines =>
    rw [he] at ha
    exact .inl ⟨lines, rfl, ha⟩
  | error stop =>
    rw [he] at ha
    cases stop with
    | divisionByZero => exact .inr ⟨rfl, ha⟩
    | unassigned d left => exact absurd he (hread fuel d left)
    | exhausted => exact absurd he hfuel
    | stuck => exact absurd ha id

/-- Compiled programs do what they mean. Where no evaluation reads an unassigned variable, a run
prints the lines of the evaluation, divides by zero if it does, and goes on forever if it does. -/
theorem Source.compile_correct (h : source.compile typing = .ok b)
    (hc : source.check typing = .ok checked)
    (hread : ∀ fuel d left, checked.program.evaluate fuel ≠ .error (.unassigned d left)) :
    (∀ lines, (∃ fuel, checked.program.evaluate fuel = .ok lines) ↔ Ends b (.ok lines)) ∧
    ((∃ fuel, checked.program.evaluate fuel = .error .divisionByZero) ↔
      ∃ address, Ends b (.error (.divisionByZero address))) ∧
    ((∀ fuel, checked.program.evaluate fuel = .error .exhausted) ↔
      ∀ limit, run b limit = .error (.stepLimit limit)) ∧
    ∀ fuel, checked.program.evaluate fuel ≠ .error .stuck := by
  have hcompiled := Source.compiled h hc
  have haccords := hcompiled.accords
  refine ⟨fun lines => ⟨?_, ?_⟩, ⟨?_, ?_⟩, ⟨?_, ?_⟩, ?_⟩
  · intro hx
    obtain ⟨fuel, hx⟩ := hx
    have ha := haccords fuel
    rwa [hx] at ha
  · intro he
    obtain ⟨fuel, hfuel⟩ := hcompiled.exists_fuel he
    rcases hcompiled.ends hread hfuel with ⟨lines', hx, he'⟩ | ⟨_, address, he'⟩
    · obtain rfl := Except.ok.inj (he.unique he')
      exact ⟨fuel, hx⟩
    · cases he.unique he'
  · intro hx
    obtain ⟨fuel, hx⟩ := hx
    have ha := haccords fuel
    rwa [hx] at ha
  · intro he
    obtain ⟨address, he⟩ := he
    obtain ⟨fuel, hfuel⟩ := hcompiled.exists_fuel he
    rcases hcompiled.ends hread hfuel with ⟨lines, _, he'⟩ | ⟨hx, _⟩
    · cases he.unique he'
    · exact ⟨fuel, hx⟩
  · intro hx limit
    have ha := haccords (limit + 1)
    rw [hx] at ha
    exact ha limit (Nat.lt_succ_self limit)
  · intro hcut fuel
    apply Classical.byContradiction
    intro hfuel
    have hend : ∃ result, Ends b result := by
      rcases hcompiled.ends hread hfuel with ⟨lines, _, he⟩ | ⟨_, address, he⟩
      · exact ⟨_, he⟩
      · exact ⟨_, he⟩
    obtain ⟨result, he⟩ := hend
    obtain ⟨limit, hlimit⟩ := he.exists_limit
    exact hlimit (hcut limit)
  · intro fuel hx
    have ha := haccords fuel
    rwa [hx] at ha

/-- A loop counts to two before its variable is printed. -/
theorem Source.compile_correct_counting :
    ∃ b, (Source.ofString "int i = 0; do i = i + 1; while (i < 2); print(i);").compile .identical =
      .ok b ∧ Ends b (.ok ["2"]) := by
  have hrun : ((Source.ofString
      "int i = 0; do i = i + 1; while (i < 2); print(i);").check .identical).map (fun checked =>
        (checked.compile.isOk, checked.program.evaluate 0, checked.program.evaluate 1,
          checked.program.evaluate 2)) =
      .ok (true, .error .exhausted, .error .exhausted, .ok ["2"]) := by
    decide +kernel
  obtain ⟨checked, hc, hrun⟩ := exists_of_map_ok hrun
  simp only [Prod.mk.injEq] at hrun
  obtain ⟨hok, hzero, hone, htwo⟩ := hrun
  obtain ⟨b, h⟩ := compile_of_isOk hc hok
  refine ⟨b, h, ((Source.compile_correct h hc ?_).1 ["2"]).mp ⟨2, htwo⟩⟩
  intro fuel d left
  rcases fuel with _ | _ | fuel
  · simp [hzero]
  · simp [hone]
  · have hmore := Program.evaluate_more (Nat.le_add_left 2 fuel) (by rw [htwo]; nofun)
    simp [hmore, htwo]

/-- No load finds a value of another kind, and to read a variable that is not assigned ends the
run. -/
structure Program.ReadsSafely (program : Program) (b : Bytecode) : Prop where
  kinds : ∀ limit address expected found,
    run b limit ≠ .error (.typeMismatch address expected found)
  unassigned : ∀ fuel d left, program.evaluate fuel = .error (.unassigned d left) →
    Ends b (.error (.uninitializedLocal d.slot))

theorem Machine.Ends.run_eq {result : Except RunError (List String)} (h : Ends b result)
    (limit : Nat) : run b limit = result ∨ run b limit = .error (.stepLimit limit) := by
  obtain ⟨n, hn⟩ := h
  rw [hn limit]
  split
  · exact .inl rfl
  · exact .inr rfl

/-- A slot that was never written is found uninitialized. -/
theorem Program.Compiled.ends_uninitialized (h : program.Compiled b) {d : Declared}
    (he : program.evaluate fuel = .error (.unassigned d none)) :
    Ends b (.error (.uninitializedLocal d.slot)) := by
  have ha := h.accords fuel
  rw [he] at ha
  obtain ⟨n, s, hs, ⟨kind, next, _, hat⟩, hslot⟩ := ha
  refine hs.ends_failed ?_ nofun
  rw [hat.step_load]
  simp [load, hslot]

/-- What an earlier variable left in the slot is read as if it were the variable's own, or found to
be of the wrong kind. -/
theorem Program.Compiled.reads_left (h : program.Compiled b) {d : Declared} {value : Value}
    (he : program.evaluate fuel = .error (.unassigned d (some value))) :
    ∃ n s, Steps b n (start b) s ∧ s.Reads b d (some value) ∧ s.Stored d.slot ∧
      ((∃ t, step b s = .ok (.next t) ∧ t.stack = value :: s.stack) ∨
        ∃ kind, step b s = .error (.typeMismatch s.pc kind value.kind)) := by
  have ha := h.accords fuel
  rw [he] at ha
  obtain ⟨n, s, hs, hreads⟩ := ha
  have hslot := hreads.holds
  obtain ⟨kind, next, _, hat⟩ := hreads.loads
  refine ⟨n, s, hs, hreads, ⟨value, hslot⟩, ?_⟩
  rw [hat.step_load]
  by_cases hk : value.kind = kind
  · left
    exact ⟨⟨next, value :: s.stack, s.locals, s.printed⟩, by simp [load, hslot, hk], rfl⟩
  · right
    exact ⟨kind, by simp [load, hslot, hk]⟩

/-- Reads are safe in exactly those programs of which no evaluation comes to a variable that is not
assigned while an earlier one has left something in its slot. -/
theorem Source.readsSafely_iff (h : source.compile typing = .ok b)
    (hc : source.check typing = .ok checked) :
    checked.program.ReadsSafely b ↔
      ∀ fuel d value, checked.program.evaluate fuel ≠ .error (.unassigned d (some value)) := by
  have hcompiled := Source.compiled h hc
  constructor
  · intro hsafe fuel d value he
    obtain ⟨n, s, hs, _, hstored, _⟩ := hcompiled.reads_left he
    obtain ⟨m, hm⟩ := hsafe.unassigned fuel d _ he
    have hrun := hm (n + m)
    rw [if_pos (Nat.le_add_left m n), run, hs.runFrom_add] at hrun
    cases hr : runFrom b (n + m) m s with
    | ok printed => simp [hr, Except.map] at hrun
    | error error =>
      rw [hr] at hrun
      cases hrun
      exact hstored.runFrom_ne _ _ hr
  · intro hleft
    refine ⟨?_, ?_⟩
    · intro limit address expected found hrun
      have hends : ∀ {result}, Ends b result →
          result ≠ .error (.typeMismatch address expected found) → False := by
        intro result he hne
        rcases he.run_eq limit with hr | hr
        · exact hne (hr.symm.trans hrun)
        · cases hr.symm.trans hrun
      have ha := hcompiled.accords (limit + 1)
      cases he : checked.program.evaluate (limit + 1) with
      | ok lines =>
        rw [he] at ha
        exact hends ha (by simp)
      | error stop =>
        rw [he] at ha
        cases stop with
        | divisionByZero =>
          obtain ⟨address, ha⟩ := ha
          exact hends ha (by simp)
        | unassigned d left =>
          cases left with
          | none => exact hends (hcompiled.ends_uninitialized he) (by simp)
          | some value => exact hleft _ d value he
        | exhausted => cases (ha limit (Nat.lt_succ_self limit)).symm.trans hrun
        | stuck => exact ha
    · intro fuel d left he
      cases left with
      | none => exact hcompiled.ends_uninitialized he
      | some value => exact absurd he (hleft fuel d value)

/-- A double is left in the slot that an int gets in the next block. -/
theorem Source.readsSafely_iff_left :
    ∃ b checked, (Source.ofString "{double d=1.5;}{int i;print(i);}").compile .identical = .ok b ∧
      (Source.ofString "{double d=1.5;}{int i;print(i);}").check .identical = .ok checked ∧
      ¬ checked.program.ReadsSafely b := by
  have hrun : ((Source.ofString "{double d=1.5;}{int i;print(i);}").check .identical).map
      (fun checked => (checked.compile.isOk, checked.program.evaluate 0)) =
      .ok (true, .error (.unassigned ⟨1, 0, .int⟩ (some (.double ⟨0x3FF8000000000000⟩)))) := by
    decide +kernel
  obtain ⟨checked, hc, hrun⟩ := exists_of_map_ok hrun
  simp only [Prod.mk.injEq] at hrun
  obtain ⟨hok, hstop⟩ := hrun
  obtain ⟨b, h⟩ := compile_of_isOk hc hok
  exact ⟨b, checked, h, hc, fun hsafe => (Source.readsSafely_iff h hc).mp hsafe 0 _ _ hstop⟩

end BlockLang
