import BlockLang.Proofs.Relabeling.Code

namespace BlockLang

/-- Other names, on the same lines. A renaming of identifiers leaves every other string as it is. -/
def Relabeling.renaming (name : String → String) (injective : Function.Injective name) : Relabeling :=
  ⟨id, name, injective⟩

/-- No reason why there is no code has a name. -/
theorem CodeError.relabel_id (error : CodeError) : error.relabel id = error := by
  cases error <;> rfl

theorem CodeError.mapError_relabel_id {α : Type} (result : Except CodeError α) :
    result.mapError (relabel id) = result := by
  cases result with
  | ok _ => rfl
  | error error => exact congrArg Except.error error.relabel_id

theorem Program.generate_renamed {name : String → String} (injective : Function.Injective name)
    (program : Program) (maxLocals : Nat) :
    Program.generate (Stmt.relabelAll (.renaming name injective) program) maxLocals =
      program.generate maxLocals :=
  (Program.generate_relabel (.renaming name injective) program maxLocals).trans
    (CodeError.mapError_relabel_id _)

/-- Names can be replaced before or after a program is checked. Its code is the same under all names, and
so is the reason if it has none. -/
theorem Program.check_renamed (name : String → String) (injective : Function.Injective name)
    (typing : BranchTyping) (program : Program) :
    let r := Relabeling.renaming name injective
    let renamed := Program.check typing (Stmt.relabelAll r program)
    let checked := Program.check typing program
    renamed.program = Stmt.relabelAll r checked.program ∧
      renamed.maxLocals = checked.maxLocals ∧
      renamed.diagnostics = checked.diagnostics.map (Diagnostic.relabel r) ∧
      renamed.generate = checked.generate ∧
      ∀ maxLocals, Program.generate (Stmt.relabelAll r program) maxLocals = program.generate maxLocals := by
  intro r renamed checked
  have hcheck : renamed = checked.relabel r := Program.check_relabel r typing program
  rw [hcheck]
  exact ⟨rfl, rfl, rfl, checked.program.generate_renamed injective checked.maxLocals,
    program.generate_renamed injective⟩

/-- `int a; { double a; a = b; } int a;`, each on its line. -/
def shadowing : Program :=
  [.declare 1 .int [⟨1, "a", .int, none, none⟩],
   .block 2
     [.declare 3 .double [⟨3, "a", .double, none, none⟩],
      .eval (.binary (.untyped 4) .assign (.var (.untyped 4) "a" none) (.var (.untyped 4) "b" none))],
   .declare 5 .int [⟨5, "a", .int, none, none⟩]]

theorem Program.check_renamed_shadowing :
    ∃ injective : Function.Injective fun name => name ++ "_",
      let renamed := Program.check .identical (Stmt.relabelAll (.renaming _ injective) shadowing)
      renamed.maxLocals = 2 ∧
        renamed.diagnostics = [⟨4, .unknownVariable "b_"⟩, ⟨5, .redeclared "a_"⟩] ∧
        renamed.generate = .error (.unresolved 4) := by
  have injective : Function.Injective fun name : String => name ++ "_" := fun a b h => by simpa using h
  refine ⟨injective, ?_⟩
  obtain ⟨_, hlocals, hdiagnostics, hgenerate, _⟩ :=
    Program.check_renamed _ injective .identical shadowing
  exact ⟨hlocals.trans rfl, hdiagnostics.trans rfl, hgenerate.trans rfl⟩

end BlockLang
