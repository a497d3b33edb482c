import BlockLang.Compilation
import BlockLang.Proofs.Layout.Stmt
import BlockLang.Proofs.Typing.Stmt

namespace BlockLang

/-- The program is well typed, and the code is its code. -/
structure Program.Compiled (program : Program) (b : Bytecode) : Prop where
  fits : Stmt.FitAll .empty program
  linked : ∃ a, Linked a b
  laid : ∃ y, Stmt.LaidAll b (fun _ => True) program 0 y ∧ b.At y (.plain .ret) b.code.size

namespace Source

variable {source : Source} {typing : BranchTyping} {b : Bytecode} {checked : Checked}

/-- A source is compiled where it has no mistake and code can be made for it. -/
theorem compile_ok (h : source.compile typing = .ok b) :
    ∃ checked, source.check typing = .ok checked ∧ checked.diagnostics = [] ∧
      checked.generate = .ok b := by
  unfold compile at h
  cases hc : source.check typing with
  | error e =>
    rw [hc] at h
    cases h
  | ok checked =>
    simp only [hc, Checked.compile] at h
    split at h
    · rename_i hd
      refine ⟨checked, rfl, List.isEmpty_iff.mp hd, ?_⟩
      cases hg : checked.generate with
      | error e =>
        rw [hg] at h
        cases h
      | ok b' =>
        rw [hg] at h
        cases h
        rfl
    · cases h

theorem compile_of_isOk (hc : source.check typing = .ok checked)
    (h : checked.compile.isOk = true) : ∃ b, source.compile typing = .ok b := by
  rw [compile, hc]
  exact exists_of_isOk h

theorem check_ok (h : source.check typing = .ok checked) :
    ∃ program, Program.parse source = .ok program ∧ checked = program.check typing := by
  unfold check at h
  cases hp : Program.parse source with
  | error e =>
    rw [hp] at h
    cases h
  | ok program =>
    rw [hp] at h
    cases h
    exact ⟨program, rfl, rfl⟩

/-- The program of a compiled source fits its code. -/
theorem compiled (h : source.compile typing = .ok b) (hc : source.check typing = .ok checked) :
    checked.program.Compiled b := by
  obtain ⟨checked', hc', hd, hg⟩ := compile_ok h
  obtain rfl : checked = checked' := Except.ok.inj (hc.symm.trans hc')
  obtain ⟨program, hp, rfl⟩ := check_ok hc
  obtain ⟨hfits, hrooms⟩ := Program.check_fits (Program.untyped_of_parse hp) hd
  obtain ⟨a, hlinked, _, hlaid⟩ := Program.generate_laid hrooms hg
  exact ⟨hfits, ⟨a, hlinked⟩, hlaid⟩

end Source

end BlockLang
