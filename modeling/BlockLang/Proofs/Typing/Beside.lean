import BlockLang.Proofs.Typing.Stmt

namespace BlockLang

namespace Context

variable {related related' : List Diagnostic → List Diagnostic → Prop} {ctx ctx' : Context}

/-- The second context is the first one with mistakes that are related to its own. -/
def Beside (related : List Diagnostic → List Diagnostic → Prop) (ctx ctx' : Context) : Prop :=
  ∃ ds, ctx' = { ctx with diagnostics := ds } ∧ related ctx.diagnostics.toList ds.toList

theorem Beside.lookup (h : ctx.Beside related ctx') : ctx'.lookup? = ctx.lookup? := by
  obtain ⟨ds, rfl, _⟩ := h
  rfl

theorem Beside.typing (h : ctx.Beside related ctx') : ctx'.typing = ctx.typing := by
  obtain ⟨ds, rfl, _⟩ := h
  rfl

theorem Beside.maxLocals (h : ctx.Beside related ctx') : ctx'.maxLocals = ctx.maxLocals := by
  obtain ⟨ds, rfl, _⟩ := h
  rfl

theorem Beside.diagnostics (h : ctx.Beside related ctx') :
    related ctx.diagnostics.toList ctx'.diagnostics.toList := by
  obtain ⟨ds, rfl, hr⟩ := h
  exact hr

theorem Beside.push (h : ctx.Beside related ctx') : ctx.push.Beside related ctx'.push := by
  obtain ⟨ds, rfl, hr⟩ := h
  exact ⟨ds, rfl, hr⟩

theorem Beside.pop (h : ctx.Beside related ctx') : ctx.pop.Beside related ctx'.pop := by
  obtain ⟨ds, rfl, hr⟩ := h
  obtain ⟨innermost, outer, nextSlot, maxLocals, typing, own⟩ := ctx
  cases outer <;> exact ⟨ds, rfl, hr⟩

/-- What is reported on both sides has to keep the mistakes related. -/
theorem Beside.reportAll {more more' : List Diagnostic} (h : ctx.Beside related ctx')
    (hr : ∀ ds ds', related ds ds' → related' (ds ++ more) (ds' ++ more')) :
    (ctx.reportAll more).Beside related' (ctx'.reportAll more') := by
  obtain ⟨ds, rfl, hds⟩ := h
  refine ⟨ds ++ more', rfl, ?_⟩
  change related' (ctx.diagnostics ++ more).toList _
  rw [Array.toList_appendList, Array.toList_appendList]
  exact hr _ _ hds

/-- A name is declared alike on both sides. -/
theorem Beside.declare (h : ctx.Beside related ctx')
    (hr : ∀ ds ds' more, related ds ds' → related (ds ++ more) (ds' ++ more)) (name : String) (ty : Ty)
    (line : Nat) :
    (ctx'.declare name ty line).1 = (ctx.declare name ty line).1 ∧
      (ctx.declare name ty line).2.Beside related (ctx'.declare name ty line).2 := by
  have hreport (mistake : Mistake) :
      (ctx.report line mistake).Beside related (ctx'.report line mistake) :=
    h.reportAll fun ds ds' => hr ds ds' [⟨line, mistake⟩]
  obtain ⟨ds, rfl, hds⟩ := h
  unfold Context.declare
  dsimp only
  split
  · exact ⟨rfl, hreport _⟩
  · split
    · exact ⟨rfl, ds, rfl, hds⟩
    · exact ⟨rfl, hreport _⟩

end Context

end BlockLang
