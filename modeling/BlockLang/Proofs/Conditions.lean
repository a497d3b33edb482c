import BlockLang.Proofs.Excerpt
import BlockLang.Proofs.Rules.Expr
import BlockLang.Proofs.Simulation.Expr

namespace BlockLang

namespace Expr

/-- Every variable has a type that values have. -/
def Kinded : Expr → Prop
  | literal _ _ => True
  | var mark _ _ => ∃ ty kind, mark.ty = some ty ∧ ty.kind? = some kind
  | unary _ _ e => e.Kinded
  | binary _ _ l r | concat _ l r => l.Kinded ∧ r.Kinded
  | ternary _ c t f => c.Kinded ∧ t.Kinded ∧ f.Kinded
  | guarded _ c t => c.Kinded ∧ t.Kinded

theorem Laid.kinded {b : Bytecode} {e : Expr} {goal : Goal} {x y : Nat} (h : e.Laid b goal x y) :
    e.Kinded := by
  induction h with
  | literal | truth | untruth => trivial
  | var typed kinded => exact ⟨_, _, typed, kinded⟩
  | assign typed kinded _ _ _ ih => exact ⟨⟨_, _, typed, kinded⟩, ih⟩
  | negate _ _ _ ih | not _ ih | tested _ _ _ ih | materialized _ _ _ _ _ ih => exact ih
  | arith _ _ _ _ _ _ ihl ihr | bit _ _ _ ihl ihr | bothJump _ _ _ ihl ihr
  | leftSkips _ _ _ ihl ihr | compareDoubles _ _ _ _ _ ihl ihr | compareInts _ _ _ _ _ ihl ihr
  | concat _ _ _ ihl ihr => exact ⟨ihl, ihr⟩
  | ternary _ _ _ _ _ _ _ _ _ ihc iht ihf => exact ⟨ihc, iht, ihf⟩
  | guarded _ _ _ _ ihc iht => exact ⟨ihc, iht⟩

variable {typing : BranchTyping} {names : String → Option Binding} {line : Nat} {e l r : Expr}

theorem kinded_prefixed (op : UnaryOp) : (prefixed line op e).1.Kinded ↔ e.Kinded := by
  cases op with
  | negate =>
    simp only [prefixed]
    split <;> rfl
  | not => rfl

theorem kinded_applied (op : BinaryOp) :
    (applied line op l r).1.Kinded ↔ l.Kinded ∧ r.Kinded := by
  cases op with
  | arith op =>
    simp only [applied, arithmetic]
    split
    · rfl
    · split <;> rfl
  | assign =>
    simp only [applied]
    split <;> rfl
  | _ => rfl

/-- The names of variables that have values. -/
def valued (names : String → Option Binding) (name : String) : Option Binding :=
  (names name).filter (·.ty.kind?.isSome)

/-- Where every variable turns out to have a value, checking sees no other names. -/
theorem annotate_valued (hu : e.Untyped) (hk : (e.annotate typing names).1.Kinded) :
    e.annotate typing (valued names) = e.annotate typing names := by
  induction e with
  | literal mark value => rw [annotate_literal hu, annotate_literal hu]
  | var mark name slot =>
    rw [annotate_var hu] at hk ⊢
    rw [annotate_var hu, valued]
    cases hname : names name with
    | none => rfl
    | some binding =>
      rw [hname] at hk
      obtain ⟨ty, kind, hty, hkind⟩ := hk
      cases hty
      rw [Option.filter_some, if_pos (by rw [hkind]; rfl)]
  | unary mark op e ih =>
    obtain ⟨hm, he⟩ := hu
    rw [annotate_unary hm] at hk
    rw [annotate_unary hm, annotate_unary hm, ih he ((kinded_prefixed op).mp hk)]
  | binary mark op l r ihl ihr =>
    obtain ⟨hm, hl, hr⟩ := hu
    rw [annotate_binary hm] at hk
    obtain ⟨hkl, hkr⟩ := (kinded_applied op).mp hk
    rw [annotate_binary hm, annotate_binary hm, ihl hl hkl, ihr hr hkr]
  | concat mark l r ihl ihr =>
    obtain ⟨hm, hl, hr⟩ := hu
    rw [annotate_concat hm] at hk
    obtain ⟨hkl, hkr⟩ := hk
    rw [annotate_concat hm, annotate_concat hm, ihl hl hkl, ihr hr hkr]
  | ternary mark c t f ihc iht ihf =>
    obtain ⟨hm, hc, ht, hf⟩ := hu
    rw [annotate_ternary hm] at hk
    obtain ⟨hkc, hkt, hkf⟩ := hk
    rw [annotate_ternary hm, annotate_ternary hm, ihc hc hkc, iht ht hkt, ihf hf hkf]
  | guarded mark c t ihc iht =>
    obtain ⟨hm, hc, ht⟩ := hu
    rw [annotate_guarded hm] at hk
    obtain ⟨hkc, hkt⟩ := hk
    rw [annotate_guarded hm, annotate_guarded hm, ihc hc hkc, iht ht hkt]

/-- What is checked without mistake and has code is well typed, whatever the names stand for. -/
theorem Laid.typed {b : Bytecode} {goal : Goal} {x y : Nat} (hu : e.Untyped)
    (hclean : (e.annotate typing names).2 = [])
    (h : (e.annotate typing names).1.Laid b goal x y) :
    Typed (valued names) (e.annotate typing names).1 (e.annotate typing names).1.ty := by
  have hsame := annotate_valued hu h.kinded
  have hn : ∀ name binding, valued names name = some binding →
      ∃ kind, binding.ty.kind? = some kind := by
    intro name binding hb
    exact Option.isSome_iff_exists.mp (Option.mem_filter_iff.mp hb).2
  rw [← hsame] at hclean ⊢
  obtain ⟨ty, ht⟩ := annotate_typed hn e hu hclean
  rwa [ht.ty_eq]

end Expr

/-- An error without the address at which it occurs. -/
def RunError.kind : RunError → RunError
  | stackUnderflow _ => stackUnderflow 0
  | typeMismatch _ expected found => typeMismatch 0 expected found
  | divisionByZero _ => divisionByZero 0
  | invalidJumpTarget _ => invalidJumpTarget 0
  | error => error

namespace Machine

/-- Reads and writes of slots, as loads and stores of any locals perform them. -/
def slots : Access (Array (Option Value)) RunError where
  read _ slot? ty? locals :=
    match slot?, ty?.bind Ty.kind? with
    | some slot, some kind =>
      match locals[slot.toNat]? with
      | none => .error (.invalidLocal slot)
      | some none => .error (.uninitializedLocal slot)
      | some (some value) =>
        if value.kind = kind then .ok value else .error (.typeMismatch 0 kind value.kind)
    | _, _ => .error .missingReturn
  write _ slot? _ value locals :=
    match slot? with
    | some slot =>
      if slot.toNat < locals.size then .ok (locals.setIfInBounds slot.toNat (some value))
      else .error (.invalidLocal slot)
    | none => .error .missingReturn
  divisionByZero := .divisionByZero 0
  stuck := .missingReturn

variable {b : Bytecode} {x y : Nat} {s : State}

/-- What comes of a condition: an error, or a truth value and the locals it leaves. -/
abbrev Verdict := Except RunError (Bool × Array (Option Value))

/-- What code between `x` and `y` comes to that is to go to a target or to fall through: it fails
between them, or it arrives where the verdict says, with these locals and with the stack and the
output as they were. To jump to the end of the code is an error, for there is nothing to arrive at. -/
inductive Comes (b : Bytecode) (x y target : Nat) (s : State) : Verdict → Prop
  | fails {n t error} (steps : StepsWithin b x y n s t) (within : t.Within x y)
      (stops : step b t = .error error) : Comes b x y target s (.error error.kind)
  | arrives {n holds locals}
      (steps : StepsWithin b x y n s ⟨if holds then target else y, s.stack, locals, s.printed⟩) :
      Comes b x y target s (.ok (holds, locals))
  | strays {holds locals} (ends : (if holds then target else y) = b.code.size)
      (leaves : Strays b x y s) : Comes b x y target s (.ok (holds, locals))

/-- Steps between two addresses that lead on until they leave or fail lead to one state. -/
theorem StepsWithin.unique {n m : Nat} {t u : State} (hn : StepsWithin b x y n s t)
    (hm : StepsWithin b x y m s u) (ht : t.Within x y → ∃ error, step b t = .error error)
    (hu : u.Within x y → ∃ error, step b u = .error error) : t = u := by
  induction n generalizing s m with
  | zero =>
    cases hn
    cases m with
    | zero => exact hm
    | succ m =>
      obtain ⟨hin, v, hv, _⟩ := hm
      obtain ⟨error, he⟩ := ht hin
      rw [he] at hv
      cases hv
  | succ n ih =>
    obtain ⟨hin, v, hv, hn⟩ := hn
    cases m with
    | zero =>
      cases hm
      obtain ⟨error, he⟩ := hu hin
      rw [he] at hv
      cases hv
    | succ m =>
      obtain ⟨_, w, hw, hm⟩ := hm
      rw [hv] at hw
      cases hw
      exact ih hn hm

/-- Code comes to one verdict only, if there is code behind it and its target is elsewhere in it. -/
theorem Comes.unique {target : Nat} {v w : Verdict}
    (hout : target < x ∨ y ≤ target) (hne : y ≠ target) (hlt : target < b.code.size)
    (hy : y < b.code.size) (hv : Comes b x y target s v) (hw : Comes b x y target s w) : v = w := by
  have ends : ∀ {v}, Comes b x y target s v → ∃ n t, StepsWithin b x y n s t ∧
      ((t.Within x y ∧ ∃ error, step b t = .error error ∧ v = .error error.kind) ∨
        (¬ t.Within x y ∧ v = .ok (decide (t.pc = target), t.locals))) := by
    intro v hv
    cases hv with
    | fails steps within stops => exact ⟨_, _, steps, .inl ⟨within, _, stops, rfl⟩⟩
    | @arrives n holds locals steps =>
      refine ⟨_, _, steps, .inr ?_⟩
      cases holds with
      | true =>
        refine ⟨fun hin => ?_, by simp⟩
        have hin : x ≤ target ∧ target < y := hin
        omega
      | false => exact ⟨fun hin => Nat.lt_irrefl y hin.2, by simp [hne]⟩
    | strays ends =>
      split at ends <;> omega
  obtain ⟨n, t, hn, ht⟩ := ends hv
  obtain ⟨m, u, hm, hu⟩ := ends hw
  obtain rfl := hn.unique hm
    (fun hin => ht.elim (fun ⟨_, error, he, _⟩ => ⟨error, he⟩) fun h => absurd hin h.1)
    (fun hin => hu.elim (fun ⟨_, error, he, _⟩ => ⟨error, he⟩) fun h => absurd hin h.1)
  rcases ht with ⟨hin, error, he, rfl⟩ | ⟨hin, rfl⟩ <;>
    rcases hu with ⟨hin', error', he', rfl⟩ | ⟨hin', rfl⟩
  · rw [he] at he'
    cases he'
    rfl
  · exact absurd hin hin'
  · exact absurd hin' hin
  · rfl

end Machine

open Machine

/-- Wherever calls have led before the code is emitted, and wherever they lead behind it, the
finished code comes to the verdict from any stack and any output. -/
def Emit.Decides (code : Emit Unit) (target : Label) (locals : Array (Option Value))
    (verdict : Verdict) : Prop :=
  ∀ a a' A b, Assembly.empty.Calls a → target.number < a.labels.size → code a = (.ok (), a') →
    a'.Calls A → A.finish = .ok b → ∀ stack printed,
      Comes b a.address a'.address (A.place target) ⟨a.address, stack, locals, printed⟩ verdict

namespace Expr

variable {typing : BranchTyping} {names : String → Option Binding} {e : Expr}

end Expr

end BlockLang
