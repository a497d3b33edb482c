import BlockLang.Proofs.Reading.Steps

namespace BlockLang

namespace Reader

variable {ending : Ending} {tokens : List Token} {depth : Nat}

/-- What the readers of expressions are for. -/
inductive Task where
  | expr
  | operand
  | climb (least : Nat) (lhs : Expr)
  | extend (op : InfixOp) (rhs : Expr)

def Task.read : Task → Nat → Reader Expr
  | expr, depth => Reader.expr depth
  | operand, depth => Reader.operand depth
  | climb least lhs, depth => Reader.climb depth least lhs
  | extend op rhs, depth => Reader.extend depth op rhs

/-- A task is done with the tokens up to `rest` by reading the expression. -/
inductive Reads (ending : Ending) : Task → List Token → Expr → List Token → Prop
  | expr {tokens mid rest : List Token} {lhs e : Expr} (first : Reads ending .operand tokens lhs mid)
      (more : Reads ending (.climb 0 lhs) mid e rest) : Reads ending .expr tokens e rest
  | single {token : Token} {rest : List Token} {e : Expr} (denotes : token.Denotes e) :
      Reads ending .operand (token :: rest) e rest
  | negative {minus token : Token} {rest : List Token} {n : Nat}
      (sign : minus.kind = .operator .minus false) (kind : token.kind = .number)
      (value : Double.digitsValue token.text.toList = n) (inRange : n ≤ 2147483648) :
      Reads ending .operand (minus :: token :: rest)
        (.literal (.untyped token.line) (.int (Int32.ofInt (-n)))) rest
  | parens {before after : Token} {tokens rest : List Token} {e : Expr}
      (opens : before.kind = .openParen) (inside : Reads ending .expr tokens e (after :: rest))
      (closes : after.kind = .closeParen) : Reads ending .operand (before :: tokens) e rest
  | prefixed {token : Token} {op : UnaryOp} {tokens rest : List Token} {e : Expr}
      (sign : UnaryOp.ofToken? token.kind = some op) (apart : ¬ op.Folds tokens)
      (inside : Reads ending .operand tokens e rest) :
      Reads ending .operand (token :: tokens) (.unary (.untyped token.line) op e) rest
  | stop {least : Nat} {lhs : Expr} {tokens : List Token} (clear : ending.Clear tokens)
      (stops : ∀ op, InfixOp.ahead? tokens = some op → op.precedence < least) :
      Reads ending (.climb least lhs) tokens lhs tokens
  | binary {least : Nat} {lhs first rhs e : Expr} {token : Token} {op : BinaryOp}
      {tokens mid mid' rest : List Token} (sign : InfixOp.ofToken? token.kind = some (.binary op))
      (binds : least ≤ op.precedence) (operand : Reads ending .operand tokens first mid)
      (right : Reads ending (.extend (.binary op) first) mid rhs mid')
      (more : Reads ending (.climb least (.binary (.untyped token.line) op lhs rhs)) mid' e rest) :
      Reads ending (.climb least lhs) (token :: tokens) e rest
  | ternary {least : Nat} {lhs whenTrue first whenFalse e : Expr} {token colon : Token}
      {tokens mid mid' mid'' rest : List Token}
      (sign : InfixOp.ofToken? token.kind = some .question) (binds : least ≤ 2)
      (inside : Reads ending .expr tokens whenTrue (colon :: mid)) (divides : colon.kind = .colon)
      (operand : Reads ending .operand mid first mid')
      (right : Reads ending (.extend .question first) mid' whenFalse mid'')
      (more : Reads ending (.climb least (.ternary (.untyped token.line) lhs whenTrue whenFalse))
        mid'' e rest) :
      Reads ending (.climb least lhs) (token :: tokens) e rest
  | guarded {least : Nat} {lhs whenTrue e : Expr} {token : Token} {tokens mid rest : List Token}
      (sign : InfixOp.ofToken? token.kind = some .question) (binds : least ≤ 2)
      (inside : Reads ending .expr tokens whenTrue mid) (clear : ending.Clear mid)
      (alone : mid.head?.map (·.kind) ≠ some .colon)
      (more : Reads ending (.climb least (.guarded (.untyped token.line) lhs whenTrue)) mid e rest) :
      Reads ending (.climb least lhs) (token :: tokens) e rest
  | done {op : InfixOp} {rhs : Expr} {tokens : List Token} (clear : ending.Clear tokens)
      (stops : ∀ next, InfixOp.ahead? tokens = some next → op.bound? next = none) :
      Reads ending (.extend op rhs) tokens rhs tokens
  | further {op next : InfixOp} {least : Nat} {rhs rhs' e : Expr} {tokens mid rest : List Token}
      (ahead : InfixOp.ahead? tokens = some next) (bound : op.bound? next = some least)
      (inside : Reads ending (.climb least rhs) tokens rhs' mid)
      (more : Reads ending (.extend op rhs') mid e rest) :
      Reads ending (.extend op rhs) tokens e rest

/-- What an operand's reader returns can be read if its expressions can. -/
theorem reads_of_operand {e : Expr} {scan : Scan}
    (ih : ∀ tokens e scan, expr depth ⟨tokens, ending⟩ = .ok (e, scan) →
      ∃ rest, scan = ⟨rest, ending⟩ ∧ Reads ending .expr tokens e rest)
    (h : operand (depth + 1) ⟨tokens, ending⟩ = .ok (e, scan)) :
    ∃ rest, scan = ⟨rest, ending⟩ ∧ Reads ending .operand tokens e rest := by
  induction tokens generalizing e with
  | nil => cases ending <;> cases h
  | cons token tokens inner =>
    cases sign : UnaryOp.ofToken? token.kind with
    | some op =>
      by_cases hfolds : op.Folds tokens
      · obtain ⟨rfl, hnumber⟩ := hfolds
        obtain ⟨next, hnext, kind⟩ := Option.map_eq_some_iff.mp hnumber
        obtain ⟨rest, rfl⟩ := List.head?_eq_some_iff.mp hnext
        have hminus := UnaryOp.ofToken?_negate sign
        rw [operand_negative hminus kind] at h
        cases hvalue : Literal.ofDigits? true next.text with
        | none =>
          rw [hvalue] at h
          cases h
        | some value =>
          rw [hvalue] at h
          cases h
          obtain ⟨inRange, rfl⟩ := Literal.ofDigits?_true.mp hvalue
          exact ⟨rest, rfl, .negative hminus kind rfl inRange⟩
      · rw [operand_prefixed sign hfolds] at h
        cases hinner : operand (depth + 1) ⟨tokens, ending⟩ with
        | error error =>
          rw [hinner] at h
          cases h
        | ok r =>
          rw [hinner] at h
          cases h
          obtain ⟨rest, hrest, hreads⟩ := inner hinner
          exact ⟨rest, hrest, .prefixed sign hfolds hreads⟩
    | none =>
      rw [operand_single sign] at h
      rcases behind_ok h with ⟨denotes, rfl⟩ | ⟨opens, mid, hinside, hclose⟩
      · exact ⟨tokens, rfl, .single denotes⟩
      · obtain ⟨mid, rfl, inside⟩ := ih tokens e mid hinside
        obtain ⟨after, rest, closes, rfl, rfl⟩ := consume_ok hclose
        exact ⟨rest, rfl, .parens opens inside closes⟩

/-- What climbing returns can be read if what is read on the way can. -/
theorem reads_of_climb {least : Nat} {lhs e : Expr} {scan : Scan}
    (ih : ∀ (task : Task) (tokens : List Token) (e : Expr) (scan : Scan),
      task.read depth ⟨tokens, ending⟩ = .ok (e, scan) →
      ∃ rest, scan = ⟨rest, ending⟩ ∧ Reads ending task tokens e rest)
    (h : climb (depth + 1) least lhs ⟨tokens, ending⟩ = .ok (e, scan)) :
    ∃ rest, scan = ⟨rest, ending⟩ ∧ Reads ending (.climb least lhs) tokens e rest := by
  have clear : ending.Clear tokens := by
    rw [climb] at h
    obtain ⟨_, _, hpeek, _⟩ := bind_ok.mp h
    exact clear_of_peekOp hpeek
  by_cases stops : ∀ op, InfixOp.ahead? tokens = some op → op.precedence < least
  · rw [climb_stop clear stops] at h
    cases h
    exact ⟨tokens, rfl, .stop clear stops⟩
  · simp only [Classical.not_forall, Nat.not_lt] at stops
    obtain ⟨op, ahead, binds⟩ := stops
    obtain ⟨token, hhead, sign⟩ := Option.bind_eq_some_iff.mp ahead
    obtain ⟨tokens, rfl⟩ := List.head?_eq_some_iff.mp hhead
    cases op with
    | binary op =>
      rw [climb_binary sign binds] at h
      obtain ⟨first, _, hfirst, h⟩ := bind_ok.mp h
      obtain ⟨mid, rfl, operand⟩ := ih .operand _ _ _ hfirst
      obtain ⟨rhs, _, hright, hmore⟩ := bind_ok.mp h
      obtain ⟨mid', rfl, right⟩ := ih (.extend (.binary op) first) _ _ _ hright
      obtain ⟨rest, hrest, more⟩ := ih (.climb _ _) _ _ _ hmore
      exact ⟨rest, hrest, .binary sign binds operand right more⟩
    | question =>
      rw [climb_question sign binds] at h
      obtain ⟨whenTrue, _, hinside, h⟩ := bind_ok.mp h
      obtain ⟨mid, rfl, inside⟩ := ih .expr _ _ _ (within_ok.mp hinside)
      obtain ⟨kind, _, hpeek, h⟩ := bind_ok.mp h
      have hclear := clear_of_peekKind hpeek
      rw [peekKind_eq hclear] at hpeek
      cases hpeek
      split at h
      · rename_i hcolon
        obtain ⟨colon, hhead, divides⟩ := Option.map_eq_some_iff.mp hcolon
        obtain ⟨mid, rfl⟩ := List.head?_eq_some_iff.mp hhead
        obtain ⟨_, _, hadvance, h⟩ := bind_ok.mp h
        cases hadvance
        obtain ⟨first, _, hfirst, h⟩ := bind_ok.mp h
        obtain ⟨mid', rfl, operand⟩ := ih .operand _ _ _ hfirst
        obtain ⟨whenFalse, _, hright, hmore⟩ := bind_ok.mp h
        obtain ⟨mid'', rfl, right⟩ := ih (.extend .question first) _ _ _ hright
        obtain ⟨rest, hrest, more⟩ := ih (.climb _ _) _ _ _ hmore
        exact ⟨rest, hrest, .ternary sign binds inside divides operand right more⟩
      · rename_i alone
        obtain ⟨rest, hrest, more⟩ := ih (.climb _ _) _ _ _ h
        exact ⟨rest, hrest, .guarded sign binds inside hclear alone more⟩

/-- What extending returns can be read if what is read on the way can. -/
theorem reads_of_extend {op : InfixOp} {rhs e : Expr} {scan : Scan}
    (ih : ∀ (task : Task) (tokens : List Token) (e : Expr) (scan : Scan),
      task.read depth ⟨tokens, ending⟩ = .ok (e, scan) →
      ∃ rest, scan = ⟨rest, ending⟩ ∧ Reads ending task tokens e rest)
    (h : extend (depth + 1) op rhs ⟨tokens, ending⟩ = .ok (e, scan)) :
    ∃ rest, scan = ⟨rest, ending⟩ ∧ Reads ending (.extend op rhs) tokens e rest := by
  have clear : ending.Clear tokens := by
    rw [extend] at h
    obtain ⟨_, _, hpeek, _⟩ := bind_ok.mp h
    exact clear_of_peekOp hpeek
  by_cases stops : ∀ next, InfixOp.ahead? tokens = some next → op.bound? next = none
  · rw [extend_done clear stops] at h
    cases h
    exact ⟨tokens, rfl, .done clear stops⟩
  · simp only [Classical.not_forall] at stops
    obtain ⟨next, ahead, hbound⟩ := stops
    obtain ⟨least, bound⟩ := Option.ne_none_iff_exists'.mp hbound
    rw [extend_further ahead bound] at h
    obtain ⟨rhs', _, hinside, hmore⟩ := bind_ok.mp h
    obtain ⟨mid, rfl, inside⟩ := ih (.climb least rhs) _ _ _ hinside
    obtain ⟨rest, hrest, more⟩ := ih (.extend op rhs') _ _ _ hmore
    exact ⟨rest, hrest, .further ahead bound inside more⟩

theorem read_zero (task : Task) (scan : Scan) : ∃ error, task.read 0 scan = .error error := by
  cases task with
  | expr =>
    rw [Task.read, Reader.expr]
    exact ⟨_, rfl⟩
  | operand =>
    rw [Task.read, Reader.operand]
    exact ⟨_, rfl⟩
  | climb least lhs =>
    rw [Task.read, Reader.climb]
    exact ⟨_, rfl⟩
  | extend op rhs =>
    rw [Task.read, Reader.extend]
    exact ⟨_, rfl⟩

/-- What a reader returns can be read. -/
theorem reads_of_read (task : Task) (tokens : List Token) (e : Expr) (scan : Scan)
    (h : task.read depth ⟨tokens, ending⟩ = .ok (e, scan)) :
    ∃ rest, scan = ⟨rest, ending⟩ ∧ Reads ending task tokens e rest := by
  induction depth generalizing task tokens e scan with
  | zero =>
    obtain ⟨error, herror⟩ := read_zero task ⟨tokens, ending⟩
    rw [herror] at h
    cases h
  | succ depth ih =>
    cases task with
    | expr =>
      rw [Task.read, Reader.expr, within_ok] at h
      obtain ⟨lhs, _, hfirst, hmore⟩ := bind_ok.mp h
      obtain ⟨mid, rfl, first⟩ := ih .operand _ _ _ hfirst
      obtain ⟨rest, hrest, more⟩ := ih (.climb 0 lhs) _ _ _ hmore
      exact ⟨rest, hrest, .expr first more⟩
    | operand => exact reads_of_operand (ih .expr) h
    | climb least lhs => exact reads_of_climb ih h
    | extend op rhs => exact reads_of_extend ih h

/-- Whether a task takes a token for certain. -/
def Task.Moves : Task → List Token → Prop
  | expr, _ | operand, _ => True
  | climb least _, tokens => ∃ op, InfixOp.ahead? tokens = some op ∧ least ≤ op.precedence
  | extend _ _, _ => False

/-- The depth that a task needs besides two for each token. -/
def Task.slack : Task → Nat
  | operand => 0
  | expr | climb _ _ => 1
  | extend _ _ => 2

variable {task : Task} {e : Expr} {rest : List Token}

/-- What is left are not more tokens than there were, and fewer where the task moves. -/
theorem Reads.length_le (h : Reads ending task tokens e rest) :
    rest.length ≤ tokens.length ∧ (task.Moves tokens → rest.length < tokens.length) := by
  induction h with
  | expr _ _ ihfirst ihmore =>
    have hlt := ihfirst.2 trivial
    have hle := ihmore.1
    exact ⟨by omega, fun _ => by omega⟩
  | single | negative =>
    simp only [List.length_cons]
    exact ⟨by omega, fun _ => by omega⟩
  | parens _ _ _ ih | prefixed _ _ _ ih =>
    have hle := ih.1
    simp only [List.length_cons] at hle ⊢
    exact ⟨by omega, fun _ => by omega⟩
  | stop _ stops =>
    refine ⟨Nat.le_refl _, ?_⟩
    intro hmoves
    obtain ⟨op, ahead, binds⟩ := hmoves
    exact absurd (stops op ahead) (Nat.not_lt.mpr binds)
  | binary _ _ _ _ _ ihoperand ihright ihmore =>
    have h1 := ihoperand.1
    have h2 := ihright.1
    have h3 := ihmore.1
    simp only [List.length_cons]
    exact ⟨by omega, fun _ => by omega⟩
  | ternary _ _ _ _ _ _ _ ihinside ihoperand ihright ihmore =>
    have h1 := ihinside.1
    have h2 := ihoperand.1
    have h3 := ihright.1
    have h4 := ihmore.1
    simp only [List.length_cons] at h1 ⊢
    exact ⟨by omega, fun _ => by omega⟩
  | guarded _ _ _ _ _ _ ihinside ihmore =>
    have h1 := ihinside.1
    have h2 := ihmore.1
    simp only [List.length_cons]
    exact ⟨by omega, fun _ => by omega⟩
  | done => exact ⟨Nat.le_refl _, nofun⟩
  | further _ _ _ _ ihinside ihmore => exact ⟨Nat.le_trans ihmore.1 ihinside.1, nofun⟩

/-- A depth that suffices allows for a step. -/
theorem Reads.exists_depth (h : Reads ending task tokens e rest)
    (hd : 2 * tokens.length + task.slack ≤ depth + 2 * rest.length) : ∃ d, depth = d + 1 := by
  refine Nat.exists_eq_add_one.mpr ?_
  have hle := h.length_le
  cases task with
  | operand =>
    have hlt := hle.2 trivial
    omega
  | _ =>
    simp only [Task.slack] at hd
    omega

/-- What can be read is returned at every depth that suffices for the tokens taken. -/
theorem Reads.read (h : Reads ending task tokens e rest) (depth : Nat)
    (hd : 2 * tokens.length + task.slack ≤ depth + 2 * rest.length) :
    task.read depth ⟨tokens, ending⟩ = .ok (e, ⟨rest, ending⟩) := by
  induction h generalizing depth with
  | expr first more ihfirst ihmore =>
    obtain ⟨depth, rfl⟩ := (Reads.expr first more).exists_depth hd
    have hlt := first.length_le.2 trivial
    have hle := more.length_le.1
    simp only [Task.slack] at hd ihfirst ihmore
    have hfirst := ihfirst depth (by omega)
    have hmore := ihmore depth (by omega)
    rw [Task.read, Reader.expr, within_ok]
    exact bind_ok.mpr ⟨_, _, hfirst, hmore⟩
  | single denotes =>
    obtain ⟨depth, rfl⟩ := (Reads.single denotes : Reads ending _ _ _ _).exists_depth hd
    rw [Task.read, operand_single denotes.not_prefixed, behind_denotes denotes]
  | negative sign kind value inRange =>
    obtain ⟨depth, rfl⟩ :=
      (Reads.negative sign kind value inRange : Reads ending _ _ _ _).exists_depth hd
    have hdigits := Literal.ofDigits?_true.mpr ⟨Nat.le_trans (Nat.le_of_eq value) inRange, rfl⟩
    rw [Task.read, operand_negative sign kind, hdigits, value]
  | parens opens inside closes ih =>
    obtain ⟨depth, rfl⟩ := (Reads.parens opens inside closes).exists_depth hd
    simp only [Task.slack, List.length_cons] at hd ih
    have hinside := ih depth (by omega)
    exact operand_parens opens hinside closes
  | prefixed sign apart inside ih =>
    obtain ⟨depth, rfl⟩ := (Reads.prefixed sign apart inside).exists_depth hd
    simp only [Task.slack, List.length_cons] at hd ih
    have hinside : operand (depth + 1) _ = _ := ih (depth + 1) (by omega)
    rw [Task.read, operand_prefixed sign apart, hinside]
    rfl
  | stop clear stops =>
    obtain ⟨depth, rfl⟩ := (Reads.stop clear stops).exists_depth hd
    exact climb_stop clear stops
  | binary sign binds operand right more ihoperand ihright ihmore =>
    obtain ⟨depth, rfl⟩ := (Reads.binary sign binds operand right more).exists_depth hd
    have h1 := operand.length_le.2 trivial
    have h2 := right.length_le.1
    have h3 := more.length_le.1
    simp only [Task.slack, List.length_cons] at hd ihoperand ihright ihmore
    have hoperand := ihoperand depth (by omega)
    have hright := ihright depth (by omega)
    have hmore := ihmore depth (by omega)
    rw [Task.read, climb_binary sign binds]
    exact bind_ok.mpr ⟨_, _, hoperand, bind_ok.mpr ⟨_, _, hright, hmore⟩⟩
  | ternary sign binds inside divides operand right more ihinside ihoperand ihright ihmore =>
    obtain ⟨depth, rfl⟩ :=
      (Reads.ternary sign binds inside divides operand right more).exists_depth hd
    have h1 := inside.length_le.1
    have h2 := operand.length_le.2 trivial
    have h3 := right.length_le.1
    have h4 := more.length_le.1
    simp only [Task.slack, List.length_cons] at hd h1 ihinside ihoperand ihright ihmore
    have hinside := ihinside depth (by omega)
    have hoperand := ihoperand depth (by omega)
    have hright := ihright depth (by omega)
    have hmore := ihmore depth (by omega)
    rw [Task.read, climb_question sign binds]
    refine bind_ok.mpr ⟨_, _, within_ok.mpr hinside, bind_ok.mpr ⟨_, _, peekKind_eq nofun, ?_⟩⟩
    rw [List.head?_cons, Option.map_some, if_pos (congrArg some divides)]
    exact bind_ok.mpr ⟨_, _, rfl, bind_ok.mpr ⟨_, _, hoperand, bind_ok.mpr ⟨_, _, hright, hmore⟩⟩⟩
  | guarded sign binds inside clear alone more ihinside ihmore =>
    obtain ⟨depth, rfl⟩ := (Reads.guarded sign binds inside clear alone more).exists_depth hd
    have h1 := inside.length_le.1
    have h2 := more.length_le.1
    simp only [Task.slack, List.length_cons] at hd ihinside ihmore
    have hinside := ihinside depth (by omega)
    have hmore := ihmore depth (by omega)
    rw [Task.read, climb_question sign binds]
    refine bind_ok.mpr ⟨_, _, within_ok.mpr hinside, bind_ok.mpr ⟨_, _, peekKind_eq clear, ?_⟩⟩
    rw [if_neg alone]
    exact hmore
  | done clear stops =>
    obtain ⟨depth, rfl⟩ := (Reads.done clear stops).exists_depth hd
    exact extend_done clear stops
  | further ahead bound inside more ihinside ihmore =>
    obtain ⟨depth, rfl⟩ := (Reads.further ahead bound inside more).exists_depth hd
    have hlt := inside.length_le.2 ⟨_, ahead, InfixOp.le_of_bound? bound⟩
    have hle := more.length_le.1
    simp only [Task.slack] at hd ihinside ihmore
    have hinside := ihinside depth (by omega)
    have hmore := ihmore depth (by omega)
    rw [Task.read, extend_further ahead bound]
    exact bind_ok.mpr ⟨_, _, hinside, hmore⟩

end Reader

/-- What is parsed is what can be read. -/
theorem Expr.parse_ok_iff {tokens : List Token} {ending : Ending} {e : Expr} {scan : Scan} :
    Expr.parse ⟨tokens, ending⟩ = .ok (e, scan) ↔
      ∃ rest, scan = ⟨rest, ending⟩ ∧ Reader.Reads ending .expr tokens e rest := by
  constructor
  · exact Reader.reads_of_read .expr tokens e scan
  · intro h
    obtain ⟨rest, rfl, hreads⟩ := h
    apply hreads.read
    simp only [Reader.Task.slack, Reader.depthOf]
    omega

end BlockLang
