import BlockLang.Proofs.Reading.Expr
import BlockLang.Stmt.Parser

namespace BlockLang

namespace Reader

variable {α β : Type} {ending : Ending} {tokens : List Token} {depth : Nat}

/-- The reader does not run out of depth on the tokens, and what it returns and leaves satisfies the
predicate. -/
def Settles (ending : Ending) (x : Reader α) (tokens : List Token) (P : α → List Token → Prop) :
    Prop :=
  match x ⟨tokens, ending⟩ with
  | .ok (a, scan) => ∃ rest, scan = ⟨rest, ending⟩ ∧ P a rest
  | .error error => error.fault ≠ .tooDeep

/-- On the tokens the reader settles, and takes at least one of them. -/
def Takes (ending : Ending) (x : Reader α) (tokens : List Token) : Prop :=
  Settles ending x tokens fun _ rest => rest.length < tokens.length

theorem Settles.mono {x : Reader α} {P Q : α → List Token → Prop} (h : Settles ending x tokens P)
    (hPQ : ∀ a rest, P a rest → Q a rest) : Settles ending x tokens Q := by
  unfold Settles at h ⊢
  cases hx : x ⟨tokens, ending⟩ with
  | error error => rwa [hx] at h
  | ok r =>
    rw [hx] at h
    obtain ⟨rest, hrest, hP⟩ := h
    exact ⟨rest, hrest, hPQ _ _ hP⟩

theorem Settles.fault_ne {x : Reader α} {P : α → List Token → Prop} {error : ParseError}
    (h : Settles ending x tokens P) (he : x ⟨tokens, ending⟩ = .error error) :
    error.fault ≠ .tooDeep := by
  unfold Settles at h
  rwa [he] at h

theorem settles_pure {P : α → List Token → Prop} {a : α} (h : P a tokens) :
    Settles ending (pure a) tokens P :=
  ⟨tokens, rfl, h⟩

theorem settles_fail {fault : ParseFault} {offset : Nat} {P : α → List Token → Prop}
    (h : fault ≠ .tooDeep) : Settles ending (fail fault offset) tokens P :=
  h

theorem Settles.bind {x : Reader α} {f : α → Reader β} {P : α → List Token → Prop}
    {Q : β → List Token → Prop} (hx : Settles ending x tokens P)
    (hf : ∀ a rest, P a rest → Settles ending (f a) rest Q) : Settles ending (x >>= f) tokens Q := by
  unfold Settles at hx ⊢
  rw [bind_apply]
  cases hr : x ⟨tokens, ending⟩ with
  | error error => rwa [hr] at hx
  | ok r =>
    obtain ⟨a, scan⟩ := r
    rw [hr] at hx
    obtain ⟨rest, rfl, hP⟩ := hx
    exact hf a rest hP

theorem Settles.within {construct : Construct} {x : Reader α} {P : α → List Token → Prop}
    (h : Settles ending x tokens P) : Settles ending (within construct x) tokens P := by
  unfold Settles Reader.within at *
  cases hx : x ⟨tokens, ending⟩ with
  | error error => rwa [hx] at h
  | ok r => rwa [hx] at h

theorem settles_peek : Settles ending peek tokens fun next rest => next = tokens.head? ∧ rest = tokens := by
  cases tokens with
  | cons token later => exact ⟨_, rfl, rfl, rfl⟩
  | nil =>
    cases ending with
    | finished offset line => exact ⟨_, rfl, rfl, rfl⟩
    | failed error => exact nofun

theorem settles_peekKind : Settles ending peekKind tokens fun kind rest =>
    kind = tokens.head?.map (·.kind) ∧ rest = tokens :=
  settles_peek.bind fun _ _ h => settles_pure ⟨congrArg _ h.1, h.2⟩

theorem settles_peekOp : Settles ending peekOp tokens fun op rest =>
    op = InfixOp.ahead? tokens ∧ rest = tokens := by
  refine settles_peekKind.bind fun kind rest h => settles_pure ⟨?_, h.2⟩
  rw [h.1]
  cases tokens <;> rfl

/-- Where it is only seen what comes next. -/
theorem Settles.ahead {f : Option TokenKind → Reader α} {Q : α → List Token → Prop}
    (h : ∀ kind, Settles ending (f kind) tokens Q) : Settles ending (peekKind >>= f) tokens Q := by
  refine settles_peekKind.bind fun kind _ hk => ?_
  rw [hk.2]
  exact h kind

theorem settles_mark : Settles ending (Mark.untyped <$> line) tokens fun _ rest => rest = tokens := by
  cases tokens with
  | cons token later => exact ⟨_, rfl, rfl⟩
  | nil =>
    cases ending with
    | finished offset line => exact ⟨_, rfl, rfl⟩
    | failed error => exact nofun

theorem Settles.advance {x : Reader α} {Q : α → List Token → Prop}
    (h : Settles ending x tokens.tail Q) : Settles ending (advance >>= fun _ => x) tokens Q :=
  h

theorem settles_demand (wanted : Wanted) : Settles ending (demand wanted) tokens fun token rest =>
    rest = tokens ∧ ∃ later, tokens = token :: later := by
  cases tokens with
  | cons token later => exact ⟨_, rfl, rfl, later, rfl⟩
  | nil => cases ending <;> exact nofun

theorem settles_expect (kind : TokenKind) : Settles ending (expect kind) tokens fun token rest =>
    rest = tokens ∧ ∃ later, tokens = token :: later := by
  refine (settles_demand _).bind fun token rest h => ?_
  split
  · exact settles_pure h
  · exact settles_fail nofun

theorem takes_consume (kind : TokenKind) : Takes ending (consume kind) tokens := by
  refine (settles_expect kind).bind fun token rest h => ?_
  obtain ⟨rfl, later, rfl⟩ := h
  exact ⟨later, rfl, Nat.lt_succ_self _⟩

theorem length_splitPrefixes (tokens : List Token) :
    (splitPrefixes tokens).2.length ≤ tokens.length := by
  induction tokens with
  | nil => exact Nat.le_refl _
  | cons token tokens ih =>
    unfold splitPrefixes
    split
    · exact Nat.le_succ_of_le ih
    · exact Nat.le_refl _

theorem settles_literal (token : Token) (value : Literal) :
    Settles ending (literal token value) tokens fun _ _ => True :=
  .advance (settles_pure trivial)

theorem settles_intLiteral (ops : List (Nat × UnaryOp)) (token : Token) :
    Settles ending (intLiteral ops token) tokens fun _ _ => True := by
  unfold intLiteral
  dsimp only
  split
  · exact settles_fail nofun
  · exact (settles_literal token _).bind fun _ _ _ => settles_pure trivial

theorem settles_stringLiteral (token : Token) :
    Settles ending (stringLiteral token) tokens fun _ _ => True := by
  unfold stringLiteral
  split
  · exact settles_fail nofun
  · exact settles_literal token _

theorem settles_prefixed {x : Reader Expr} {P : Expr → List Token → Prop}
    (ops : List (Nat × UnaryOp)) (h : Settles ending x tokens P) :
    Settles ending (x >>= fun e => pure (Expr.applyPrefixes ops e)) tokens fun _ _ => True :=
  h.bind fun _ _ _ => settles_pure trivial

/-- What does not run out of depth reads what can be read. -/
theorem Settles.reads {task : Task} (h : Settles ending (task.read depth) tokens fun _ _ => True) :
    Settles ending (task.read depth) tokens (Reads ending task tokens) := by
  unfold Settles at h ⊢
  cases hx : task.read depth ⟨tokens, ending⟩ with
  | error error => rwa [hx] at h
  | ok r => exact reads_of_read task tokens r.1 r.2 hx

/-- What is read behind prefix operators settles if an expression between parentheses does. -/
theorem settles_behind (ops : List (Nat × UnaryOp)) (token : Token) {later : List Token}
    (ih : Settles ending (expr depth) later fun _ _ => True) :
    Settles ending (behind depth ops token) (token :: later) fun _ _ => True := by
  unfold behind
  split
  · refine .advance (ih.bind fun _ _ _ => ?_)
    exact (takes_consume _).bind fun _ _ _ => settles_pure trivial
  · exact .advance (settles_pure trivial)
  · exact settles_intLiteral ops token
  · exact settles_prefixed ops (settles_literal token _)
  · exact settles_prefixed ops (settles_stringLiteral token)
  · exact settles_prefixed ops (settles_literal token _)
  · exact settles_prefixed ops (settles_literal token _)
  · exact settles_fail nofun

theorem exists_of_ahead {op : InfixOp} (h : InfixOp.ahead? tokens = some op) :
    ∃ token later, tokens = token :: later := by
  cases tokens with
  | nil => cases h
  | cons token later => exact ⟨token, later, rfl⟩

/-- At the depth all readers of expressions settle, given two for each token and a little more. -/
def Suffices (ending : Ending) (depth : Nat) : Prop :=
  ∀ (task : Task) (tokens : List Token), 2 * tokens.length + task.slack < depth →
    Settles ending (task.read depth) tokens (Reads ending task tokens)

theorem Suffices.operand (ih : Suffices ending depth) (hd : 2 * tokens.length < depth + 1) :
    Settles ending (operand (depth + 1)) tokens fun _ _ => True := by
  have hle := length_splitPrefixes tokens
  unfold Settles
  rw [operand_eq]
  refine (settles_demand .expression).bind fun token rest h => ?_
  obtain ⟨rfl, later, hlater⟩ := h
  rw [hlater, List.length_cons] at hle
  rw [hlater]
  have hexpr := ih .expr later (by simp only [Task.slack]; omega)
  exact settles_behind _ token (hexpr.mono fun _ _ _ => trivial)

/-- The right side of an operator settles, and so does what follows it. -/
theorem Suffices.right (ih : Suffices ending depth) (hd : 2 * tokens.length < depth)
    {op : InfixOp} {k : Expr → Reader Expr}
    (hk : ∀ rhs rest, rest.length < tokens.length → Settles ending (k rhs) rest fun _ _ => True) :
    Settles ending (do
      let first ← Reader.operand depth
      let rhs ← extend depth op first
      k rhs) tokens fun _ _ => True := by
  refine (ih .operand tokens hd).bind fun first mid hfirst => ?_
  have h1 := hfirst.length_le.2 trivial
  refine (ih (.extend op first) mid (by simp only [Task.slack]; omega)).bind fun rhs rest hrhs => ?_
  have h2 := hrhs.length_le.1
  exact hk rhs rest (by omega)

theorem Suffices.climb (ih : Suffices ending depth) (least : Nat) (lhs : Expr)
    (hd : 2 * tokens.length + 1 < depth + 1) :
    Settles ending (climb (depth + 1) least lhs) tokens fun _ _ => True := by
  have more (lhs : Expr) (rest : List Token) (h : rest.length < tokens.length) :
      Settles ending (Reader.climb depth least lhs) rest fun _ _ => True :=
    (ih (.climb least lhs) rest (by simp only [Task.slack]; omega)).mono fun _ _ _ => trivial
  rw [Reader.climb]
  refine settles_peekOp.bind fun op _ h => ?_
  obtain ⟨hop, rfl⟩ := h
  cases op with
  | none => exact settles_pure trivial
  | some op =>
    obtain ⟨token, later, rfl⟩ := exists_of_ahead hop.symm
    simp only [List.length_cons] at hd more
    by_cases hlt : op.precedence < least
    · simp only [if_pos hlt]
      exact settles_pure trivial
    · simp only [if_neg hlt]
      refine settles_mark.bind fun mark _ h => ?_
      rw [h]
      refine .advance ?_
      cases op with
      | binary op =>
        refine ih.right (by rw [List.tail_cons]; omega) fun rhs rest hrest => more _ rest ?_
        exact Nat.lt_trans hrest (Nat.lt_succ_self _)
      | question =>
        have hexpr := ih .expr later (by simp only [Task.slack]; omega)
        refine hexpr.within.bind fun whenTrue mid hTrue => .ahead fun kind => ?_
        have hlt := hTrue.length_le.2 trivial
        split
        · have htail : mid.tail.length = mid.length - 1 := List.length_tail
          refine .advance (ih.right (by omega) fun whenFalse rest hrest => more _ rest ?_)
          omega
        · exact more _ mid (by omega)

theorem Suffices.extend (ih : Suffices ending depth) (op : InfixOp) (rhs : Expr)
    (hd : 2 * tokens.length + 2 < depth + 1) :
    Settles ending (extend (depth + 1) op rhs) tokens fun _ _ => True := by
  have further (least : Nat) (hmoves : (Task.climb least rhs).Moves tokens) :
      Settles ending (Reader.climb depth least rhs >>= fun rhs => Reader.extend depth op rhs) tokens
        fun _ _ => True := by
    have hclimb := ih (.climb least rhs) tokens (by simp only [Task.slack]; omega)
    refine hclimb.bind fun rhs' rest hrhs => ?_
    have hlt := hrhs.length_le.2 hmoves
    have hextend := ih (.extend op rhs') rest (by simp only [Task.slack]; omega)
    exact hextend.mono fun _ _ _ => trivial
  rw [Reader.extend]
  refine settles_peekOp.bind fun next _ h => ?_
  obtain ⟨hnext, rfl⟩ := h
  cases next with
  | none => exact settles_pure trivial
  | some next =>
    dsimp only
    split
    · rename_i hlt
      exact further _ ⟨next, hnext.symm, hlt⟩
    · split
      · rename_i heq
        exact further _ ⟨next, hnext.symm, Nat.le_of_eq heq.1⟩
      · exact settles_pure trivial

theorem suffices_depth (ending : Ending) (depth : Nat) : Suffices ending depth := by
  induction depth with
  | zero => exact nofun
  | succ depth ih =>
    intro task tokens hd
    apply Settles.reads
    cases task with
    | expr =>
      simp only [Task.slack] at hd
      rw [Task.read, expr]
      have hoperand := ih .operand tokens (by simp only [Task.slack]; omega)
      refine (hoperand.bind fun lhs rest hlhs => ?_).within
      have hlt := hlhs.length_le.2 trivial
      have hclimb := ih (.climb 0 lhs) rest (by simp only [Task.slack]; omega)
      exact hclimb.mono fun _ _ _ => trivial
    | operand => exact ih.operand hd
    | climb least lhs => exact ih.climb least lhs hd
    | extend op rhs => exact ih.extend op rhs hd

/-- A whole expression takes at least one token. -/
theorem takes_expr (hd : 2 * tokens.length + 1 < depth) : Takes ending (expr depth) tokens :=
  (suffices_depth ending depth .expr tokens hd).mono fun _ _ h => h.length_le.2 trivial

theorem takes_parenthesized (hd : 2 * tokens.length < depth) :
    Takes ending (parenthesized depth) tokens := by
  refine (takes_consume _).bind fun _ rest hrest => ?_
  refine (takes_expr (by omega)).bind fun e rest' hrest' => ?_
  exact (takes_consume _).bind fun _ rest'' hrest'' => settles_pure (by omega)

theorem takes_keyword (word : Keyword) : Takes ending (keyword word) tokens :=
  (takes_consume _).within

theorem settles_initializer? (hd : 2 * tokens.length + 1 < depth) :
    Settles ending (initializer? depth) tokens fun _ rest => rest.length ≤ tokens.length := by
  refine .ahead fun kind => ?_
  split
  · have htail : tokens.tail.length = tokens.length - 1 := List.length_tail
    refine .advance ((takes_expr (by omega)).within.bind fun e rest hrest => settles_pure ?_)
    omega
  · exact settles_pure (Nat.le_refl _)

theorem takes_declarators (ty : Ty) (hd : 2 * tokens.length < depth) :
    Takes ending (declarators ty depth) tokens := by
  induction depth generalizing tokens with
  | zero => cases hd
  | succ depth ih =>
    rw [declarators]
    refine (settles_expect _).bind fun token _ h => ?_
    obtain ⟨rfl, later, rfl⟩ := h
    simp only [List.length_cons] at hd ⊢
    refine .advance ((settles_initializer? (by rw [List.tail_cons]; omega)).bind fun init rest hrest => ?_)
    rw [List.tail_cons] at hrest
    refine .ahead fun kind => ?_
    split
    · have htail : rest.tail.length = rest.length - 1 := List.length_tail
      refine .advance ((ih (by omega)).bind fun names rest' hrest' => settles_pure ?_)
      omega
    · exact settles_pure (by omega)

theorem settles_declaration (ty : Ty) (hd : 2 * tokens.length < depth) :
    Settles ending (declaration ty depth) tokens fun _ rest => rest.length ≤ tokens.length := by
  have htail : tokens.tail.length = tokens.length - 1 := List.length_tail
  exact .advance ((takes_declarators ty (by omega)).mono fun _ rest hrest => by omega)

theorem takes_evals (hd : 2 * tokens.length + 2 < depth) : Takes ending (evals depth) tokens := by
  induction depth generalizing tokens with
  | zero => cases hd
  | succ depth ih =>
    rw [evals]
    refine (takes_expr (by omega)).bind fun e rest hrest => .ahead fun kind => ?_
    split
    · have htail : rest.tail.length = rest.length - 1 := List.length_tail
      refine .advance ((ih (by omega)).bind fun es rest' hrest' => settles_pure ?_)
      omega
    · exact settles_pure hrest

theorem settles_evalsUpTo (last : TokenKind) (hd : 2 * tokens.length + 2 < depth) :
    Settles ending (evalsUpTo last depth) tokens fun _ rest => rest.length ≤ tokens.length := by
  refine .ahead fun kind => ?_
  split
  · exact settles_pure (Nat.le_refl _)
  · exact (takes_evals hd).mono fun _ _ h => Nat.le_of_lt h

theorem settles_loopStart (hd : 2 * tokens.length + 2 < depth) :
    Settles ending (loopStart depth) tokens fun _ rest => rest.length ≤ tokens.length := by
  refine .ahead fun kind => ?_
  split
  · exact (settles_declaration _ (by omega)).bind fun _ _ h => settles_pure h
  · exact (settles_evalsUpTo _ hd).bind fun _ _ h => settles_pure h

theorem settles_loopCondition (hd : 2 * tokens.length + 1 < depth) :
    Settles ending (loopCondition depth) tokens fun _ rest => rest.length ≤ tokens.length := by
  refine .ahead fun kind => ?_
  split
  · exact settles_pure (Nat.le_refl _)
  · exact (takes_expr hd).within.bind fun _ _ h => settles_pure (Nat.le_of_lt h)

theorem takes_evalStmt (hd : 2 * tokens.length + 1 < depth) :
    Takes ending (evalStmt depth) tokens := by
  refine (takes_expr hd).bind fun e rest h => ?_
  exact (takes_consume _).bind fun _ rest' h' => settles_pure (Nat.lt_trans h' h)

theorem takes_doWhile (line : Nat) (hd : 2 * tokens.length < depth + 1)
    (ih : ∀ rest : List Token, rest.length < tokens.length → Takes ending (stmt depth) rest) :
    Takes ending (within .doWhile do
      keyword .doLoop
      let body ← stmt depth
      keyword .whileTest
      let condition ← parenthesized depth
      consume .semicolon
      return Stmt.doWhile line body condition) tokens := by
  refine Settles.within ((takes_keyword _).bind fun _ rest h => ?_)
  refine (ih rest h).bind fun body rest' h' => ?_
  refine (takes_keyword _).bind fun _ rest'' h'' => ?_
  refine (takes_parenthesized (by omega)).bind fun condition mid hmid => ?_
  exact (takes_consume _).bind fun _ mid' hmid' => settles_pure (by omega)

theorem takes_forLoop (line : Nat) (hd : 2 * tokens.length < depth + 1)
    (ih : ∀ rest : List Token, rest.length < tokens.length → Takes ending (stmt depth) rest) :
    Takes ending (within .forLoop do
      keyword .forLoop
      consume .openParen
      let (names, init) ← loopStart depth
      consume .semicolon
      let condition ← loopCondition depth
      consume .semicolon
      let update ← evalsUpTo .closeParen depth
      consume .closeParen
      let body ← stmt depth
      return Stmt.forLoop line names init condition update body) tokens := by
  refine Settles.within ((takes_keyword _).bind fun _ t1 h1 => ?_)
  refine (takes_consume _).bind fun _ t2 h2 => ?_
  refine (settles_loopStart (by omega)).bind fun start t3 h3 => ?_
  refine (takes_consume _).bind fun _ t4 h4 => ?_
  refine (settles_loopCondition (by omega)).bind fun condition t5 h5 => ?_
  refine (takes_consume _).bind fun _ t6 h6 => ?_
  refine (settles_evalsUpTo _ (by omega)).bind fun update t7 h7 => ?_
  refine (takes_consume _).bind fun _ t8 h8 => ?_
  exact (ih t8 (by omega)).bind fun body t9 h9 => settles_pure (by omega)

/-- Statements settle, and so does the rest of a block. -/
theorem takes_stmts (depth : Nat) :
    (∀ tokens : List Token, 2 * tokens.length + 2 < depth → Takes ending (stmt depth) tokens) ∧
    ∀ tokens : List Token, 2 * tokens.length + 3 < depth → Takes ending (blockRest depth) tokens := by
  induction depth with
  | zero => exact ⟨nofun, nofun⟩
  | succ depth ih =>
    obtain ⟨hstmt, hrest⟩ := ih
    constructor
    · intro tokens hd
      rw [stmt]
      refine Settles.within ((settles_demand _).bind fun token _ h => ?_)
      obtain ⟨rfl, later, rfl⟩ := h
      dsimp only
      split
      · refine .advance ((hrest later ?_).bind fun body rest h => settles_pure ?_)
        · rw [List.length_cons] at hd
          omega
        · exact Nat.lt_trans h (Nat.lt_succ_self _)
      · exact takes_doWhile _ (by omega) fun rest h => hstmt rest (by omega)
      · exact takes_forLoop _ (by omega) fun rest h => hstmt rest (by omega)
      · rw [List.length_cons] at hd
        refine .advance ((takes_parenthesized (by rw [List.tail_cons]; omega)).bind fun e rest h => ?_)
        refine (takes_consume _).bind fun _ rest' h' => settles_pure ?_
        rw [List.tail_cons] at h
        rw [List.length_cons]
        omega
      · split
        · refine (settles_declaration _ (by omega)).bind fun names rest h => ?_
          exact (takes_consume _).bind fun _ rest' h' => settles_pure (by omega)
        · exact takes_evalStmt (by omega)
    · intro tokens hd
      rw [blockRest]
      refine (settles_demand _).bind fun token _ h => ?_
      obtain ⟨rfl, later, rfl⟩ := h
      split
      · exact .advance (settles_pure (Nat.lt_succ_self _))
      · refine (hstmt _ (by omega)).bind fun first rest h => ?_
        refine (hrest rest (by omega)).bind fun body rest' h' => settles_pure ?_
        omega

theorem settles_program (hd : 2 * tokens.length + 3 < depth) :
    Settles ending (program depth) tokens fun _ _ => True := by
  induction depth generalizing tokens with
  | zero => cases hd
  | succ depth ih =>
    rw [program]
    refine settles_peek.bind fun next _ h => ?_
    obtain ⟨-, rfl⟩ := h
    split
    · exact settles_pure trivial
    · refine ((takes_stmts depth).1 _ (by omega)).bind fun first rest h => ?_
      exact (ih (by omega)).bind fun _ _ _ => settles_pure trivial

end Reader

/-- No program is refused for its nesting. -/
theorem Program.parse_ne_tooDeep {source : Source} {error : ParseError}
    (h : Program.parse source = .error error) : error.fault ≠ .tooDeep := by
  have hdepth : 2 * (Scan.ofSource source).tokens.length + 3 < Reader.depthOf (Scan.ofSource source) := by
    simp only [Reader.depthOf]
    omega
  unfold Program.parse at h
  cases hread : Reader.program (Reader.depthOf (Scan.ofSource source)) (Scan.ofSource source) with
  | ok r =>
    simp only [hread] at h
    cases h
  | error error =>
    simp only [hread] at h
    cases h
    exact (Reader.settles_program hdepth).fault_ne hread

end BlockLang
