import BlockLang.Proofs.Viable.Expr

namespace BlockLang.Reader

variable {α : Type} {depth : Nat}

/-- Expressions that stand one after another stop at these. -/
def finishing (kind : Option TokenKind) : Prop :=
  kind = some .semicolon ∨ kind = some .closeParen

theorem closing_of_finishing {kind : Option TokenKind} (h : finishing kind) : closing kind :=
  h.imp_right .inl

section Token

variable {y : Nat → Token → Reader α} {moves : Prop} {stop lead : Option TokenKind → Prop} {w : Word}

theorem expect_prepend {kind : TokenKind} {token : Token} {f : Token → Reader α}
    (hkind : token.kind = kind) (rest : Scan) : (do
      let token ← expect kind
      advance
      f token) (rest.prepend [token]) = f token rest := by
  rw [bind_apply, Scan.prepend, List.singleton_append, expect_eq hkind]
  rfl

theorem fresh_token (fair : w.Fair) (hy : Mends (fun depth => y depth w.token) stop lead []) :
    Mends (fun depth => do
      let token ← expect w.kind
      advance
      y depth token) stop (· = some w.kind) [] :=
  .start fair 0 (fun _ => expect_prepend rfl) hy

/-- Where a word has to come next and is needed. -/
theorem mendable_token (fair : w.Fair)
    (hy : ∀ token, Mendable depth (fun depth => y depth token) moves stop lead) :
    Mendable depth (fun depth => do
      let token ← expect w.kind
      advance
      y depth token) True stop (· = some w.kind) := by
  have hfresh := fresh_token fair (hy w.token).fresh
  refine ⟨fun scan => ?_, hfresh, .inl trivial⟩
  obtain ⟨tokens, ending⟩ := scan
  cases tokens with
  | nil => exact .ended 0 depth (.token w.kind) (fun _ => by cases ending <;> rfl) hfresh
  | cons token later =>
    by_cases hkind : token.kind = w.kind
    · exact .take 0 token (fun _ => expect_prepend hkind) ((hy token).outcome ⟨later, ending⟩)
    · refine .mistaken 0 depth (.token w.kind) (fun _ later ending => ?_) hfresh
      simp [expect, demand, bind_apply, Except.bind, hkind, fail]

end Token

/-- Where nothing is read if the token comes next. -/
theorem mendable_unless {y : Nat → Reader α} {lead : Option TokenKind → Prop} (last : TokenKind) (a : α)
    (hy : Mendable depth y True (· = some last) lead) (hlead : ¬ lead (some last)) :
    Mendable depth (fun depth => do if (← peekKind) = some last then return a else y depth) False
      (· = some last) (fun kind => lead kind ∨ kind = some last) := by
  have hfresh : Mends (fun depth => do if (← peekKind) = some last then return a else y depth)
      (· = some last) (· = some last) [] := .idle 0 (fun _ _ => if_present) fun _ => id
  refine ⟨fun scan => ?_, hfresh.mono (fun _ => id) fun _ => .inr, .inr fun _ => .inr⟩
  obtain hshows | ⟨error, rfl⟩ | hkind := scan.shows_or (· ≠ some last)
  · exact (Outcome.given 0 (fun _ _ => if_absent) hshows (hy.outcome scan)
      (fun _ hkind heq => hlead (heq ▸ hkind)) (.inl trivial)).mono False.elim (fun _ => id) fun _ => .inl
  · exact .unclear 0 depth fun _ => rfl
  · exact .idle 0 depth (fun _ _ => if_present) (Scan.shows_of_ahead (not_not.mp hkind) rfl)
      (fun _ => id) id

theorem mendable_parenthesized (depth : Nat) :
    Mendable depth parenthesized True anything (· = some .openParen) :=
  (mendable_single depth '(' rfl).next fun _ =>
    (exprsMendable depth).expr.bind (fun e => (mendable_single depth ')' rfl).next fun _ =>
      mendable_pure depth anything e) fun _ hkind => .inr (.inl hkind)

theorem mendable_keyword (depth : Nat) (word : Keyword) :
    Mendable depth (fun _ => keyword word) True anything (· = some (.keyword word)) :=
  (mendable_consume depth anything (Word.fair_keyword word)).within

theorem mendable_initializer? (depth : Nat) : Mendable depth initializer? False closing closing :=
  .optional _ ((exprsMendable depth).expr.within.bind (fun e => mendable_pure depth closing (some e))
    fun _ => id) (mendable_pure depth closing none) nofun

theorem fresh_declarators (ty : Ty) : Mends (declarators ty) (· = some .semicolon) naming [] := by
  refine .deepen (fun _ => rfl) (fresh_token Word.fair_filler
    ((mendable_initializer? 0).fresh.bind fun init => ?_))
  exact (Mends.optional .comma (mendable_pure 0 _ _).fresh nofun).mono (fun _ => id) fun _ => .inl

theorem mendable_declarators (ty : Ty) (depth : Nat) :
    Mendable depth (declarators ty) True (· = some .semicolon) naming := by
  induction depth with
  | zero => exact ⟨fun _ => .tooDeep rfl, fresh_declarators ty, .inl trivial⟩
  | succ depth ih =>
    refine .deepen (fun _ => rfl) (mendable_token Word.fair_filler fun token =>
      (mendable_initializer? depth).after (fun init =>
        .optional .comma (ih.bind (fun names => mendable_pure depth _ _) fun _ => id)
          (mendable_pure depth _ _) nofun) (fun _ => .inl) fun _ => .inl)

theorem fresh_evals : Mends evals finishing naming [] :=
  .deepen (fun _ => rfl) (fresh_expr.bind fun e =>
    (Mends.optional .comma (mendable_pure 0 finishing [Stmt.eval e]).fresh nofun).mono (fun _ => id)
      fun _ => closing_of_finishing)

theorem mendable_evals (depth : Nat) : Mendable depth evals True finishing naming := by
  induction depth with
  | zero => exact ⟨fun _ => .tooDeep rfl, fresh_evals, .inl trivial⟩
  | succ depth ih =>
    exact .deepen (fun _ => rfl) ((exprsMendable depth).expr.bind (fun e =>
      .optional .comma (ih.bind (fun es => mendable_pure depth finishing (Stmt.eval e :: es)) fun _ => id)
        (mendable_pure depth finishing [Stmt.eval e]) nofun) fun _ => closing_of_finishing)

theorem mendable_evalsUpTo {last : TokenKind} (hlast : finishing (some last)) (depth : Nat) :
    Mendable depth (evalsUpTo last) False (· = some last)
      (fun kind => naming kind ∨ kind = some last) := by
  refine mendable_unless last [] ((mendable_evals depth).mono ?_ fun _ => id) ?_
  · rintro kind rfl
    exact hlast
  · rintro h
    cases h
    cases hlast <;> contradiction

theorem mendable_loopCondition (depth : Nat) : Mendable depth loopCondition False (· = some .semicolon)
    (fun kind => naming kind ∨ kind = some .semicolon) :=
  mendable_unless .semicolon none ((exprsMendable depth).expr.within.bind
    (fun e => (mendable_pure depth closing (some e)).mono (fun _ => .inl) fun _ => id) fun _ => id) nofun

/-- No type comes next. -/
def Untyped (kind : Option TokenKind) : Prop :=
  kind.bind TokenKind.ty? = none

theorem loopStart_untyped {scan : Scan} (h : scan.Shows Untyped) (depth : Nat) :
    loopStart depth scan = (do return ([], ← evalsUpTo .semicolon depth)) scan := by
  have huntyped : (scan.tokens.head?.map (·.kind)).bind TokenKind.ty? = none := h.2
  rw [loopStart, bind_apply, peekKind_eq h.1]
  simp only [Except.bind, huntyped]

theorem loopStart_typed {token : Token} {ty : Ty} (hty : token.kind.ty? = some ty) (depth : Nat)
    (rest : Scan) : loopStart depth (rest.prepend [token]) =
      (do return (← declarators ty depth, [])) rest := by
  change loopStart depth ⟨token :: rest.tokens, rest.ending⟩ = _
  have htyped : ((token :: rest.tokens).head?.map (·.kind)).bind TokenKind.ty? = some ty := hty
  rw [loopStart, bind_apply, peekKind_eq (clear_cons token)]
  simp only [Except.bind, htyped]
  rfl

theorem mendable_loopStart (depth : Nat) :
    Mendable depth loopStart False (· = some .semicolon) anything := by
  have hevals : Mendable depth (fun depth => do
      return (([] : List Declarator), ← evalsUpTo .semicolon depth)) False (· = some .semicolon)
      (fun kind => naming kind ∨ kind = some .semicolon) :=
    (mendable_evalsUpTo (.inl rfl) depth).after (fun es => mendable_pure depth _ ([], es)) (fun _ => id)
      fun _ => .inr
  have hlead (kind : Option TokenKind) (h : naming kind ∨ kind = some .semicolon) : Untyped kind := by
    obtain rfl | rfl := h
    · rfl
    · rfl
  have hfresh : Mends loopStart _ _ [] :=
    hevals.fresh.given 0 (fun depth _ hrest => loopStart_untyped hrest depth) hlead
  refine ⟨fun scan => ?_, hfresh.mono (fun _ => id) fun _ _ => trivial, .inr fun _ _ => trivial⟩
  obtain huntyped | ⟨error, rfl⟩ | htyped := scan.shows_or Untyped
  · exact (Outcome.given (x := loopStart) 0 (fun depth _ hrest => loopStart_untyped hrest depth) huntyped
      (hevals.outcome scan) hlead (.inr fun _ hkind => hlead _ (.inr hkind))).mono id (fun _ => id)
      fun _ _ => trivial
  · exact .unclear 0 depth fun _ => rfl
  · obtain ⟨ty, hty⟩ := Option.ne_none_iff_exists'.mp htyped
    obtain ⟨kind, hkind, hty⟩ := Option.bind_eq_some_iff.mp hty
    obtain ⟨token, rest, rfl, rfl⟩ := Scan.exists_of_ahead hkind
    exact .take 0 token (loopStart_typed hty) (((mendable_declarators ty depth).bind
      (fun names => mendable_pure depth _ (names, [])) fun _ => id).outcome rest)

theorem mendable_semicolon {y : Nat → Reader α} {moves : Prop} {lead : Option TokenKind → Prop}
    (hy : Mendable depth y moves anything lead) :
    Mendable depth (fun depth => do consume .semicolon; y depth) True anything (· = some .semicolon) :=
  (mendable_single depth ';' rfl).next fun _ => hy

theorem mendable_ended {β : Type} {y : Nat → Reader α} {lead : Option TokenKind → Prop} {f : α → β}
    (hy : Mendable depth y True (· = some .semicolon) lead) :
    Mendable depth (fun depth => do
      let a ← y depth
      consume .semicolon
      return f a) True anything lead :=
  hy.bind (fun a => mendable_semicolon (mendable_pure depth anything (f a))) fun _ => id

theorem mendable_evalStmt (depth : Nat) : Mendable depth evalStmt True anything naming :=
  mendable_ended ((exprsMendable depth).expr.mono (fun _ => .inl) fun _ => id)

/-- What a statement's reader does at its first token. -/
def starting (depth : Nat) (token : Token) : Reader Stmt :=
  match token.kind with
  | .openBrace => do
    advance
    return .block token.line (← blockRest depth)
  | .keyword .doLoop => within .doWhile do
    keyword .doLoop
    let body ← stmt depth
    keyword .whileTest
    let condition ← parenthesized depth
    consume .semicolon
    return .doWhile token.line body condition
  | .keyword .forLoop => within .forLoop do
    keyword .forLoop
    consume .openParen
    let (names, init) ← loopStart depth
    consume .semicolon
    let condition ← loopCondition depth
    consume .semicolon
    let update ← evalsUpTo .closeParen depth
    consume .closeParen
    let body ← stmt depth
    return .forLoop token.line names init condition update body
  | .keyword .print => do
    advance
    let e ← parenthesized depth
    consume .semicolon
    return .print token.line e
  | kind =>
    match kind.ty? with
    | some ty => do
      let names ← declaration ty depth
      consume .semicolon
      return .declare token.line ty names
    | none => evalStmt depth

theorem stmt_eq (depth : Nat) :
    stmt (depth + 1) = within .statement (demand .statement >>= starting depth) := by
  rw [stmt]
  rfl

/-- An expression comes next where a statement starts, if anything does. -/
def Plain (kind : Option TokenKind) : Prop :=
  ∃ k, kind = some k ∧ ∀ depth token, token.kind = k → starting depth token = evalStmt depth

theorem starting_plain {scan : Scan} (h : scan.Shows Plain) (depth : Nat) :
    (demand .statement >>= starting depth) scan = evalStmt depth scan := by
  obtain ⟨k, hkind, hplain⟩ := h.2
  obtain ⟨token, rest, rfl, rfl⟩ := Scan.exists_of_ahead hkind
  exact congrFun (hplain depth token rfl) (rest.prepend [token])

theorem plain_of_naming {kind : Option TokenKind} (h : naming kind) : Plain kind := by
  refine ⟨_, h, fun depth token hkind => ?_⟩
  rw [starting, hkind]
  rfl

theorem keyword_prepend {construct : Construct} {word : Keyword} {token : Token} {x : Reader α}
    (hkind : token.kind = .keyword word) (rest : Scan) :
    within construct (do keyword word; x) (rest.prepend [token]) = within construct x rest := by
  rw [within, within, bind_apply, Scan.prepend, List.singleton_append, keyword_eq hkind]
  rfl

theorem fresh_starting : Mends (fun depth => demand .statement >>= starting depth) anything naming [] :=
  (mendable_evalStmt 0).fresh.given 0 (fun depth _ hrest => starting_plain hrest depth)
    fun _ => plain_of_naming

theorem fresh_stmt : Mends stmt anything naming [] :=
  fresh_starting.within.deepen stmt_eq

theorem fresh_blockRest : Mends blockRest anything anything [] := by
  have hclose : Mends blockRest anything (· = some .closeBrace) [] :=
    .start (w := .closeBrace) (Word.fair_of_single rfl) 1 (fun _ _ => rfl) (mendable_pure 0 anything []).fresh
  exact hclose.mono (fun _ => id) fun _ _ => trivial

/-- What the readers of statements have taken at the depth can be completed. -/
structure StmtsMendable (depth : Nat) : Prop where
  stmt : Mendable depth stmt True anything naming
  blockRest : Mendable depth blockRest True anything anything

/-- What follows the first word of a loop with its test at the end. -/
theorem mendable_doWhile (ih : StmtsMendable depth) (line : Nat) : Mendable depth (fun depth => do
    let body ← Reader.stmt depth
    keyword .whileTest
    let condition ← parenthesized depth
    consume .semicolon
    return Stmt.doWhile line body condition) True anything naming :=
  ih.stmt.next fun _ => (mendable_keyword depth .whileTest).next fun _ =>
    mendable_ended ((mendable_parenthesized depth).mono (fun _ _ => trivial) fun _ => id)

/-- What follows the first word of a loop with its test at the start. -/
theorem mendable_forLoop (ih : StmtsMendable depth) (line : Nat) : Mendable depth (fun depth => do
    consume .openParen
    let (names, init) ← loopStart depth
    consume .semicolon
    let condition ← loopCondition depth
    consume .semicolon
    let update ← evalsUpTo .closeParen depth
    consume .closeParen
    let body ← Reader.stmt depth
    return Stmt.forLoop line names init condition update body) True anything (· = some .openParen) := by
  have hbody (names init condition update) : Mendable depth (fun depth => do
      consume .closeParen
      let body ← Reader.stmt depth
      return Stmt.forLoop line names init condition update body) True anything (· = some .closeParen) :=
    (mendable_single depth ')' rfl).next fun _ => ih.stmt.next fun body => mendable_pure depth anything _
  have hupdate (names init condition) : Mendable depth (fun depth => do
      let update ← evalsUpTo .closeParen depth
      consume .closeParen
      let body ← Reader.stmt depth
      return Stmt.forLoop line names init condition update body) True anything _ :=
    (mendable_evalsUpTo (.inr rfl) depth).after (hbody names init condition) (fun _ => id) fun _ => .inr
  exact (mendable_single depth '(' rfl).next fun _ => (mendable_loopStart depth).after
    (fun (names, init) => mendable_semicolon ((mendable_loopCondition depth).after
      (fun condition => mendable_semicolon (hupdate names init condition)) (fun _ => id) fun _ => .inr))
    (fun _ => id) fun _ _ => trivial

theorem outcome_starting_token (token : Token) {y : Nat → Reader Stmt} {moves : Prop}
    {lead : Option TokenKind → Prop} (hy : Mendable depth y moves anything lead)
    (heq : ∀ depth, ∀ rest : Scan,
      (demand .statement >>= starting depth) (rest.prepend [token]) = y depth rest) (rest : Scan) :
    Outcome (fun depth => demand .statement >>= starting depth) True anything naming
      (rest.prepend [token]) ((demand .statement >>= starting depth) (rest.prepend [token])) :=
  .take 0 token heq (hy.outcome rest)

theorem outcome_starting (ih : StmtsMendable depth) (scan : Scan) :
    Outcome (fun depth => demand .statement >>= starting depth) True anything naming scan
      ((demand .statement >>= starting depth) scan) := by
  have hplain (hshows : scan.Shows Plain) : Outcome (fun depth => demand .statement >>= starting depth)
      True anything naming scan ((demand .statement >>= starting depth) scan) :=
    .given 0 (fun depth _ hrest => starting_plain hrest depth) hshows
      ((mendable_evalStmt depth).outcome scan) (fun _ => plain_of_naming) (.inl trivial)
  obtain ⟨tokens, ending⟩ := scan
  cases tokens with
  | nil => exact .ended 0 depth .statement (fun _ => by cases ending <;> rfl) fresh_starting
  | cons token later =>
    obtain ⟨kind, text, offset, line⟩ := token
    cases kind with
    | openBrace =>
      have hblock : Mendable depth (fun depth => do return Stmt.block line (← Reader.blockRest depth))
          True anything anything :=
        ih.blockRest.next fun body => mendable_pure depth anything (Stmt.block line body)
      exact outcome_starting_token _ hblock (fun _ _ => rfl) ⟨later, ending⟩
    | keyword word =>
      cases word with
      | doLoop =>
        exact outcome_starting_token ⟨.keyword .doLoop, text, offset, line⟩
          (mendable_doWhile ih line).within (fun _ rest => keyword_prepend rfl rest) ⟨later, ending⟩
      | forLoop =>
        exact outcome_starting_token ⟨.keyword .forLoop, text, offset, line⟩
          (mendable_forLoop ih line).within (fun _ rest => keyword_prepend rfl rest) ⟨later, ending⟩
      | print =>
        have hprint := mendable_ended (f := Stmt.print line)
          ((mendable_parenthesized depth).mono (fun _ _ => trivial) fun _ => id)
        exact outcome_starting_token _ hprint (fun _ _ => rfl) ⟨later, ending⟩
      | int | double | boolean | string =>
        exact outcome_starting_token _ (mendable_ended (mendable_declarators _ depth)) (fun _ _ => rfl)
          ⟨later, ending⟩
      | _ => exact hplain ⟨nofun, _, rfl, fun _ ⟨_, _, _, _⟩ hkind => by cases hkind; rfl⟩
    | _ => exact hplain ⟨nofun, _, rfl, fun _ ⟨_, _, _, _⟩ hkind => by cases hkind; rfl⟩

/-- Another statement of a block comes next. -/
def Inside (kind : Option TokenKind) : Prop :=
  ∃ k, kind = some k ∧ k ≠ .closeBrace

theorem blockRest_inside {scan : Scan} (h : scan.Shows Inside) (depth : Nat) :
    blockRest (depth + 1) scan =
      (do
        let first ← stmt depth
        return first :: (← blockRest depth)) scan := by
  obtain ⟨k, hkind, hne⟩ := h.2
  obtain ⟨token, rest, rfl, rfl⟩ := Scan.exists_of_ahead hkind
  rw [blockRest, bind_apply]
  exact congrFun (if_neg hne) (rest.prepend [token])

theorem outcome_blockRest (ih : StmtsMendable depth) (scan : Scan) :
    Outcome blockRest True anything anything scan (blockRest (depth + 1) scan) := by
  obtain ⟨tokens, ending⟩ := scan
  cases tokens with
  | nil => exact .ended 1 depth (.token .closeBrace) (fun _ => by cases ending <;> rfl) fresh_blockRest
  | cons token later =>
    by_cases hkind : token.kind = .closeBrace
    · refine .taken 1 depth token [] (fun depth rest => ?_) ⟨later, ending⟩
      rw [blockRest, bind_apply]
      exact congrFun (if_pos hkind) (rest.prepend [token])
    · have hmore : Mendable depth (fun depth => do
          let first ← Reader.stmt depth
          return first :: (← Reader.blockRest depth)) True anything naming :=
        ih.stmt.next fun first => ih.blockRest.next fun more =>
          mendable_pure depth anything (first :: more)
      have hshows : Scan.Shows Inside ⟨token :: later, ending⟩ :=
        Scan.shows_of_ahead rfl ⟨token.kind, rfl, hkind⟩
      exact (Outcome.given 1 (fun depth _ hrest => blockRest_inside hrest depth) hshows
        (hmore.outcome _) (fun _ hkind => ⟨.identifier, hkind, by decide⟩) (.inl trivial)).mono id
        (fun _ => id) fun _ _ => trivial

theorem stmtsMendable (depth : Nat) : StmtsMendable depth := by
  induction depth with
  | zero =>
    exact ⟨⟨fun _ => .tooDeep rfl, fresh_stmt, .inl trivial⟩,
      ⟨fun _ => .tooDeep rfl, fresh_blockRest, .inl trivial⟩⟩
  | succ depth ih =>
    have hstart : Mendable depth (fun depth => demand .statement >>= starting depth) True anything naming :=
      ⟨outcome_starting ih, fresh_starting, .inl trivial⟩
    exact ⟨hstart.within.deepen stmt_eq, ⟨outcome_blockRest ih, fresh_blockRest, .inl trivial⟩⟩

theorem program_none {scan : Scan} (h : scan.Shows (· = none)) (depth : Nat) :
    program (depth + 1) scan = .ok ([], scan) := by
  obtain ⟨tokens, ending⟩ := scan
  obtain ⟨clear, hnone⟩ := h
  cases tokens with
  | cons token later => cases hnone
  | nil =>
    rw [program, bind_apply, peek_eq clear]
    rfl

theorem program_some {scan : Scan} (h : scan.Shows (· ≠ none)) (depth : Nat) :
    program (depth + 1) scan =
      (do
        let first ← stmt depth
        return first :: (← program depth)) scan := by
  obtain ⟨kind, hkind⟩ := Option.ne_none_iff_exists'.mp h.2
  obtain ⟨token, rest, rfl, rfl⟩ := Scan.exists_of_ahead hkind
  rw [program, bind_apply]
  rfl

theorem mendable_program (depth : Nat) : Mendable depth program False (· = none) anything := by
  have hidle : Mends program (· = none) (· = none) [] :=
    .idle 1 (fun depth _ hrest => program_none hrest depth) fun _ => id
  have hfresh : Mends program (· = none) anything [] := hidle.mono (fun _ => id) fun _ _ => trivial
  induction depth with
  | zero => exact ⟨fun _ => .tooDeep rfl, hfresh, .inr fun _ _ => trivial⟩
  | succ depth ih =>
    refine ⟨fun scan => ?_, hfresh, .inr fun _ _ => trivial⟩
    obtain hnone | ⟨error, rfl⟩ | hsome := scan.shows_or (· = none)
    · exact .idle 1 depth (fun depth _ hrest => program_none hrest depth) hnone (fun _ => id) id
    · exact .unclear 1 depth fun _ => rfl
    · have hmore : Mendable depth (fun depth => do
          let first ← Reader.stmt depth
          return first :: (← program depth)) True (· = none) naming :=
        (stmtsMendable depth).stmt.next fun first => ih.after
          (fun more => mendable_pure depth _ (first :: more)) (fun _ => id) fun _ _ => trivial
      obtain ⟨kind, hkind⟩ := Option.ne_none_iff_exists'.mp hsome
      have hshows : scan.Shows (· ≠ none) := Scan.shows_of_ahead hkind nofun
      exact (Outcome.given 1 (fun depth _ hrest => program_some hrest depth) hshows (hmore.outcome scan)
        (fun _ hkind hnil => nomatch hnil ▸ hkind) (.inl trivial)).mono False.elim (fun _ => id)
        fun _ _ => trivial

end BlockLang.Reader
