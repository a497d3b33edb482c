import BlockLang.Proofs.Reading.Steps
import BlockLang.Proofs.Relabeling.Typing
import BlockLang.Stmt.Parser

namespace BlockLang

/-- Where tokens are moved to: new offsets and lines for the old ones. -/
structure Placing where
  offset : Nat → Nat
  line : Nat → Nat

/-- The lines of a program change with the places of its tokens, the names do not. -/
def Placing.relabeling (p : Placing) : Relabeling :=
  ⟨p.line, id, Function.injective_id⟩

/-- Prefix operators with the lines of their new places. -/
def Placing.prefixes (p : Placing) (ops : List (Nat × UnaryOp)) : List (Nat × UnaryOp) :=
  ops.map fun op => (p.line op.1, op.2)

section Places

variable (p : Placing)

def Token.place (token : Token) : Token :=
  { token with offset := p.offset token.offset, line := p.line token.line }

def Ending.place : Ending → Ending
  | finished offset line => finished (p.offset offset) (p.line line)
  | failed error => failed { error with offset := p.offset error.offset }

def Scan.place (scan : Scan) : Scan :=
  ⟨scan.tokens.map (Token.place p), scan.ending.place p⟩

/-- Only a nesting that is too deep is not reported at a place in the tokens. -/
def ParseError.place (error : ParseError) : ParseError :=
  { error with offset := if error.fault = .tooDeep then error.offset else p.offset error.offset }

end Places

namespace Reader

variable {α β : Type} {p : Placing}

/-- What is read from moved tokens, given what was read before. -/
def placed (p : Placing) (map : α → α) : Except ParseError (α × Scan) → Except ParseError (α × Scan)
  | .ok (a, scan) => .ok (map a, scan.place p)
  | .error error => .error (error.place p)

/-- The second reader does with moved tokens what the first does with the tokens. -/
def Places (p : Placing) (map : α → α) (x x' : Reader α) : Prop :=
  ∀ scan, x' (scan.place p) = placed p map (x scan)

theorem places_pure {map : α → α} (a : α) : Places p map (pure a) (pure (map a)) :=
  fun _ => rfl

theorem places_fail {map : α → α} {fault : ParseFault} (h : fault ≠ .tooDeep) (offset : Nat) :
    Places p map (fail fault offset) (fail fault (p.offset offset)) := by
  intro scan
  simp [fail, placed, ParseError.place, h]

theorem places_tooDeep {map : α → α} : Places p map (fail .tooDeep 0) (fail .tooDeep 0) :=
  fun _ => rfl

theorem Places.bind {map : α → α} {map' : β → β} {x x' : Reader α} {f f' : α → Reader β}
    (hx : Places p map x x') (hf : ∀ a, Places p map' (f a) (f' (map a))) :
    Places p map' (x >>= f) (x' >>= f') := by
  intro scan
  rw [bind_apply, bind_apply, hx scan]
  cases x scan with
  | error error => rfl
  | ok r => exact hf r.1 r.2

/-- Where the first result has no place. -/
theorem Places.next {map : β → β} {x x' : Reader α} {f f' : α → Reader β}
    (hx : Places p id x x') (hf : ∀ a, Places p map (f a) (f' a)) :
    Places p map (x >>= f) (x' >>= f') :=
  hx.bind hf

theorem Places.within {map : α → α} {construct : Construct} {x x' : Reader α}
    (h : Places p map x x') : Places p map (within construct x) (within construct x') := by
  intro scan
  unfold Reader.within
  rw [h scan]
  cases x scan <;> rfl

theorem places_peek : Places p (Option.map (Token.place p)) peek peek := by
  rintro ⟨tokens, ending⟩
  cases tokens with
  | cons token tokens => rfl
  | nil => cases ending <;> rfl

theorem places_peekKind : Places p id peekKind peekKind := by
  refine places_peek.bind fun next => ?_
  cases next with
  | none => exact places_pure none
  | some token => exact places_pure (some token.kind)

theorem places_peekOp : Places p id peekOp peekOp :=
  places_peekKind.bind fun kind => places_pure (kind.bind InfixOp.ofToken?)

theorem places_mark :
    Places p (Mark.relabel p.relabeling) (Mark.untyped <$> line) (Mark.untyped <$> line) := by
  rintro ⟨tokens, ending⟩
  cases tokens with
  | cons token tokens => rfl
  | nil => cases ending <;> rfl

theorem places_advance : Places p id advance advance := by
  rintro ⟨tokens, ending⟩
  simp [advance, placed, Scan.place]

theorem places_demand (wanted : Wanted) : Places p (Token.place p) (demand wanted) (demand wanted) := by
  rintro ⟨tokens, ending⟩
  cases tokens with
  | cons token tokens => rfl
  | nil => cases ending <;> rfl

theorem places_expect (kind : TokenKind) : Places p (Token.place p) (expect kind) (expect kind) := by
  refine (places_demand _).bind fun token => ?_
  change Places p _ _ (if token.kind = kind then pure (token.place p)
    else fail (.expected (.token kind) token.kind) (p.offset token.offset))
  split
  · exact places_pure token
  · exact places_fail (by simp) token.offset

theorem places_consume (kind : TokenKind) : Places p id (consume kind) (consume kind) :=
  (places_expect kind).bind fun _ => places_advance

theorem splitPrefixes_place (tokens : List Token) :
    splitPrefixes (tokens.map (Token.place p)) =
      (p.prefixes (splitPrefixes tokens).1, (splitPrefixes tokens).2.map (Token.place p)) := by
  induction tokens with
  | nil => rfl
  | cons token tokens ih =>
    have hkind : (token.place p).kind = token.kind := rfl
    rw [List.map_cons, splitPrefixes, splitPrefixes, ih, hkind]
    cases UnaryOp.ofToken? token.kind <;> rfl

theorem places_prefixes : Places p p.prefixes prefixes prefixes := by
  rintro ⟨tokens, ending⟩
  simp only [prefixes, Scan.place, splitPrefixes_place]
  rfl

theorem places_applied (ops : List (Nat × UnaryOp)) (e : Expr) :
    Places p (Expr.relabel p.relabeling) (pure (Expr.applyPrefixes ops e))
      (pure (Expr.applyPrefixes (p.prefixes ops) (e.relabel p.relabeling))) := by
  have hops : Expr.applyPrefixes (p.prefixes ops) (e.relabel p.relabeling) =
      (Expr.applyPrefixes ops e).relabel p.relabeling := by
    induction ops with
    | nil => rfl
    | cons op ops ih => exact congrArg (Expr.unary _ op.2) ih
  rw [hops]
  exact places_pure _

theorem places_prefixed (ops : List (Nat × UnaryOp)) {x x' : Reader Expr}
    (h : Places p (Expr.relabel p.relabeling) x x') :
    Places p (Expr.relabel p.relabeling) (x >>= fun e => pure (Expr.applyPrefixes ops e))
      (x' >>= fun e => pure (Expr.applyPrefixes (p.prefixes ops) e)) :=
  h.bind fun e => places_applied ops e

theorem places_literal (token : Token) (value : Literal) :
    Places p (Expr.relabel p.relabeling) (literal token value) (literal (token.place p) value) :=
  places_advance.next fun _ => places_pure (Expr.literal (.untyped token.line) value)

theorem places_intLiteral (ops : List (Nat × UnaryOp)) (token : Token) :
    Places p (Expr.relabel p.relabeling) (intLiteral ops token)
      (intLiteral (p.prefixes ops) (token.place p)) := by
  have hlast : (p.prefixes ops).getLast?.any (·.2 = .negate) =
      ops.getLast?.any (·.2 = .negate) := by
    rw [Placing.prefixes, List.getLast?_map]
    cases ops.getLast? <;> rfl
  have htext : (token.place p).text = token.text := rfl
  unfold intLiteral
  simp only [hlast, htext]
  cases Literal.ofDigits? (ops.getLast?.any (·.2 = .negate)) token.text with
  | none => exact places_fail (by simp) token.offset
  | some value =>
    dsimp only
    split
    · rw [Placing.prefixes, ← List.map_dropLast]
      exact places_prefixed ops.dropLast (places_literal token value)
    · exact places_prefixed ops (places_literal token value)

theorem places_stringLiteral (token : Token) :
    Places p (Expr.relabel p.relabeling) (stringLiteral token) (stringLiteral (token.place p)) := by
  have htext : (token.place p).text = token.text := rfl
  unfold stringLiteral
  rw [htext]
  cases Escape.value token.text with
  | error fault => exact places_fail (by simp) token.offset
  | ok value => exact places_literal token _

/-- At the depth all readers of expressions follow their tokens to other places. -/
structure PlacesExprs (p : Placing) (depth : Nat) : Prop where
  expr : Places p (Expr.relabel p.relabeling) (expr depth) (expr depth)
  operand : Places p (Expr.relabel p.relabeling) (operand depth) (operand depth)
  climb : ∀ least lhs, Places p (Expr.relabel p.relabeling) (climb depth least lhs)
    (climb depth least (lhs.relabel p.relabeling))
  extend : ∀ op rhs, Places p (Expr.relabel p.relabeling) (extend depth op rhs)
    (extend depth op (rhs.relabel p.relabeling))

theorem PlacesExprs.behind {depth : Nat} (ih : PlacesExprs p depth) (ops : List (Nat × UnaryOp))
    (token : Token) :
    Places p (Expr.relabel p.relabeling) (behind depth ops token)
      (behind depth (p.prefixes ops) (token.place p)) := by
  obtain ⟨kind, text, offset, line⟩ := token
  cases kind with
  | openParen =>
    refine places_advance.next fun _ => ih.expr.bind fun inner => ?_
    exact (places_consume _).next fun _ => places_applied ops inner
  | identifier =>
    refine places_advance.next fun _ => ?_
    exact places_applied ops (.var (.untyped line) text none)
  | number => exact places_intLiteral ops _
  | decimal => exact places_prefixed ops (places_literal _ _)
  | string => exact places_prefixed ops (places_stringLiteral _)
  | keyword word =>
    cases word with
    | truth | falsehood => exact places_prefixed ops (places_literal _ _)
    | _ => exact places_fail (by simp) offset
  | _ => exact places_fail (by simp) offset

theorem PlacesExprs.climbs {depth : Nat} (ih : PlacesExprs p depth) (least : Nat) (lhs : Expr) :
    Places p (Expr.relabel p.relabeling) (Reader.climb (depth + 1) least lhs)
      (Reader.climb (depth + 1) least (lhs.relabel p.relabeling)) := by
  rw [Reader.climb, Reader.climb]
  refine places_peekOp.next fun op => ?_
  cases op with
  | none => exact places_pure lhs
  | some op =>
    dsimp only
    split
    · exact places_pure lhs
    · refine places_mark.bind fun mark => places_advance.next fun _ => ?_
      cases op with
      | binary op =>
        refine ih.operand.bind fun first => (ih.extend _ first).bind fun rhs => ?_
        exact ih.climb least (.binary mark op lhs rhs)
      | question =>
        refine ih.expr.within.bind fun whenTrue => places_peekKind.next fun kind => ?_
        split
        · refine places_advance.next fun _ => ?_
          refine ih.operand.bind fun first => (ih.extend _ first).bind fun whenFalse => ?_
          exact ih.climb least (.ternary mark lhs whenTrue whenFalse)
        · exact ih.climb least (.guarded mark lhs whenTrue)

theorem PlacesExprs.extends {depth : Nat} (ih : PlacesExprs p depth) (op : InfixOp) (rhs : Expr) :
    Places p (Expr.relabel p.relabeling) (Reader.extend (depth + 1) op rhs)
      (Reader.extend (depth + 1) op (rhs.relabel p.relabeling)) := by
  rw [Reader.extend, Reader.extend]
  refine places_peekOp.next fun next => ?_
  cases next with
  | none => exact places_pure rhs
  | some next =>
    dsimp only
    split
    · exact (ih.climb _ rhs).bind fun rhs => ih.extend op rhs
    · split
      · exact (ih.climb _ rhs).bind fun rhs => ih.extend op rhs
      · exact places_pure rhs

theorem places_exprs (depth : Nat) : PlacesExprs p depth := by
  induction depth with
  | zero =>
    refine ⟨?_, ?_, fun least lhs => ?_, fun op rhs => ?_⟩
    · rw [expr]
      exact places_tooDeep
    · rw [operand]
      exact places_tooDeep
    · rw [climb, climb]
      exact places_tooDeep
    · rw [extend, extend]
      exact places_tooDeep
  | succ depth ih =>
    refine ⟨?_, ?_, ih.climbs, ih.extends⟩
    · rw [expr]
      exact (ih.operand.bind fun lhs => ih.climb 0 lhs).within
    · rw [operand]
      exact places_prefixes.bind fun ops => (places_demand _).bind fun token => ih.behind ops token

theorem places_expr (depth : Nat) :
    Places p (Expr.relabel p.relabeling) (expr depth) (expr depth) :=
  (places_exprs depth).expr

theorem places_parenthesized (depth : Nat) :
    Places p (Expr.relabel p.relabeling) (parenthesized depth) (parenthesized depth) := by
  refine (places_consume _).next fun _ => (places_expr depth).bind fun e => ?_
  exact (places_consume _).next fun _ => places_pure e

theorem places_keyword (word : Keyword) : Places p id (keyword word) (keyword word) :=
  (places_consume _).within

theorem places_initializer? (depth : Nat) :
    Places p (Option.map (Expr.relabel p.relabeling)) (initializer? depth) (initializer? depth) := by
  refine places_peekKind.next fun kind => ?_
  split
  · refine places_advance.next fun _ => (places_expr depth).within.bind fun e => ?_
    exact places_pure (some e)
  · exact places_pure none

theorem places_declarators (ty : Ty) (depth : Nat) :
    Places p (List.map (Declarator.relabel p.relabeling)) (declarators ty depth)
      (declarators ty depth) := by
  induction depth with
  | zero =>
    rw [declarators]
    exact places_tooDeep
  | succ depth ih =>
    rw [declarators]
    refine (places_expect _).bind fun token => places_advance.next fun _ => ?_
    refine (places_initializer? depth).bind fun init => places_peekKind.next fun kind => ?_
    let first : Declarator := ⟨token.line, token.text, ty, init, none⟩
    split
    · refine places_advance.next fun _ => ih.bind fun names => ?_
      exact places_pure (first :: names)
    · exact places_pure [first]

theorem places_declaration (ty : Ty) (depth : Nat) :
    Places p (List.map (Declarator.relabel p.relabeling)) (declaration ty depth)
      (declaration ty depth) :=
  places_advance.next fun _ => places_declarators ty depth

theorem places_evals (depth : Nat) :
    Places p (Stmt.relabelAll p.relabeling) (evals depth) (evals depth) := by
  induction depth with
  | zero =>
    rw [evals]
    exact places_tooDeep
  | succ depth ih =>
    rw [evals]
    refine (places_expr depth).bind fun e => places_peekKind.next fun kind => ?_
    split
    · refine places_advance.next fun _ => ih.bind fun es => ?_
      exact places_pure (Stmt.eval e :: es)
    · exact places_pure [Stmt.eval e]

theorem places_evalsUpTo (last : TokenKind) (depth : Nat) :
    Places p (Stmt.relabelAll p.relabeling) (evalsUpTo last depth) (evalsUpTo last depth) := by
  refine places_peekKind.next fun kind => ?_
  split
  · exact places_pure []
  · exact places_evals depth

theorem places_loopStart (depth : Nat) :
    Places p (Prod.map (List.map (Declarator.relabel p.relabeling)) (Stmt.relabelAll p.relabeling))
      (loopStart depth) (loopStart depth) := by
  refine places_peekKind.next fun kind => ?_
  split
  · exact (places_declaration _ depth).bind fun names => places_pure (names, [])
  · exact (places_evalsUpTo _ depth).bind fun ss => places_pure ([], ss)

theorem places_loopCondition (depth : Nat) :
    Places p (Option.map (Expr.relabel p.relabeling)) (loopCondition depth) (loopCondition depth) := by
  refine places_peekKind.next fun kind => ?_
  split
  · exact places_pure none
  · exact (places_expr depth).within.bind fun e => places_pure (some e)

theorem places_evalStmt (depth : Nat) :
    Places p (Stmt.relabel p.relabeling) (evalStmt depth) (evalStmt depth) := by
  refine (places_expr depth).bind fun e => (places_consume _).next fun _ => ?_
  exact places_pure (Stmt.eval e)

theorem places_doWhile {depth : Nat} (line : Nat)
    (ih : Places p (Stmt.relabel p.relabeling) (stmt depth) (stmt depth)) :
    Places p (Stmt.relabel p.relabeling)
      (within .doWhile do
        keyword .doLoop
        let body ← stmt depth
        keyword .whileTest
        let condition ← parenthesized depth
        consume .semicolon
        return Stmt.doWhile line body condition)
      (within .doWhile do
        keyword .doLoop
        let body ← stmt depth
        keyword .whileTest
        let condition ← parenthesized depth
        consume .semicolon
        return Stmt.doWhile (p.line line) body condition) := by
  refine ((places_keyword _).next fun _ => ih.bind fun body => ?_).within
  refine (places_keyword _).next fun _ => (places_parenthesized depth).bind fun condition => ?_
  exact (places_consume _).next fun _ => places_pure (Stmt.doWhile line body condition)

theorem places_forLoop {depth : Nat} (line : Nat)
    (ih : Places p (Stmt.relabel p.relabeling) (stmt depth) (stmt depth)) :
    Places p (Stmt.relabel p.relabeling)
      (within .forLoop do
        keyword .forLoop
        consume .openParen
        let (names, init) ← loopStart depth
        consume .semicolon
        let condition ← loopCondition depth
        consume .semicolon
        let update ← evalsUpTo .closeParen depth
        consume .closeParen
        let body ← stmt depth
        return Stmt.forLoop line names init condition update body)
      (within .forLoop do
        keyword .forLoop
        consume .openParen
        let (names, init) ← loopStart depth
        consume .semicolon
        let condition ← loopCondition depth
        consume .semicolon
        let update ← evalsUpTo .closeParen depth
        consume .closeParen
        let body ← stmt depth
        return Stmt.forLoop (p.line line) names init condition update body) := by
  refine ((places_keyword _).next fun _ => (places_consume _).next fun _ => ?_).within
  refine (places_loopStart depth).bind fun start => (places_consume _).next fun _ => ?_
  refine (places_loopCondition depth).bind fun condition => (places_consume _).next fun _ => ?_
  refine (places_evalsUpTo _ depth).bind fun update => (places_consume _).next fun _ => ?_
  refine ih.bind fun body => ?_
  exact places_pure (Stmt.forLoop line start.1 start.2 condition update body)

theorem places_stmts (depth : Nat) :
    Places p (Stmt.relabel p.relabeling) (stmt depth) (stmt depth) ∧
    Places p (Stmt.relabelAll p.relabeling) (blockRest depth) (blockRest depth) := by
  induction depth with
  | zero =>
    rw [stmt, blockRest]
    exact ⟨places_tooDeep, places_tooDeep⟩
  | succ depth ih =>
    obtain ⟨hstmt, hrest⟩ := ih
    constructor
    · rw [stmt]
      refine ((places_demand _).bind fun token => ?_).within
      obtain ⟨kind, text, offset, line⟩ := token
      have declares (ty : Ty) : Places p (Stmt.relabel p.relabeling)
          (do
            let names ← declaration ty depth
            consume .semicolon
            return Stmt.declare line ty names)
          (do
            let names ← declaration ty depth
            consume .semicolon
            return Stmt.declare (p.line line) ty names) := by
        refine (places_declaration ty depth).bind fun names => (places_consume _).next fun _ => ?_
        exact places_pure (Stmt.declare line ty names)
      cases kind with
      | openBrace =>
        refine places_advance.next fun _ => hrest.bind fun body => ?_
        exact places_pure (Stmt.block line body)
      | keyword word =>
        cases word with
        | doLoop => exact places_doWhile line hstmt
        | forLoop => exact places_forLoop line hstmt
        | print =>
          refine places_advance.next fun _ => (places_parenthesized depth).bind fun e => ?_
          exact (places_consume _).next fun _ => places_pure (Stmt.print line e)
        | int | double | boolean | string => exact declares _
        | truth | falsehood | whileTest => exact places_evalStmt depth
      | _ => exact places_evalStmt depth
    · rw [blockRest]
      refine (places_demand _).bind fun token => ?_
      change Places p _ _ (if token.kind = .closeBrace then _ else _)
      split
      · exact places_advance.next fun _ => places_pure []
      · refine hstmt.bind fun first => hrest.bind fun rest => ?_
        exact places_pure (first :: rest)

/-- Programs are read as before wherever their tokens stand. -/
theorem places_program (depth : Nat) :
    Places p (Stmt.relabelAll p.relabeling) (program depth) (program depth) := by
  induction depth with
  | zero =>
    rw [program]
    exact places_tooDeep
  | succ depth ih =>
    rw [program]
    refine places_peek.bind fun next => ?_
    cases next with
    | none => exact places_pure []
    | some token =>
      refine (places_stmts depth).1.bind fun first => ih.bind fun rest => ?_
      exact places_pure (first :: rest)

end Reader

end BlockLang
