import Mathlib.Logic.Basic
import BlockLang.Proofs.Viable.Outcomes

namespace BlockLang

/-- The name that stands in for a missing operand. -/
def Word.filler : Word :=
  .name "x"

theorem Word.fair_filler : filler.Fair :=
  fair_name ⟨⟨'x', [], rfl, rfl⟩, List.all_eq_true.mp rfl, rfl⟩

namespace Reader

variable {depth : Nat}

/-- No expression goes on with these. -/
def closing (kind : Option TokenKind) : Prop :=
  kind = some .semicolon ∨ kind = some .closeParen ∨ kind = some .comma

/-- A name. -/
def naming (kind : Option TokenKind) : Prop :=
  kind = some .identifier

def nothing (_ : Option TokenKind) : Prop :=
  False

theorem ahead?_eq (scan : Scan) : InfixOp.ahead? scan.tokens = scan.ahead.bind InfixOp.ofToken? := by
  unfold InfixOp.ahead? Scan.ahead
  cases scan.tokens <;> rfl

/-- No operator that binds tightly enough comes next. -/
def Stops (least : Nat) (kind : Option TokenKind) : Prop :=
  ∀ op, kind.bind InfixOp.ofToken? = some op → op.precedence < least

/-- No operator that the right side of `op` takes comes next. -/
def Ends (op : InfixOp) (kind : Option TokenKind) : Prop :=
  ∀ next, kind.bind InfixOp.ofToken? = some next → op.bound? next = none

theorem ofToken?_closing {kind : Option TokenKind} (h : closing kind) :
    kind.bind InfixOp.ofToken? = none := by
  obtain rfl | rfl | rfl := h
  · rfl
  · rfl
  · rfl

theorem stops_of_closing {kind : Option TokenKind} (least : Nat) (h : closing kind) : Stops least kind := by
  intro op hop
  rw [ofToken?_closing h] at hop
  cases hop

theorem ends_of_closing {kind : Option TokenKind} (op : InfixOp) (h : closing kind) : Ends op kind := by
  intro next hnext
  rw [ofToken?_closing h] at hnext
  cases hnext

theorem climb_stops {least : Nat} {scan : Scan} (h : scan.Shows (Stops least)) (depth : Nat) (lhs : Expr) :
    climb (depth + 1) least lhs scan = .ok (lhs, scan) :=
  climb_stop h.1 fun op hop => h.2 op (by rwa [← ahead?_eq])

theorem extend_ends {op : InfixOp} {scan : Scan} (h : scan.Shows (Ends op)) (depth : Nat) (rhs : Expr) :
    extend (depth + 1) op rhs scan = .ok (rhs, scan) :=
  extend_done h.1 fun next hnext => h.2 next (by rwa [← ahead?_eq])

/-- No prefix operator comes next. -/
def Unprefixed (scan : Scan) : Prop :=
  scan.ahead.bind UnaryOp.ofToken? = none

theorem splitPrefixes_unprefixed {scan : Scan} (h : Unprefixed scan) :
    splitPrefixes scan.tokens = ([], scan.tokens) := by
  obtain ⟨tokens, ending⟩ := scan
  cases tokens with
  | nil => rfl
  | cons token tokens =>
    have hkind : UnaryOp.ofToken? token.kind = none := h
    simp only [splitPrefixes, hkind]

/-- Prefix operators are the front of the tokens, whatever else follows them. -/
theorem exists_prefixes (tokens : List Token) (ending : Ending) : ∃ front ops, ∃ scan : Scan,
    ⟨tokens, ending⟩ = scan.prepend front ∧ Unprefixed scan ∧ ∀ rest : Scan, Unprefixed rest →
      splitPrefixes (rest.prepend front).tokens = (ops, rest.tokens) := by
  induction tokens with
  | nil => exact ⟨[], [], ⟨[], ending⟩, rfl, rfl, fun _ => splitPrefixes_unprefixed⟩
  | cons token tokens ih =>
    cases hkind : UnaryOp.ofToken? token.kind with
    | none =>
      exact ⟨[], [], ⟨token :: tokens, ending⟩, rfl, hkind, fun _ => splitPrefixes_unprefixed⟩
    | some op =>
      obtain ⟨front, ops, scan, hscan, hunprefixed, hsplit⟩ := ih
      refine ⟨token :: front, (token.line, op) :: ops, scan, ?_, hunprefixed, fun rest hrest => ?_⟩
      · change Scan.prepend [token] ⟨tokens, ending⟩ = _
        rw [hscan, ← Scan.prepend_append]
        rfl
      · change splitPrefixes (token :: (rest.prepend front).tokens) = _
        rw [splitPrefixes, hkind, hsplit rest hrest]

theorem Unprefixed.agrees {scan scan' : Scan} (h : scan.Agrees scan') (hp : Unprefixed scan) :
    Unprefixed scan' := by
  rwa [Unprefixed, Scan.ahead, h.1]

theorem unprefixed_of_naming {scan : Scan} (h : scan.Shows naming) : Unprefixed scan := by
  rw [Unprefixed, h.2]
  rfl

/-- A number is taken, or it is out of range. -/
theorem intLiteral_prepend (ops : List (Nat × UnaryOp)) (token : Token) :
    (∃ e, ∀ rest : Scan, intLiteral ops token (rest.prepend [token]) = .ok (e, rest)) ∨
      ∀ scan, intLiteral ops token scan = .error ⟨.invalidNumber token.text, token.offset, []⟩ := by
  unfold intLiteral
  cases Literal.ofDigits? (ops.getLast?.any (·.2 = .negate)) token.text with
  | none => exact .inr fun _ => rfl
  | some value => exact .inl ⟨_, fun _ => rfl⟩

/-- A text is taken, or something is wrong in it. -/
theorem stringLiteral_prepend (ops : List (Nat × UnaryOp)) (token : Token) :
    (∃ e, ∀ rest : Scan, (do return Expr.applyPrefixes ops (← stringLiteral token) : Reader Expr)
        (rest.prepend [token]) = .ok (e, rest)) ∨
      ∃ fault, ∀ scan, (do return Expr.applyPrefixes ops (← stringLiteral token) : Reader Expr) scan =
        .error ⟨.invalidString fault, token.offset, []⟩ := by
  unfold stringLiteral
  cases Escape.value token.text with
  | error fault => exact .inr ⟨fault, fun _ => rfl⟩
  | ok value => exact .inl ⟨_, fun _ => rfl⟩

theorem if_present {α : Type} {kind : TokenKind} {y z : Reader α} {scan : Scan}
    (h : scan.Shows (· = some kind)) :
    (do if (← peekKind) = some kind then y else z) scan = y scan := by
  rw [bind_apply, peekKind_eq h.1]
  exact congrFun (if_pos h.2) scan

theorem if_absent {α : Type} {kind : TokenKind} {y z : Reader α} {scan : Scan}
    (h : scan.Shows (· ≠ some kind)) :
    (do if (← peekKind) = some kind then y else z) scan = z scan := by
  rw [bind_apply, peekKind_eq h.1]
  exact congrFun (if_neg h.2) scan

theorem fresh_behind (ops : List (Nat × UnaryOp)) :
    Mends (fun depth => demand .expression >>= behind depth ops) anything naming [] := by
  refine ⟨[.filler], .applyPrefixes ops (.var (.untyped 0) "x" none),
    by simpa using Word.fair_filler, fun rest _ => ⟨fun _ => ⟨nofun, rfl⟩, .always 0 fun _ => ?_⟩⟩
  rfl

/-- An operand goes on behind its prefix operators. -/
theorem operand_prepend (front : List Token) {ops : List (Nat × UnaryOp)} {rest : Scan}
    (hsplit : splitPrefixes (rest.prepend front).tokens = (ops, rest.tokens)) (depth : Nat) :
    operand (depth + 1) (rest.prepend front) = (demand .expression >>= behind depth ops) rest := by
  have heq : operand (depth + 1) (rest.prepend front) = _ := operand_eq
  rw [heq]
  change (demand .expression >>= behind depth (splitPrefixes (rest.prepend front).tokens).1)
    ⟨(splitPrefixes (rest.prepend front).tokens).2, rest.ending⟩ = _
  rw [hsplit]

theorem fresh_operand : Mends operand anything naming [] :=
  (fresh_behind []).step [] Unprefixed 1
    (fun depth _ hrest => operand_prepend [] (splitPrefixes_unprefixed hrest) depth)
    (fun hnil => absurd rfl hnil) (fun _ => unprefixed_of_naming) fun _ _ => id

theorem fresh_climb (least : Nat) (lhs : Expr) :
    Mends (fun depth => climb depth least lhs) closing closing [] :=
  .idle 1 (fun depth _ hrest => climb_stops hrest depth lhs) fun _ => stops_of_closing least

theorem fresh_extend (op : InfixOp) (rhs : Expr) :
    Mends (fun depth => extend depth op rhs) closing closing [] :=
  .idle 1 (fun depth _ hrest => extend_ends hrest depth rhs) fun _ => ends_of_closing op

theorem fresh_expr : Mends expr closing naming [] := by
  have hbody : Mends (fun depth => operand depth >>= climb depth 0) closing naming [] :=
    fresh_operand.bind fun lhs => (fresh_climb 0 lhs).mono (fun _ => id) fun _ _ => trivial
  exact hbody.within.deepen fun _ => rfl

/-- What the readers of expressions have taken at the depth can be completed. Climbing takes a token where
it goes on, and never misses anything before it has. -/
structure ExprsMendable (depth : Nat) : Prop where
  expr : Mendable depth expr True closing naming
  operand : Mendable depth operand True anything naming
  climb : ∀ least lhs scan, Outcome (fun depth => climb depth least lhs)
    (¬ Stops least scan.ahead) closing nothing scan
    (climb depth least lhs scan)
  extend : ∀ op rhs scan, Outcome (fun depth => extend depth op rhs) False closing nothing scan
    (extend depth op rhs scan)

/-- What may come of an operand behind its prefix operators. -/
theorem outcome_behind (ih : ExprsMendable depth) (ops : List (Nat × UnaryOp)) (scan : Scan) :
    Outcome (fun depth => demand .expression >>= behind depth ops) True anything naming scan
      ((demand .expression >>= behind depth ops) scan) := by
  obtain ⟨tokens, ending⟩ := scan
  cases tokens with
  | nil => exact .ended 0 depth .expression (fun _ => by cases ending <;> rfl) (fresh_behind ops)
  | cons token later =>
    obtain ⟨kind, text, offset, line⟩ := token
    cases kind with
    | openParen =>
      have hrest : Mendable depth (fun depth => do
          let inner ← expr depth
          consume .closeParen
          return Expr.applyPrefixes ops inner) True anything naming :=
        ih.expr.bind (fun inner => (mendable_single depth ')' rfl).next fun _ =>
          mendable_pure depth anything (Expr.applyPrefixes ops inner)) fun _ hkind => .inr (.inl hkind)
      exact .take (x := fun depth => demand .expression >>= behind depth ops) 0
        ⟨.openParen, text, offset, line⟩ (fun _ _ => rfl) (hrest.outcome ⟨later, ending⟩)
    | identifier => exact .taken 0 depth _ _ (fun _ _ => rfl) ⟨later, ending⟩
    | number =>
      obtain ⟨e, he⟩ | herror := intLiteral_prepend ops ⟨.number, text, offset, line⟩
      · exact .taken 0 depth _ e (fun _ => he) ⟨later, ending⟩
      · have hx (depth : Nat) := herror ⟨⟨.number, text, offset, line⟩ :: later, ending⟩
        exact .refused 0 depth id hx
    | decimal => exact .taken 0 depth _ _ (fun _ _ => rfl) ⟨later, ending⟩
    | string =>
      obtain ⟨e, he⟩ | ⟨fault, herror⟩ := stringLiteral_prepend ops ⟨.string, text, offset, line⟩
      · exact .taken 0 depth _ e (fun _ => he) ⟨later, ending⟩
      · have hx (depth : Nat) := herror ⟨⟨.string, text, offset, line⟩ :: later, ending⟩
        exact .refused 0 depth id hx
    | keyword word =>
      cases word with
      | truth => exact .taken 0 depth _ _ (fun _ _ => rfl) ⟨later, ending⟩
      | falsehood => exact .taken 0 depth _ _ (fun _ _ => rfl) ⟨later, ending⟩
      | _ => exact .mistaken 0 depth .expression (fun _ _ _ => rfl) (fresh_behind ops)
    | _ => exact .mistaken 0 depth .expression (fun _ _ _ => rfl) (fresh_behind ops)

theorem outcome_operand (ih : ExprsMendable depth) (scan : Scan) :
    Outcome operand True anything naming scan (operand (depth + 1) scan) := by
  obtain ⟨tokens, ending⟩ := scan
  obtain ⟨front, ops, scan, hscan, hunprefixed, hsplit⟩ := exists_prefixes tokens ending
  rw [hscan]
  exact (outcome_behind ih ops scan).step front Unprefixed 1
    (fun depth rest hrest => operand_prepend front (hsplit rest hrest) depth) (fun _ _ => Unprefixed.agrees)
    hunprefixed (fun _ => unprefixed_of_naming) (.inl trivial) (fun _ _ => id) .inr

namespace ExprsMendable

theorem mendable_climb (h : ExprsMendable depth) (least : Nat) (lhs : Expr) :
    Mendable depth (fun depth => Reader.climb depth least lhs) False closing closing :=
  ⟨fun scan => (h.climb least lhs scan).mono False.elim (fun _ => id) fun _ => False.elim,
    fresh_climb least lhs, .inr fun _ => id⟩

theorem mendable_extend (h : ExprsMendable depth) (op : InfixOp) (rhs : Expr) :
    Mendable depth (fun depth => Reader.extend depth op rhs) False closing closing :=
  ⟨fun scan => (h.extend op rhs scan).mono id (fun _ => id) fun _ => False.elim,
    fresh_extend op rhs, .inr fun _ => id⟩

/-- The right side of an operator, and what is added to it all. -/
theorem mendable_side (h : ExprsMendable depth) (op : InfixOp) (least : Nat) (whole : Expr → Expr) :
    Mendable depth (fun depth => do
      let first ← Reader.operand depth
      let rhs ← Reader.extend depth op first
      Reader.climb depth least (whole rhs)) True closing naming :=
  h.operand.next fun first => (h.mendable_extend op first).after
    (fun rhs => h.mendable_climb least (whole rhs)) (fun _ => id) fun _ => id

end ExprsMendable

section Optional

variable {α : Type} {y z : Nat → Reader α} {moves : Prop} {stop lead lead' : Option TokenKind → Prop}

theorem Mends.optional (kind : TokenKind) (hz : Mends z stop lead []) (hlead : ¬ lead (some kind)) :
    Mends (fun depth => do
      if (← peekKind) = some kind then
        advance
        y depth
      else
        z depth) stop lead [] :=
  hz.given 0 (fun _ _ => if_absent) fun _ hkind heq => hlead (heq ▸ hkind)

/-- Where a token may follow behind which one reader goes on, and else another one does. -/
theorem Mendable.optional (kind : TokenKind) (hy : Mendable depth y moves stop lead)
    (hz : Mendable depth z False stop lead') (hlead : ¬ lead' (some kind)) :
    Mendable depth (fun depth => do
      if (← peekKind) = some kind then
        advance
        y depth
      else
        z depth) False stop lead' := by
  have hother (next : Option TokenKind) (h : lead' next) : next ≠ some kind :=
    fun heq => hlead (heq ▸ h)
  refine ⟨fun scan => ?_, hz.fresh.optional kind hlead, hz.idle⟩
  obtain hshows | ⟨error, rfl⟩ | hkind := scan.shows_or (· ≠ some kind)
  · exact .given 0 (fun _ _ => if_absent) hshows (hz.outcome scan) hother
      (hz.idle.imp_right fun hidle next hnext => hother next (hidle next hnext))
  · exact .unclear 0 depth fun _ => rfl
  · obtain ⟨token, rest, rfl, rfl⟩ := Scan.exists_of_ahead (not_not.mp hkind)
    exact .take 0 token (fun _ _ => if_present ⟨nofun, rfl⟩) (hy.outcome rest)

end Optional

theorem outcome_climb (ih : ExprsMendable depth) (least : Nat) (lhs : Expr) (scan : Scan) :
    Outcome (fun depth => climb depth least lhs) (¬ Stops least scan.ahead) closing nothing scan
      (climb (depth + 1) least lhs scan) := by
  obtain hstops | ⟨error, rfl⟩ | hgoes := scan.shows_or (Stops least)
  · exact .idle 1 depth (fun depth _ hrest => climb_stops hrest depth lhs) hstops
      (fun _ => stops_of_closing least) (not_not.mpr hstops.2)
  · exact .unclear 1 depth fun _ => rfl
  · simp only [Stops, not_forall] at hgoes
    obtain ⟨op, hop, binds⟩ := hgoes
    obtain ⟨kind, hkind, hop⟩ := Option.bind_eq_some_iff.mp hop
    obtain ⟨token, rest, rfl, rfl⟩ := Scan.exists_of_ahead hkind
    cases op with
    | binary op =>
      have hside := ih.mendable_side (.binary op) least fun rhs => .binary (.untyped token.line) op lhs rhs
      exact .take (x := fun depth => climb depth least lhs) 1 token
        (fun _ _ => climb_binary hop (Nat.not_lt.mp binds)) (hside.outcome rest)
    | question =>
      have hside := fun e =>
        ih.mendable_side .question least fun rhs => .ternary (.untyped token.line) lhs e rhs
      have helse := fun e => ih.mendable_climb least (.guarded (.untyped token.line) lhs e)
      have hthen : Mendable depth (fun depth => within .ternary (expr depth)) True closing naming :=
        ih.expr.within
      have hrest := hthen.bind (fun e => .optional .colon (hside e) (helse e) nofun) fun _ => id
      exact .take (x := fun depth => climb depth least lhs) 1 token
        (fun _ _ => climb_question hop (Nat.not_lt.mp binds)) (hrest.outcome rest)

theorem outcome_extend (ih : ExprsMendable depth) (op : InfixOp) (rhs : Expr) (scan : Scan) :
    Outcome (fun depth => extend depth op rhs) False closing nothing scan
      (extend (depth + 1) op rhs scan) := by
  obtain hends | ⟨error, rfl⟩ | hgoes := scan.shows_or (Ends op)
  · exact .idle 1 depth (fun depth _ hrest => extend_ends hrest depth rhs) hends
      (fun _ => ends_of_closing op) id
  · exact .unclear 1 depth fun _ => rfl
  · simp only [Ends, not_forall] at hgoes
    obtain ⟨next, hnext, hbound⟩ := hgoes
    obtain ⟨least, hleast⟩ := Option.ne_none_iff_exists'.mp hbound
    -- the operator ahead binds tightly enough, so that climbing takes it before anything is missed
    have hmoves : ¬ Stops least scan.ahead := fun h =>
      absurd (h next hnext) (Nat.not_lt.mpr (InfixOp.le_of_bound? hleast))
    have hfurther := (ih.climb least rhs scan).bind (ih.extend op) (fresh_extend op)
      (.inr fun _ => id) (fun _ => False.elim) (.inr fun _ => id) .inl
    obtain ⟨kind, hkind, hop⟩ := Option.bind_eq_some_iff.mp hnext
    refine (Outcome.given (x := fun depth => extend depth op rhs) 1 (fun _ rest hrest => ?_)
      (Scan.shows_of_ahead (p := fun kind => kind.bind InfixOp.ofToken? = some next) hkind hop) hfurther
      (fun _ => False.elim) (.inl hmoves)).mono False.elim (fun _ => id) fun _ => id
    exact extend_further ((ahead?_eq rest).trans hrest.2) hleast

/-- What the readers of expressions have taken can be completed, at any depth. -/
theorem exprsMendable (depth : Nat) : ExprsMendable depth := by
  induction depth with
  | zero =>
    exact ⟨⟨fun _ => .tooDeep rfl, fresh_expr, .inl trivial⟩, ⟨fun _ => .tooDeep rfl, fresh_operand,
      .inl trivial⟩, fun _ _ _ => .tooDeep rfl, fun _ _ _ => .tooDeep rfl⟩
  | succ depth ih =>
    have hexpr := ih.operand.next fun lhs => ih.mendable_climb 0 lhs
    exact ⟨hexpr.within.deepen fun _ => rfl, ⟨outcome_operand ih, fresh_operand, .inl trivial⟩,
      outcome_climb ih, outcome_extend ih⟩

end Reader

end BlockLang
