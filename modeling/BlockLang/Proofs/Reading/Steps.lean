import BlockLang.Expr.Parser

namespace BlockLang

/-- A token that is an operand by itself. -/
inductive Token.Denotes : Token → Expr → Prop
  | var {token : Token} (kind : token.kind = .identifier) :
      Denotes token (.var (.untyped token.line) token.text none)
  | int {token : Token} {n : Nat} (kind : token.kind = .number)
      (value : Double.digitsValue token.text.toList = n) (inRange : n < 2147483648) :
      Denotes token (.literal (.untyped token.line) (.int (Int32.ofNat n)))
  | double {token : Token} (kind : token.kind = .decimal) :
      Denotes token (.literal (.untyped token.line) (.ofDecimal token.text))
  | string {token : Token} {value : String} (kind : token.kind = .string)
      (reads : Escape.value token.text = .ok value) :
      Denotes token (.literal (.untyped token.line) (.string value))
  | truth {token : Token} (kind : token.kind = .keyword .truth) :
      Denotes token (.literal (.untyped token.line) (.boolean true))
  | falsehood {token : Token} (kind : token.kind = .keyword .falsehood) :
      Denotes token (.literal (.untyped token.line) (.boolean false))

theorem Token.Denotes.not_prefixed {token : Token} {e : Expr} (h : token.Denotes e) :
    UnaryOp.ofToken? token.kind = none := by
  cases h with
  | var kind | int kind | double kind | string kind | truth kind | falsehood kind =>
    rw [kind]
    rfl

/-- A minus is part of the int right behind it. -/
def UnaryOp.Folds (op : UnaryOp) (tokens : List Token) : Prop :=
  op = .negate ∧ tokens.head?.map (·.kind) = some .number

theorem UnaryOp.ofToken?_negate {kind : TokenKind} (h : ofToken? kind = some .negate) :
    kind = .operator .minus false := by
  unfold ofToken? at h
  split at h
  · rfl
  · cases h
  · cases h

/-- It can be seen what comes next: a token, or the end of the input. -/
def Ending.Clear (ending : Ending) (tokens : List Token) : Prop :=
  tokens = [] → ∃ offset line, ending = .finished offset line

namespace Literal

theorem ofDigits?_false {digits : String} {value : Literal} :
    ofDigits? false digits = some value ↔ Double.digitsValue digits.toList < 2147483648 ∧
      value = int (Int32.ofNat (Double.digitsValue digits.toList)) := by
  simp [ofDigits?, eq_comm]

theorem ofDigits?_true {digits : String} {value : Literal} :
    ofDigits? true digits = some value ↔ Double.digitsValue digits.toList ≤ 2147483648 ∧
      value = int (Int32.ofInt (-Double.digitsValue digits.toList)) := by
  simp [ofDigits?, eq_comm]

end Literal

namespace InfixOp

/-- The operator that comes next. -/
def ahead? (tokens : List Token) : Option InfixOp :=
  tokens.head?.bind fun token => ofToken? token.kind

/-- The least precedence of the operators that the right side of `op` takes when `next` comes
next; none if it does not take that. -/
def bound? (op next : InfixOp) : Option Nat :=
  if op.precedence < next.precedence then some (op.precedence + 1)
  else if op.precedence = next.precedence ∧ next.isRightAssociative then some op.precedence
  else none

theorem le_of_bound? {op next : InfixOp} {least : Nat} (h : op.bound? next = some least) :
    least ≤ next.precedence := by
  unfold bound? at h
  split at h
  · cases h
    assumption
  · split at h
    · rename_i hsame
      cases h
      exact Nat.le_of_eq hsame.1
    · cases h

end InfixOp

namespace Reader

variable {α β : Type} {ending : Ending} {tokens : List Token} {depth : Nat}

theorem bind_apply (x : Reader α) (f : α → Reader β) (scan : Scan) :
    (x >>= f) scan = (x scan).bind fun r => f r.1 r.2 := rfl

theorem bind_ok {x : Reader α} {f : α → Reader β} {scan rest : Scan} {b : β} :
    (x >>= f) scan = .ok (b, rest) ↔ ∃ a mid, x scan = .ok (a, mid) ∧ f a mid = .ok (b, rest) := by
  rw [bind_apply]
  cases hx : x scan with
  | error e => simp [Except.bind]
  | ok r =>
    obtain ⟨a, mid⟩ := r
    constructor
    · intro h
      exact ⟨a, mid, rfl, h⟩
    · intro h
      obtain ⟨_, _, ha, h⟩ := h
      cases ha
      exact h

theorem within_ok {construct : Construct} {x : Reader α} {scan rest : Scan} {a : α} :
    within construct x scan = .ok (a, rest) ↔ x scan = .ok (a, rest) := by
  unfold within
  cases x scan with
  | error e => simp
  | ok r => simp

theorem peek_ok {scan rest : Scan} {next : Option Token} :
    peek scan = .ok (next, rest) ↔
      scan.ending.Clear scan.tokens ∧ next = scan.tokens.head? ∧ rest = scan := by
  obtain ⟨tokens, ending⟩ := scan
  unfold peek Ending.Clear
  cases tokens with
  | cons token tokens =>
    simp [eq_comm]
  | nil =>
    cases ending with
    | finished offset line => simp [eq_comm]
    | failed error => simp

theorem peek_eq (clear : ending.Clear tokens) :
    peek ⟨tokens, ending⟩ = .ok (tokens.head?, ⟨tokens, ending⟩) :=
  peek_ok.mpr ⟨clear, rfl, rfl⟩

theorem peekKind_eq (clear : ending.Clear tokens) :
    peekKind ⟨tokens, ending⟩ = .ok (tokens.head?.map (·.kind), ⟨tokens, ending⟩) := by
  rw [peekKind, bind_apply, peek_eq clear]
  rfl

theorem peekOp_eq (clear : ending.Clear tokens) :
    peekOp ⟨tokens, ending⟩ = .ok (InfixOp.ahead? tokens, ⟨tokens, ending⟩) := by
  rw [peekOp, bind_apply, peekKind_eq clear]
  cases tokens <;> rfl

theorem clear_of_peekKind {r : Option TokenKind × Scan} (h : peekKind ⟨tokens, ending⟩ = .ok r) :
    ending.Clear tokens := by
  obtain ⟨kind, rest⟩ := r
  obtain ⟨_, _, hp, _⟩ := bind_ok.mp h
  exact (peek_ok.mp hp).1

theorem clear_of_peekOp {r : Option InfixOp × Scan} (h : peekOp ⟨tokens, ending⟩ = .ok r) :
    ending.Clear tokens := by
  obtain ⟨op, rest⟩ := r
  obtain ⟨_, _, hp, _⟩ := bind_ok.mp h
  exact clear_of_peekKind hp

theorem clear_cons (token : Token) : ending.Clear (token :: tokens) := nofun

theorem expect_eq {kind : TokenKind} {token : Token} (h : token.kind = kind) :
    expect kind ⟨token :: tokens, ending⟩ = .ok (token, ⟨token :: tokens, ending⟩) := by
  rw [expect, bind_apply]
  simp only [demand, Except.bind, if_pos h]
  rfl

theorem consume_eq {kind : TokenKind} {token : Token} (h : token.kind = kind) :
    consume kind ⟨token :: tokens, ending⟩ = .ok ((), ⟨tokens, ending⟩) := by
  rw [consume, bind_apply, expect_eq h]
  rfl

theorem consume_ok {kind : TokenKind} {scan : Scan}
    (h : consume kind ⟨tokens, ending⟩ = .ok ((), scan)) :
    ∃ token rest, token.kind = kind ∧ tokens = token :: rest ∧ scan = ⟨rest, ending⟩ := by
  obtain ⟨found, mid, hexpect, hadvance⟩ := bind_ok.mp h
  cases hadvance
  obtain ⟨_, _, hdemand, hexpect⟩ := bind_ok.mp hexpect
  cases tokens with
  | nil => cases ending <;> cases hdemand
  | cons token tokens =>
    obtain ⟨rfl, rfl⟩ := Prod.mk.inj (Except.ok.inj hdemand)
    split at hexpect
    · rename_i hkind
      cases hexpect
      exact ⟨_, _, hkind, rfl, rfl⟩
    · cases hexpect

theorem climb_stop {least : Nat} {lhs : Expr} (clear : ending.Clear tokens)
    (stops : ∀ op, InfixOp.ahead? tokens = some op → op.precedence < least) :
    climb (depth + 1) least lhs ⟨tokens, ending⟩ = .ok (lhs, ⟨tokens, ending⟩) := by
  rw [climb, bind_apply, peekOp_eq clear]
  cases hop : InfixOp.ahead? tokens with
  | none => rfl
  | some op =>
    have hlt := stops op hop
    simp only [Except.bind, if_pos hlt]
    rfl

theorem climb_binary {least : Nat} {lhs : Expr} {token : Token} {op : BinaryOp}
    (sign : InfixOp.ofToken? token.kind = some (.binary op)) (binds : least ≤ op.precedence) :
    climb (depth + 1) least lhs ⟨token :: tokens, ending⟩ = (do
      let first ← operand depth
      let rhs ← extend depth (.binary op) first
      climb depth least (.binary (.untyped token.line) op lhs rhs)) ⟨tokens, ending⟩ := by
  rw [climb, bind_apply, peekOp_eq (clear_cons token)]
  have hahead : InfixOp.ahead? (token :: tokens) = some (.binary op) := sign
  have hnot : ¬ (InfixOp.binary op).precedence < least := Nat.not_lt.mpr binds
  simp only [hahead, Except.bind, if_neg hnot]
  rfl

theorem climb_question {least : Nat} {lhs : Expr} {token : Token}
    (sign : InfixOp.ofToken? token.kind = some .question) (binds : least ≤ 2) :
    climb (depth + 1) least lhs ⟨token :: tokens, ending⟩ = (do
      let whenTrue ← within .ternary (expr depth)
      if (← peekKind) = some TokenKind.colon then
        advance
        let first ← operand depth
        let whenFalse ← extend depth .question first
        climb depth least (.ternary (.untyped token.line) lhs whenTrue whenFalse)
      else
        climb depth least (.guarded (.untyped token.line) lhs whenTrue)) ⟨tokens, ending⟩ := by
  rw [climb, bind_apply, peekOp_eq (clear_cons token)]
  have hahead : InfixOp.ahead? (token :: tokens) = some .question := sign
  have hnot : ¬ InfixOp.question.precedence < least := Nat.not_lt.mpr binds
  simp only [hahead, Except.bind, if_neg hnot]
  rfl

theorem extend_done {op : InfixOp} {rhs : Expr} (clear : ending.Clear tokens)
    (stops : ∀ next, InfixOp.ahead? tokens = some next → op.bound? next = none) :
    extend (depth + 1) op rhs ⟨tokens, ending⟩ = .ok (rhs, ⟨tokens, ending⟩) := by
  rw [extend, bind_apply, peekOp_eq clear]
  cases hop : InfixOp.ahead? tokens with
  | none => rfl
  | some next =>
    have hnone := stops next hop
    unfold InfixOp.bound? at hnone
    split at hnone
    · cases hnone
    · rename_i hlt
      split at hnone
      · cases hnone
      · rename_i heq
        simp only [Except.bind, if_neg hlt, if_neg heq]
        rfl

theorem extend_further {op next : InfixOp} {least : Nat} {rhs : Expr}
    (ahead : InfixOp.ahead? tokens = some next) (bound : op.bound? next = some least) :
    extend (depth + 1) op rhs ⟨tokens, ending⟩ =
      (climb depth least rhs >>= fun rhs => extend depth op rhs) ⟨tokens, ending⟩ := by
  have clear : ending.Clear tokens := by
    intro hnil
    subst hnil
    cases ahead
  rw [extend, bind_apply, peekOp_eq clear]
  unfold InfixOp.bound? at bound
  split at bound
  · rename_i hlt
    cases bound
    simp only [ahead, Except.bind, if_pos hlt]
  · rename_i hlt
    split at bound
    · rename_i heq
      cases bound
      simp only [ahead, Except.bind, if_neg hlt, if_pos heq]
    · cases bound

/-- What an operand's reader does at a token behind prefix operators. -/
def behind (depth : Nat) (ops : List (Nat × UnaryOp)) (token : Token) : Reader Expr :=
  match token.kind with
  | .openParen => do
    advance
    let inner ← expr depth
    consume .closeParen
    return .applyPrefixes ops inner
  | .identifier => do
    advance
    return .applyPrefixes ops (.var (.untyped token.line) token.text none)
  | .number => intLiteral ops token
  | .decimal => return .applyPrefixes ops (← literal token (.ofDecimal token.text))
  | .string => return .applyPrefixes ops (← stringLiteral token)
  | .keyword .truth => return .applyPrefixes ops (← literal token (.boolean true))
  | .keyword .falsehood => return .applyPrefixes ops (← literal token (.boolean false))
  | found => fail (.expected .expression found) token.offset

theorem operand_eq : operand (depth + 1) ⟨tokens, ending⟩ =
    (demand .expression >>= behind depth (splitPrefixes tokens).1)
      ⟨(splitPrefixes tokens).2, ending⟩ := by
  rw [operand]
  rfl

theorem splitPrefixes_eq_nil (h : (splitPrefixes tokens).1 = []) :
    splitPrefixes tokens = ([], tokens) := by
  cases tokens with
  | nil => rfl
  | cons token tokens =>
    unfold splitPrefixes at h ⊢
    split
    · rename_i hop
      simp [hop] at h
    · rfl

/-- Where `f` goes on as `g` does, up to what it makes of the result. -/
theorem bind_map {x : Reader α} {f g : α → Reader Expr} {k : Expr → Expr} {scan : Scan}
    (h : ∀ a mid, f a mid = (g a mid).map fun r => (k r.1, r.2)) :
    (x >>= f) scan = ((x >>= g) scan).map fun r => (k r.1, r.2) := by
  rw [bind_apply, bind_apply]
  cases x scan with
  | error e => rfl
  | ok r => exact h r.1 r.2

theorem intLiteral_cons {line : Nat} {op : UnaryOp} {ops : List (Nat × UnaryOp)} {token : Token}
    (apart : ops = [] → op ≠ .negate) (scan : Scan) :
    intLiteral ((line, op) :: ops) token scan =
      (intLiteral ops token scan).map fun r => (.unary (.untyped line) op r.1, r.2) := by
  have hlast : (((line, op) :: ops).getLast?.any (·.2 = .negate)) =
      ops.getLast?.any (·.2 = .negate) := by
    cases ops with
    | nil => simpa using apart
    | cons inner ops => rw [List.getLast?_cons_cons]
  unfold intLiteral
  simp only [hlast]
  cases hneg : ops.getLast?.any (·.2 = .negate) with
  | false =>
    cases Literal.ofDigits? false token.text with
    | none => rfl
    | some value => exact bind_map fun _ _ => rfl
  | true =>
    cases ops with
    | nil => cases hneg
    | cons inner ops =>
      cases Literal.ofDigits? true token.text with
      | none => rfl
      | some value => exact bind_map fun _ _ => rfl

/-- A prefix operator that is not part of an int goes around the operand behind it. -/
theorem behind_cons {line : Nat} {op : UnaryOp} {ops : List (Nat × UnaryOp)} {token : Token}
    (apart : ops = [] → op = .negate → token.kind ≠ .number) (scan : Scan) :
    behind depth ((line, op) :: ops) token scan =
      (behind depth ops token scan).map fun r => (.unary (.untyped line) op r.1, r.2) := by
  obtain ⟨kind, text, offset, line'⟩ := token
  cases kind with
  | openParen => exact bind_map fun _ _ => bind_map fun _ _ => bind_map fun _ _ => rfl
  | number => exact intLiteral_cons (fun hnil hop => apart hnil hop rfl) scan
  | string => exact bind_map fun _ _ => rfl
  | keyword word => cases word <;> rfl
  | _ => rfl

theorem operand_prefixed {token : Token} {op : UnaryOp}
    (sign : UnaryOp.ofToken? token.kind = some op) (apart : ¬ op.Folds tokens) :
    operand (depth + 1) ⟨token :: tokens, ending⟩ =
      (operand (depth + 1) ⟨tokens, ending⟩).map fun r =>
        (.unary (.untyped token.line) op r.1, r.2) := by
  have hsplit : splitPrefixes (token :: tokens) =
      ((token.line, op) :: (splitPrefixes tokens).1, (splitPrefixes tokens).2) := by
    rw [splitPrefixes, sign]
  rw [operand_eq, operand_eq, hsplit]
  cases hrest : (splitPrefixes tokens).2 with
  | nil => cases ending <;> rfl
  | cons next rest =>
    refine behind_cons ?_ _
    intro hnil hop hkind
    have htokens : tokens = next :: rest := by
      rw [splitPrefixes_eq_nil hnil] at hrest
      exact hrest
    exact apart ⟨hop, by rw [htokens, List.head?_cons, Option.map_some, hkind]⟩

/-- Where no prefix operator comes first, the operand starts with the next token. -/
theorem operand_single {token : Token} (sign : UnaryOp.ofToken? token.kind = none) :
    operand (depth + 1) ⟨token :: tokens, ending⟩ =
      behind depth [] token ⟨token :: tokens, ending⟩ := by
  rw [operand_eq, splitPrefixes, sign]
  rfl

theorem operand_negative {minus token : Token} (sign : minus.kind = .operator .minus false)
    (kind : token.kind = .number) :
    operand (depth + 1) ⟨minus :: token :: tokens, ending⟩ =
      match Literal.ofDigits? true token.text with
      | none => .error ⟨.invalidNumber token.text, token.offset, []⟩
      | some value => .ok (.literal (.untyped token.line) value, ⟨tokens, ending⟩) := by
  have hminus : UnaryOp.ofToken? minus.kind = some .negate := by
    rw [sign]
    rfl
  have htoken : UnaryOp.ofToken? token.kind = none := by
    rw [kind]
    rfl
  have hsplit : splitPrefixes (minus :: token :: tokens) =
      ([(minus.line, .negate)], token :: tokens) := by
    rw [splitPrefixes, hminus, splitPrefixes, htoken]
  have hbehind : behind depth [(minus.line, .negate)] token =
      intLiteral [(minus.line, .negate)] token := by
    rw [behind, kind]
  rw [operand_eq, hsplit]
  change behind depth [(minus.line, .negate)] token ⟨token :: tokens, ending⟩ = _
  rw [hbehind]
  cases hvalue : Literal.ofDigits? true token.text with
  | none => simp [intLiteral, hvalue, fail]
  | some value =>
    simp only [intLiteral, List.getLast?_singleton, Option.any, decide_true, hvalue]
    rfl

/-- A single token is read as what it denotes. -/
theorem behind_denotes {token : Token} {e : Expr} (denotes : token.Denotes e) :
    behind depth [] token ⟨token :: tokens, ending⟩ = .ok (e, ⟨tokens, ending⟩) := by
  unfold behind
  cases denotes with
  | var kind => simp only [kind]; rfl
  | int kind value inRange =>
    have hdigits := Literal.ofDigits?_false.mpr ⟨value ▸ inRange, rfl⟩
    simp only [kind, intLiteral, List.getLast?_nil, Option.any, hdigits, value]
    rfl
  | double kind => simp only [kind]; rfl
  | string kind reads =>
    simp only [kind, stringLiteral, reads]
    rfl
  | truth kind => simp only [kind]; rfl
  | falsehood kind => simp only [kind]; rfl

/-- What is read at a token that is no prefix operator: what the token denotes, or an expression
between parentheses. -/
theorem behind_ok {token : Token} {e : Expr} {scan : Scan}
    (h : behind depth [] token ⟨token :: tokens, ending⟩ = .ok (e, scan)) :
    (token.Denotes e ∧ scan = ⟨tokens, ending⟩) ∨
    (token.kind = .openParen ∧ ∃ mid, expr depth ⟨tokens, ending⟩ = .ok (e, mid) ∧
      consume .closeParen mid = .ok ((), scan)) := by
  obtain ⟨kind, text, offset, line⟩ := token
  cases kind with
  | openParen =>
    obtain ⟨_, _, hadvance, h⟩ := bind_ok.mp h
    cases hadvance
    obtain ⟨inner, mid, hinner, h⟩ := bind_ok.mp h
    obtain ⟨_, _, hclose, h⟩ := bind_ok.mp h
    cases h
    exact .inr ⟨rfl, mid, hinner, hclose⟩
  | identifier =>
    cases h
    exact .inl ⟨.var rfl, rfl⟩
  | number =>
    change intLiteral [] _ _ = _ at h
    simp only [intLiteral, List.getLast?_nil, Option.any] at h
    cases hvalue : Literal.ofDigits? false text with
    | none =>
      rw [hvalue] at h
      cases h
    | some value =>
      rw [hvalue] at h
      cases h
      obtain ⟨inRange, rfl⟩ := Literal.ofDigits?_false.mp hvalue
      exact .inl ⟨.int rfl rfl inRange, rfl⟩
  | decimal =>
    cases h
    exact .inl ⟨.double rfl, rfl⟩
  | string =>
    obtain ⟨_, _, hliteral, h⟩ := bind_ok.mp h
    cases h
    unfold stringLiteral at hliteral
    dsimp only at hliteral
    cases hvalue : Escape.value text with
    | error fault =>
      rw [hvalue] at hliteral
      cases hliteral
    | ok value =>
      rw [hvalue] at hliteral
      cases hliteral
      exact .inl ⟨.string rfl hvalue, rfl⟩
  | keyword word =>
    cases word with
    | truth =>
      cases h
      exact .inl ⟨.truth rfl, rfl⟩
    | falsehood =>
      cases h
      exact .inl ⟨.falsehood rfl, rfl⟩
    | _ => cases h
  | _ => cases h

theorem operand_parens {before after : Token} {rest : List Token} {e : Expr}
    (opens : before.kind = .openParen)
    (inside : expr depth ⟨tokens, ending⟩ = .ok (e, ⟨after :: rest, ending⟩))
    (closes : after.kind = .closeParen) :
    operand (depth + 1) ⟨before :: tokens, ending⟩ = .ok (e, ⟨rest, ending⟩) := by
  have sign : UnaryOp.ofToken? before.kind = none := by
    rw [opens]
    rfl
  rw [operand_single sign]
  obtain ⟨kind, text, offset, line⟩ := before
  cases opens
  exact bind_ok.mpr ⟨_, _, rfl, bind_ok.mpr ⟨_, _, inside, bind_ok.mpr ⟨_, _, consume_eq closes, rfl⟩⟩⟩

end Reader

end BlockLang
