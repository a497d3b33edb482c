import BlockLang.Proofs.Reading.Expr

namespace BlockLang

/-- The kind of token that an operator before an operand is written as. -/
def UnaryOp.token : UnaryOp → TokenKind
  | negate => .operator .minus false
  | not => .operator .bang false

namespace BinaryOp

/-- The kind of token that an operator between operands is written as. -/
def token : BinaryOp → TokenKind
  | arith .add => .operator .plus false
  | arith .subtract => .operator .minus false
  | arith .multiply => .operator .star false
  | arith .divide => .operator .slash false
  | arith .modulo => .operator .percent false
  | bit .or => .operator .pipe false
  | bit .xor => .operator .caret false
  | bit .and => .operator .and false
  | logic .and => .operator .andAnd false
  | logic .or => .operator .pipePipe false
  | compare .less => .operator .less false
  | compare .lessEqual => .operator .less true
  | compare .greater => .operator .greater false
  | compare .greaterEqual => .operator .greater true
  | compare .equal => .operator .equals true
  | compare .notEqual => .operator .bang true
  | assign => .operator .equals false

/-- The level of what an operator makes. Conditionals have level 2, operands 12. -/
def level : BinaryOp → Nat
  | assign => 1
  | logic .or => 3
  | logic .and => 4
  | bit .or => 5
  | bit .xor => 6
  | bit .and => 7
  | compare .equal | compare .notEqual => 8
  | compare _ => 9
  | arith .add | arith .subtract => 10
  | arith _ => 11

end BinaryOp

/-- What an expression of a level, from that of assignments, 1, to that of operands, 12, is written
as. One that is `opened` ends in a conditional without a false branch, to which a `:` would belong.
If the grammar is `strict`, then no assignment has such a conditional on its left. -/
inductive Derives (strict : Bool) : Nat → Bool → List Token → Expr → Prop
  | tighter {n : Nat} {opened : Bool} {tokens : List Token} {e : Expr}
      (inside : Derives strict (n + 1) opened tokens e) : Derives strict n opened tokens e
  | assign {opened opened' : Bool} {left right : List Token} {token : Token} {l r : Expr}
      (target : Derives strict 2 opened left l) (closed : strict = true → opened = false)
      (sign : token.kind = BinaryOp.assign.token) (value : Derives strict 1 opened' right r) :
      Derives strict 1 (opened || opened') (left ++ token :: right)
        (.binary (.untyped token.line) .assign l r)
  | guarded {opened : Bool} {left middle : List Token} {token : Token} {c t : Expr}
      (condition : Derives strict 3 false left c) (sign : token.kind = .operator .question false)
      (whenTrue : Derives strict 1 opened middle t) :
      Derives strict 2 true (left ++ token :: middle) (.guarded (.untyped token.line) c t)
  | ternary {opened : Bool} {left middle right : List Token} {token colon : Token} {c t f : Expr}
      (condition : Derives strict 3 false left c) (sign : token.kind = .operator .question false)
      (whenTrue : Derives strict 1 false middle t) (divides : colon.kind = .colon)
      (whenFalse : Derives strict 2 opened right f) :
      Derives strict 2 opened (left ++ token :: (middle ++ colon :: right))
        (.ternary (.untyped token.line) c t f)
  | binary {op : BinaryOp} {left right : List Token} {token : Token} {l r : Expr}
      (infixed : op ≠ .assign) (lhs : Derives strict op.level false left l)
      (sign : token.kind = op.token) (rhs : Derives strict (op.level + 1) false right r) :
      Derives strict op.level false (left ++ token :: right)
        (.binary (.untyped token.line) op l r)
  | prefixed {op : UnaryOp} {tokens : List Token} {token : Token} {e : Expr}
      (sign : token.kind = op.token) (apart : ¬ op.Folds tokens)
      (inside : Derives strict 12 false tokens e) :
      Derives strict 12 false (token :: tokens) (.unary (.untyped token.line) op e)
  | negative {minus token : Token} {n : Nat} (sign : minus.kind = .operator .minus false)
      (kind : token.kind = .number) (value : Double.digitsValue token.text.toList = n)
      (inRange : n ≤ 2147483648) :
      Derives strict 12 false [minus, token]
        (.literal (.untyped token.line) (.int (Int32.ofInt (-n))))
  | single {token : Token} {e : Expr} (denotes : token.Denotes e) :
      Derives strict 12 false [token] e
  | parens {opened : Bool} {tokens : List Token} {before after : Token} {e : Expr}
      (opens : before.kind = .openParen) (inside : Derives strict 1 opened tokens e)
      (closes : after.kind = .closeParen) :
      Derives strict 12 false (before :: (tokens ++ [after])) e

/-- What stands there does not go on with an expression: no operator, and no `:` if that would belong
to the expression. -/
def Scan.Stops (opened : Bool) (scan : Scan) : Prop :=
  match scan.tokens with
  | [] => ∃ offset line, scan.ending = .finished offset line
  | token :: _ => (∀ op : BinaryOp, token.kind ≠ op.token) ∧
    token.kind ≠ .operator .question false ∧ (opened = true → token.kind ≠ .colon)

theorem UnaryOp.ofToken?_iff {kind : TokenKind} {op : UnaryOp} :
    ofToken? kind = some op ↔ kind = op.token := by
  constructor
  · intro h
    unfold ofToken? at h
    split at h <;> cases h <;> rfl
  · intro heq
    subst heq
    cases op <;> rfl

theorem BinaryOp.ofToken?_iff {kind : TokenKind} {op : BinaryOp} :
    ofToken? kind = some op ↔ kind = op.token := by
  constructor
  · intro h
    unfold ofToken? at h
    split at h <;> cases h <;> rfl
  · intro heq
    subst heq
    cases op with
    | arith op | bit op | logic op | compare op => cases op <;> rfl
    | assign => rfl

namespace InfixOp

def level : InfixOp → Nat
  | binary op => op.level
  | question => 2

/-- The level of what an operator has on its left. -/
def leftLevel (op : InfixOp) : Nat :=
  if op.isRightAssociative then op.level + 1 else op.level

/-- The level of what an operator has on its right. -/
def rightLevel (op : InfixOp) : Nat :=
  if op.isRightAssociative then op.level else op.level + 1

/-- The least precedence of an operator on the right side of another. -/
def bound (op : InfixOp) : Nat :=
  if op.isRightAssociative then op.precedence else op.precedence + 1

theorem ofToken?_binary {kind : TokenKind} {op : BinaryOp} :
    ofToken? kind = some (.binary op) ↔ kind = op.token := by
  rw [← BinaryOp.ofToken?_iff]
  unfold ofToken?
  split
  · simp [BinaryOp.ofToken?]
  · simp

theorem ofToken?_question {kind : TokenKind} :
    ofToken? kind = some .question ↔ kind = .operator .question false := by
  unfold ofToken?
  split
  · simp
  · simpa using ‹_›

theorem ofToken?_eq_none_iff {kind : TokenKind} :
    ofToken? kind = none ↔
      (∀ op : BinaryOp, kind ≠ op.token) ∧ kind ≠ .operator .question false := by
  rw [Option.eq_none_iff_forall_ne_some]
  constructor
  · intro h
    exact ⟨fun op hop => h _ (ofToken?_binary.mpr hop), fun hq => h _ (ofToken?_question.mpr hq)⟩
  · intro h op hop
    cases op with
    | binary op => exact h.1 op (ofToken?_binary.mp hop)
    | question => exact h.2 (ofToken?_question.mp hop)

/-- Every precedence is that of its level, and one more from level 10 on. -/
theorem precedence_eq (op : InfixOp) :
    1 ≤ op.level ∧ op.level ≤ 11 ∧
      op.precedence = (if op.level ≤ 9 then op.level else op.level + 1) := by
  cases op with
  | question => decide
  | binary op =>
    cases op with
    | arith op | bit op | logic op | compare op => cases op <;> decide
    | assign => decide

theorem isRightAssociative_iff (op : InfixOp) : op.isRightAssociative = true ↔ op.level ≤ 2 := by
  cases op with
  | question => decide
  | binary op =>
    cases op with
    | arith op | bit op | logic op | compare op => cases op <;> decide
    | assign => decide

theorem leftLevel_eq (op : InfixOp) :
    op.leftLevel = if op.level ≤ 2 then op.level + 1 else op.level := by
  unfold leftLevel
  simp only [isRightAssociative_iff]

theorem rightLevel_eq (op : InfixOp) :
    op.rightLevel = if op.level ≤ 2 then op.level else op.level + 1 := by
  unfold rightLevel
  simp only [isRightAssociative_iff]

theorem bound_eq (op : InfixOp) :
    op.bound = if op.level ≤ 2 then op.precedence else op.precedence + 1 := by
  unfold bound
  simp only [isRightAssociative_iff]

/-- The right side of an operator takes those that its precedence bounds. -/
theorem bound?_eq_none_iff (op next : InfixOp) :
    op.bound? next = none ↔ next.precedence < op.bound := by
  obtain ⟨_, _, hop⟩ := op.precedence_eq
  obtain ⟨_, _, hnext⟩ := next.precedence_eq
  rw [bound_eq]
  unfold bound?
  simp only [isRightAssociative_iff]
  grind

theorem lt_bound_iff (op next : InfixOp) : next.precedence < op.bound ↔ next.leftLevel ≤ op.level := by
  obtain ⟨_, _, hop⟩ := op.precedence_eq
  obtain ⟨_, _, hnext⟩ := next.precedence_eq
  rw [bound_eq, leftLevel_eq]
  grind

theorem bound_le_iff (op next : InfixOp) : op.bound ≤ next.precedence ↔ op.rightLevel ≤ next.level := by
  obtain ⟨_, _, hop⟩ := op.precedence_eq
  obtain ⟨_, _, hnext⟩ := next.precedence_eq
  rw [bound_eq, rightLevel_eq]
  grind

theorem precedence_le_iff (op next : InfixOp) :
    op.precedence ≤ next.precedence ↔ op.level ≤ next.level := by
  obtain ⟨_, _, hop⟩ := op.precedence_eq
  obtain ⟨_, _, hnext⟩ := next.precedence_eq
  grind

/-- What a right side takes next is on a level of its own. -/
theorem exists_level_of_bound? {op next : InfixOp} {least : Nat} (h : op.bound? next = some least) :
    ∃ n, op.rightLevel ≤ n ∧ n ≤ next.level ∧
      ∀ other : InfixOp, least ≤ other.precedence ↔ n ≤ other.level := by
  have hprec := precedence_le_iff op
  have hprec' := fun other => precedence_le_iff other op
  unfold bound? at h
  rw [rightLevel_eq]
  split at h
  · rename_i hlt
    cases h
    refine ⟨op.level + 1, by grind, by grind, ?_⟩
    intro other
    have hother := hprec' other
    grind
  · rename_i hlt
    split at h
    · rename_i hsame
      cases h
      have hright := (isRightAssociative_iff next).mp hsame.2
      exact ⟨op.level, by grind, by grind, hprec⟩
    · cases h

theorem level_le_leftLevel (op : InfixOp) : op.level ≤ op.leftLevel := by
  rw [leftLevel_eq]
  grind

theorem leftLevel_le (op : InfixOp) : op.leftLevel ≤ 12 := by
  obtain ⟨_, hlevel, _⟩ := op.precedence_eq
  rw [leftLevel_eq]
  grind

theorem rightLevel_le (op : InfixOp) : op.rightLevel ≤ 12 := by
  obtain ⟨_, hlevel, _⟩ := op.precedence_eq
  rw [rightLevel_eq]
  grind

theorem two_le_leftLevel (op : InfixOp) : 2 ≤ op.leftLevel := by
  obtain ⟨hlevel, _, _⟩ := op.precedence_eq
  rw [leftLevel_eq]
  grind

/-- All but the assignment take on their left what they make, and on their right what binds more
tightly. -/
theorem levels_of_ne_assign {op : BinaryOp} (h : op ≠ .assign) :
    2 < op.level ∧ (binary op).leftLevel = op.level ∧ (binary op).rightLevel = op.level + 1 := by
  cases op with
  | arith op | bit op | logic op | compare op => cases op <;> decide
  | assign => exact absurd rfl h

end InfixOp

namespace Derives

variable {strict : Bool} {n m : Nat} {opened : Bool} {tokens : List Token} {e : Expr}

/-- What binds tightly can stand where what binds less tightly can. -/
theorem weaken (h : Derives strict m opened tokens e) (hn : n ≤ m) :
    Derives strict n opened tokens e := by
  induction hn with
  | refl => exact h
  | step _ ih => exact ih (.tighter h)

/-- Only conditionals and assignments can be opened. -/
theorem closed (h : Derives strict n opened tokens e) (hn : 3 ≤ n) : opened = false := by
  induction h with
  | tighter _ ih => exact ih (Nat.le_succ_of_le hn)
  | assign | guarded | ternary => omega
  | _ => rfl

theorem ne_nil (h : Derives strict n opened tokens e) : tokens ≠ [] := by
  induction h with
  | tighter _ ih => exact ih
  | _ => simp

/-- A binary operator with what it has on its left and on its right. -/
theorem infixed {op : BinaryOp} {left right : List Token} {token : Token} {l r : Expr}
    (lhs : Derives strict (InfixOp.binary op).leftLevel false left l) (sign : token.kind = op.token)
    (rhs : Derives strict (InfixOp.binary op).rightLevel opened right r) :
    Derives strict op.level opened (left ++ token :: right)
      (.binary (.untyped token.line) op l r) := by
  by_cases hop : op = .assign
  · subst hop
    exact .assign lhs (fun _ => rfl) sign rhs
  · obtain ⟨hlevel, hleft, hright⟩ := InfixOp.levels_of_ne_assign hop
    rw [hleft] at lhs
    rw [hright] at rhs
    obtain rfl := rhs.closed (Nat.le_succ_of_le hlevel)
    exact .binary hop lhs sign rhs

end Derives

/-- Whether a minus is part of an int is decided by the next token. -/
theorem UnaryOp.folds_append {op : UnaryOp} {taken : List Token} (hne : taken ≠ [])
    (rest : List Token) : op.Folds (taken ++ rest) ↔ op.Folds taken := by
  cases taken with
  | nil => exact absurd rfl hne
  | cons token taken => rfl

namespace Reader

/-- An expression of a level can be on the left of what comes next, and has an end where one is
needed. -/
structure Fits (ending : Ending) (level : Nat) (opened : Bool) (tokens : List Token) : Prop where
  clear : ending.Clear tokens
  left : ∀ op, InfixOp.ahead? tokens = some op → op.leftLevel ≤ level
  closed : opened = true → InfixOp.ahead? tokens = none ∧ tokens.head?.map (·.kind) ≠ some .colon

variable {ending : Ending} {n level : Nat} {opened : Bool} {task : Task}
  {tokens before rest : List Token} {e : Expr}

theorem Fits.not_opened (h : Fits ending level opened tokens) {op : InfixOp}
    (ahead : InfixOp.ahead? tokens = some op) : opened = false := by
  cases opened with
  | false => rfl
  | true =>
    rw [(h.closed rfl).1] at ahead
    cases ahead

/-- Tokens were taken up to `rest`, so that the expression, which `before` is the start of, is derived
and fits what comes next. -/
def Reaches (ending : Ending) (n : Nat) (before tokens : List Token) (e : Expr)
    (rest : List Token) : Prop :=
  ∃ taken level opened, tokens = taken ++ rest ∧ n ≤ level ∧
    Derives true level opened (before ++ taken) e ∧ Fits ending level opened rest

/-- What a task comes to in terms of the grammar. -/
def Task.Derived (ending : Ending) (tokens : List Token) (e : Expr) (rest : List Token) : Task → Prop
  | expr => Reaches ending 1 [] tokens e rest ∧ InfixOp.ahead? rest = none
  | operand => ∃ taken, tokens = taken ++ rest ∧ Derives true 12 false taken e
  | climb least lhs => ∀ n level before opened,
    (∀ op : InfixOp, least ≤ op.precedence ↔ n ≤ op.level) → n ≤ level →
    Derives true level opened before lhs → Fits ending level opened tokens →
    Reaches ending n before tokens e rest ∧ ∀ op, InfixOp.ahead? rest = some op → op.level < n
  | extend op rhs => ∀ level before opened, op.rightLevel ≤ level →
    Derives true level opened before rhs → Fits ending level opened tokens →
    Reaches ending op.rightLevel before tokens e rest ∧
      ∀ next, InfixOp.ahead? rest = some next → next.leftLevel ≤ op.level

theorem clear_of_ahead {op : InfixOp} (ahead : InfixOp.ahead? tokens = some op) :
    ending.Clear tokens := by
  intro hnil
  rw [hnil] at ahead
  cases ahead

/-- Climbing and extending begin with a look at what comes next. -/
theorem Reads.clear (h : Reads ending task tokens e rest) :
    match task with
    | .climb _ _ | .extend _ _ => ending.Clear tokens
    | _ => True := by
  cases h with
  | stop clear | done clear => exact clear
  | binary | ternary | guarded => exact nofun
  | further ahead => exact clear_of_ahead ahead
  | _ => exact trivial

/-- An operand can be on the left of everything. -/
theorem fits_operand (clear : ending.Clear tokens) : Fits ending 12 false tokens := by
  refine ⟨clear, ?_, nofun⟩
  intro op _
  obtain ⟨_, hlevel, _⟩ := op.precedence_eq
  rw [InfixOp.leftLevel_eq]
  grind

theorem Reaches.trans {mid : List Token} {e' : Expr} {taken : List Token}
    (htokens : tokens = taken ++ mid)
    (h : Reaches ending n (before ++ taken) mid e' rest) : Reaches ending n before tokens e' rest := by
  obtain ⟨taken', level, opened, rfl, hn, hderives, hfits⟩ := h
  rw [List.append_assoc] at hderives
  exact ⟨taken ++ taken', level, opened, by rw [htokens, List.append_assoc], hn, hderives, hfits⟩

/-- What is read is derived. -/
theorem Reads.derived (h : Reads ending task tokens e rest) : task.Derived ending tokens e rest := by
  induction h with
  | expr first more ihfirst ihmore =>
    obtain ⟨taken, rfl, hfirst⟩ := ihfirst
    have hlevels (op : InfixOp) : 0 ≤ op.precedence ↔ 1 ≤ op.level :=
      iff_of_true (Nat.zero_le _) op.precedence_eq.1
    obtain ⟨hreaches, hstops⟩ := ihmore 1 12 taken false hlevels (by omega) hfirst
      (fits_operand more.clear)
    refine ⟨hreaches.trans rfl, ?_⟩
    apply Option.eq_none_iff_forall_ne_some.mpr
    intro op ahead
    have hlt := hstops op ahead
    have hlevel := op.precedence_eq.1
    omega
  | single denotes => exact ⟨[_], rfl, .single denotes⟩
  | negative sign kind value inRange => exact ⟨[_, _], rfl, .negative sign kind value inRange⟩
  | parens opens inside closes ih =>
    obtain ⟨⟨taken, level, opened, rfl, hlevel, hderives, _⟩, _⟩ := ih
    refine ⟨_ :: (taken ++ [_]), by simp, .parens opens (hderives.weaken hlevel) closes⟩
  | prefixed sign apart inside ih =>
    obtain ⟨taken, rfl, hderives⟩ := ih
    have hapart := mt (UnaryOp.folds_append hderives.ne_nil _).mpr apart
    exact ⟨_ :: taken, rfl, .prefixed (UnaryOp.ofToken?_iff.mp sign) hapart hderives⟩
  | stop clear stops =>
    intro n level before opened hlevels hn hlhs hfits
    refine ⟨⟨[], level, opened, rfl, hn, by simpa using hlhs, hfits⟩, ?_⟩
    intro op ahead
    have hlt := stops op ahead
    have hlevel := hlevels op
    omega
  | @binary _ _ _ _ _ _ op _ _ _ _ sign binds operand right more ihoperand ihright ihmore =>
    intro n level before opened hlevels hn hlhs hfits
    obtain rfl := hfits.not_opened sign
    have left := hlhs.weaken (hfits.left _ sign)
    obtain ⟨first, rfl, hfirst⟩ := ihoperand
    obtain ⟨⟨more', level', opened', rfl, hlevel', hrhs, hfits'⟩, hstops⟩ :=
      ihright 12 first false (InfixOp.rightLevel_le _) hfirst (fits_operand right.clear)
    have made := left.infixed (InfixOp.ofToken?_binary.mp sign) (hrhs.weaken hlevel')
    obtain ⟨hreaches, hlow⟩ := ihmore n op.level _ opened' hlevels ((hlevels (.binary op)).mp binds) made
      ⟨hfits'.clear, hstops, hfits'.closed⟩
    exact ⟨hreaches.trans (by simp), hlow⟩
  | ternary sign binds inside divides operand right more ihinside ihoperand ihright ihmore =>
    intro n level before opened hlevels hn hlhs hfits
    obtain rfl := hfits.not_opened sign
    have left := hlhs.weaken (hfits.left _ sign)
    obtain ⟨⟨middle, level₁, opened₁, rfl, hlevel₁, hinside, hfits₁⟩, _⟩ := ihinside
    -- The `:` behind it says that the middle part is not opened.
    have hclosed : opened₁ = false := by
      cases opened₁ with
      | false => rfl
      | true => exact absurd (congrArg some divides) (hfits₁.closed rfl).2
    subst hclosed
    obtain ⟨first, rfl, hfirst⟩ := ihoperand
    obtain ⟨⟨more', level', opened', rfl, hlevel', hrhs, hfits'⟩, hstops⟩ :=
      ihright 12 first false (InfixOp.rightLevel_le _) hfirst (fits_operand right.clear)
    have made := Derives.ternary left (InfixOp.ofToken?_question.mp sign) (hinside.weaken hlevel₁)
      divides (hrhs.weaken hlevel')
    obtain ⟨hreaches, hlow⟩ := ihmore n 2 _ opened' hlevels ((hlevels .question).mp binds) made
      ⟨hfits'.clear, hstops, hfits'.closed⟩
    exact ⟨hreaches.trans (by simp), hlow⟩
  | guarded sign binds inside clear alone more ihinside ihmore =>
    intro n level before opened hlevels hn hlhs hfits
    obtain rfl := hfits.not_opened sign
    have left := hlhs.weaken (hfits.left _ sign)
    obtain ⟨⟨middle, level₁, opened₁, rfl, hlevel₁, hinside, hfits₁⟩, hnone⟩ := ihinside
    have made := Derives.guarded left (InfixOp.ofToken?_question.mp sign) (hinside.weaken hlevel₁)
    have hfits' : Fits ending 2 true _ := ⟨clear, by simp [hnone], fun _ => ⟨hnone, alone⟩⟩
    obtain ⟨hreaches, hlow⟩ := ihmore n 2 _ true hlevels ((hlevels .question).mp binds) made hfits'
    exact ⟨hreaches.trans (by simp), hlow⟩
  | done clear stops =>
    intro level before opened hlevel hrhs hfits
    refine ⟨⟨[], level, opened, rfl, hlevel, by simpa using hrhs, hfits⟩, ?_⟩
    intro next ahead
    exact (InfixOp.lt_bound_iff _ next).mp ((InfixOp.bound?_eq_none_iff _ next).mp (stops next ahead))
  | @further op next _ _ _ _ _ _ _ ahead bound inside more ihinside ihmore =>
    intro level before opened hlevel hrhs hfits
    obtain ⟨n, hright, hnext, hlevels⟩ := InfixOp.exists_level_of_bound? bound
    have hn : n ≤ level :=
      Nat.le_trans hnext (Nat.le_trans next.level_le_leftLevel (hfits.left next ahead))
    obtain ⟨⟨taken, level', opened', rfl, hlevel', hmade, hfits'⟩, _⟩ :=
      ihinside n level before opened hlevels hn hrhs hfits
    obtain ⟨hreaches, hstops⟩ := ihmore level' _ opened' (Nat.le_trans hright hlevel') hmade hfits'
    exact ⟨hreaches.trans rfl, hstops⟩

/-- Where an operator of a lower precedence comes next, climbing stops. -/
theorem stops_of_sign {token : Token} {op : InfixOp} {least : Nat}
    (sign : InfixOp.ofToken? token.kind = some op) (h : ¬ least ≤ op.precedence) :
    ∀ next, InfixOp.ahead? (token :: tokens) = some next → next.precedence < least := by
  intro next ahead
  obtain rfl : next = op := Option.some.inj (ahead.symm.trans sign)
  exact Nat.lt_of_not_le h

/-- Climbing past operators of a low precedence begins with those of a higher one. -/
theorem Reads.split {low : Nat} {lhs : Expr} (h : Reads ending (.climb low lhs) tokens e rest)
    {high : Nat} (hle : low ≤ high) :
    ∃ lhs' mid, Reads ending (.climb high lhs) tokens lhs' mid ∧
      Reads ending (.climb low lhs') mid e rest ∧
      ∀ op, InfixOp.ahead? mid = some op → op.precedence < high := by
  generalize htask : Task.climb low lhs = task at h
  induction h generalizing lhs with
  | stop clear stops =>
    cases htask
    have hstops (op : InfixOp) (ahead : InfixOp.ahead? _ = some op) :=
      Nat.lt_of_lt_of_le (stops op ahead) hle
    exact ⟨_, _, .stop clear hstops, .stop clear stops, hstops⟩
  | @binary _ _ _ _ _ _ op _ _ _ _ sign binds operand right more _ _ ihmore =>
    cases htask
    by_cases hhigh : high ≤ op.precedence
    · obtain ⟨lhs', mid, hclimb, hmore, hstops⟩ := ihmore rfl
      exact ⟨lhs', mid, .binary sign hhigh operand right hclimb, hmore, hstops⟩
    · exact ⟨_, _, .stop nofun (stops_of_sign sign hhigh),
        .binary sign binds operand right more, stops_of_sign sign hhigh⟩
  | ternary sign binds inside divides operand right more _ _ _ ihmore =>
    cases htask
    by_cases hhigh : high ≤ 2
    · obtain ⟨lhs', mid, hclimb, hmore, hstops⟩ := ihmore rfl
      exact ⟨lhs', mid, .ternary sign hhigh inside divides operand right hclimb, hmore, hstops⟩
    · exact ⟨_, _, .stop nofun (stops_of_sign sign hhigh),
        .ternary sign binds inside divides operand right more, stops_of_sign sign hhigh⟩
  | guarded sign binds inside clear alone more _ ihmore =>
    cases htask
    by_cases hhigh : high ≤ 2
    · obtain ⟨lhs', mid, hclimb, hmore, hstops⟩ := ihmore rfl
      exact ⟨lhs', mid, .guarded sign hhigh inside clear alone hclimb, hmore, hstops⟩
    · exact ⟨_, _, .stop nofun (stops_of_sign sign hhigh),
        .guarded sign binds inside clear alone more, stops_of_sign sign hhigh⟩
  | _ => cases htask

/-- Climbing does nothing where no operator of the precedence comes next. -/
theorem Reads.eq_of_stops {least : Nat} {lhs : Expr}
    (h : Reads ending (.climb least lhs) tokens e rest)
    (stops : ∀ op, InfixOp.ahead? tokens = some op → op.precedence < least) :
    e = lhs ∧ rest = tokens := by
  cases h with
  | stop => exact ⟨rfl, rfl⟩
  | binary sign binds | ternary sign binds | guarded sign binds =>
    exact absurd (stops _ sign) (Nat.not_lt.mpr binds)

/-- A right side is extended by climbing once, if what comes next is taken with the operator's own
bound. -/
theorem Reads.extend_once {op : InfixOp} {rhs : Expr}
    (h : Reads ending (.climb op.bound rhs) tokens e rest)
    (hdone : Reads ending (.extend op e) rest e rest)
    (hnext : ∀ next least, InfixOp.ahead? tokens = some next → op.bound? next = some least →
      least = op.bound) : Reads ending (.extend op rhs) tokens e rest := by
  by_cases htaken : ∃ next, InfixOp.ahead? tokens = some next ∧ op.bound ≤ next.precedence
  · obtain ⟨next, ahead, hbound⟩ := htaken
    obtain ⟨least, hleast⟩ : ∃ least, op.bound? next = some least := by
      apply Option.ne_none_iff_exists'.mp
      rw [ne_eq, op.bound?_eq_none_iff next]
      exact Nat.not_lt.mpr hbound
    obtain rfl := hnext next least ahead hleast
    exact .further ahead hleast h hdone
  · obtain ⟨rfl, rfl⟩ := h.eq_of_stops fun next ahead =>
      Nat.lt_of_not_le fun hle => htaken ⟨next, ahead, hle⟩
    exact hdone

/-- A right side is extended by climbing over all that the operator does not bind itself. -/
theorem Reads.extend {op : InfixOp} {rhs : Expr}
    (h : Reads ending (.climb op.bound rhs) tokens e rest) (clear : ending.Clear rest)
    (stops : ∀ next, InfixOp.ahead? rest = some next → next.precedence < op.bound) :
    Reads ending (.extend op rhs) tokens e rest := by
  have hdone : Reads ending (.extend op e) rest e rest :=
    .done clear fun next ahead => (op.bound?_eq_none_iff next).mpr (stops next ahead)
  by_cases hright : op.isRightAssociative = true
  · -- First come the operators that bind more tightly, then those that bind as tightly.
    have hbound : op.bound = op.precedence := if_pos hright
    obtain ⟨rhs', mid, hfirst, hmore, hlow⟩ := h.split (Nat.le_succ op.bound)
    have hrest : Reads ending (.extend op rhs') mid e rest := by
      refine hmore.extend_once hdone ?_
      intro next least ahead hleast
      have hlt := hlow next ahead
      unfold InfixOp.bound? at hleast
      grind
    by_cases hhigh : ∃ next, InfixOp.ahead? tokens = some next ∧ op.precedence < next.precedence
    · obtain ⟨next, ahead, hlt⟩ := hhigh
      have hleast : op.bound? next = some (op.bound + 1) := by
        rw [hbound]
        exact if_pos hlt
      exact .further ahead hleast hfirst hrest
    · obtain ⟨rfl, rfl⟩ := hfirst.eq_of_stops fun next ahead =>
        Nat.lt_of_not_le fun hle => hhigh ⟨next, ahead, by omega⟩
      exact hrest
  · refine h.extend_once hdone ?_
    intro next least _ hleast
    have hbound : op.bound = op.precedence + 1 := if_neg hright
    have hlevel := op.precedence_le_iff next
    have hlevel' := next.precedence_le_iff op
    rw [op.isRightAssociative_iff] at hright
    have hnext := next.isRightAssociative_iff
    unfold InfixOp.bound? at hleast
    grind

/-- Reading an operand and climbing from it comes to climbing from the expression at `rest`. -/
def Leads (ending : Ending) (least : Nat) (tokens : List Token) (e : Expr) (rest : List Token) :
    Prop :=
  ∃ first mid, Reads ending .operand tokens first mid ∧
    ∀ e' rest', Reads ending (.climb least e) rest e' rest' →
      Reads ending (.climb least first) mid e' rest'

theorem Leads.expr (h : Leads ending 0 tokens e rest) (clear : ending.Clear rest)
    (hnone : InfixOp.ahead? rest = none) : Reads ending .expr tokens e rest := by
  obtain ⟨first, mid, hfirst, hmore⟩ := h
  exact .expr hfirst (hmore e rest (.stop clear (by simp [hnone])))

/-- What an operator has on its right is read to where it does not go on. -/
theorem Leads.right {op : InfixOp} (h : Leads ending op.bound tokens e rest)
    (hfits : Fits ending op.level opened rest) :
    ∃ first mid, Reads ending .operand tokens first mid ∧
      Reads ending (.extend op first) mid e rest := by
  obtain ⟨first, mid, hfirst, hmore⟩ := h
  have hstops (next : InfixOp) (ahead : InfixOp.ahead? rest = some next) :=
    (op.lt_bound_iff next).mpr (hfits.left next ahead)
  have hclimb := hmore e rest (.stop hfits.clear hstops)
  exact ⟨first, mid, hfirst, hclimb.extend hfits.clear hstops⟩

theorem leads_operand {least : Nat} (h : Reads ending .operand tokens e rest) :
    Leads ending least tokens e rest :=
  ⟨e, rest, h, fun _ _ => id⟩

/-- No operator has a precedence of 13, so that climbing from it leaves an operand as it is. -/
theorem Leads.operand (h : Leads ending 13 tokens e rest) (clear : ending.Clear rest) :
    Reads ending .operand tokens e rest := by
  obtain ⟨first, mid, hfirst, hmore⟩ := h
  have hstops (scan : List Token) (op : InfixOp) (_ : InfixOp.ahead? scan = some op) :
      op.precedence < 13 := by
    obtain ⟨_, hlevel, hprec⟩ := op.precedence_eq
    grind
  obtain ⟨rfl, rfl⟩ := (hmore e rest (.stop clear (hstops rest))).eq_of_stops (hstops mid)
  exact hfirst

/-- From what a start leads to, climbing goes on. -/
theorem Leads.andThen {least : Nat} {mid : List Token} {l : Expr} (h : Leads ending least tokens l mid)
    (hstep : ∀ e' rest', Reads ending (.climb least e) rest e' rest' →
      Reads ending (.climb least l) mid e' rest') : Leads ending least tokens e rest := by
  obtain ⟨first, next, hfirst, hmore⟩ := h
  exact ⟨first, next, hfirst, fun e' rest' hclimb => hmore e' rest' (hstep e' rest' hclimb)⟩

/-- An operator is read with both its sides. -/
theorem Leads.infixed {op : BinaryOp} {least : Nat} {token : Token} {left right : List Token}
    {l r : Expr} (binds : least ≤ op.precedence)
    (lhs : Leads ending least (left ++ token :: (right ++ rest)) l (token :: (right ++ rest)))
    (sign : token.kind = op.token) (rhs : Leads ending (InfixOp.binary op).bound (right ++ rest) r rest)
    (hfits : Fits ending op.level opened rest) :
    Leads ending least (left ++ token :: right ++ rest) (.binary (.untyped token.line) op l r)
      rest := by
  obtain ⟨first, mid, hfirst, hright⟩ := rhs.right hfits
  rw [List.append_assoc, List.cons_append]
  exact lhs.andThen fun _ _ hmore =>
    .binary (InfixOp.ofToken?_binary.mpr sign) binds hfirst hright hmore

theorem Fits.mono {level' : Nat} (h : Fits ending level opened tokens) (hle : level ≤ level') :
    Fits ending level' opened tokens :=
  ⟨h.clear, fun op ahead => Nat.le_trans (h.left op ahead) hle, h.closed⟩

/-- What is on the left of an operator fits it. -/
theorem fits_sign {token : Token} {op : InfixOp} (sign : InfixOp.ofToken? token.kind = some op)
    (hlevel : op.leftLevel ≤ level) : Fits ending level false (token :: tokens) := by
  refine ⟨nofun, ?_, nofun⟩
  intro next ahead
  obtain rfl : next = op := Option.some.inj (ahead.symm.trans sign)
  exact hlevel

/-- What no operator comes behind fits. -/
theorem fits_of_none (clear : ending.Clear tokens) (hnone : InfixOp.ahead? tokens = none)
    (hcolon : opened = true → tokens.head?.map (·.kind) ≠ some .colon) :
    Fits ending level opened tokens :=
  ⟨clear, by simp [hnone], fun hopened => ⟨hnone, hcolon hopened⟩⟩

/-- What is derived is read up to tokens that it fits. -/
theorem leads_of_derives {least : Nat} (h : Derives true level opened tokens e)
    (hleast : ∀ op : InfixOp, level ≤ op.level → least ≤ op.precedence)
    (hfits : Fits ending level opened rest) : Leads ending least (tokens ++ rest) e rest := by
  induction h generalizing least rest with
  | tighter inside ih =>
    exact ih (fun op hop => hleast op (Nat.le_of_succ_le hop)) (hfits.mono (Nat.le_succ _))
  | assign target closed sign value ihtarget ihvalue =>
    obtain rfl := closed rfl
    have hsign := InfixOp.ofToken?_binary.mpr sign
    refine Leads.infixed (hleast (.binary .assign) (Nat.le_refl 1)) (ihtarget ?_ ?_) sign
      (ihvalue ?_ hfits) hfits
    · exact fun op hop => hleast op (Nat.le_of_succ_le hop)
    · exact fits_sign hsign (Nat.le_refl 2)
    · exact fun op hop => (InfixOp.bound_le_iff (.binary .assign) op).mpr hop
  | guarded condition sign whenTrue ihcondition ihtrue =>
    have hsign := InfixOp.ofToken?_question.mpr sign
    obtain ⟨hnone, hcolon⟩ := hfits.closed rfl
    have inside := (ihtrue (fun _ _ => Nat.zero_le _)
      (fits_of_none hfits.clear hnone fun _ => hcolon)).expr hfits.clear hnone
    rw [List.append_assoc, List.cons_append]
    refine (ihcondition ?_ (fits_sign hsign (Nat.le_refl 3))).andThen fun _ _ hmore =>
      .guarded hsign (hleast .question (Nat.le_refl 2)) inside hfits.clear hcolon hmore
    exact fun op hop => hleast op (Nat.le_of_succ_le hop)
  | @ternary _ _ middle right _ colon _ _ _ condition sign whenTrue divides whenFalse ihcondition
      ihtrue ihfalse =>
    have hsign := InfixOp.ofToken?_question.mpr sign
    have hnone : InfixOp.ahead? (colon :: (right ++ rest)) = none := by
      change InfixOp.ofToken? colon.kind = none
      rw [divides]
      rfl
    have inside := (ihtrue (fun _ _ => Nat.zero_le _)
      (fits_of_none (clear_cons colon) hnone nofun)).expr (clear_cons colon) hnone
    have hfalse := ihfalse (fun op hop => (InfixOp.bound_le_iff .question op).mpr hop) hfits
    obtain ⟨first, mid, hfirst, hright⟩ :=
      (hfalse : Leads ending InfixOp.question.bound _ _ _).right hfits
    rw [List.append_assoc, List.cons_append, List.append_assoc, List.cons_append]
    refine (ihcondition ?_ (fits_sign hsign (Nat.le_refl 3))).andThen fun _ _ hmore =>
      .ternary hsign (hleast .question (Nat.le_refl 2)) inside divides hfirst hright hmore
    exact fun op hop => hleast op (Nat.le_of_succ_le hop)
  | @binary op _ _ _ _ _ infixed lhs sign rhs ihl ihr =>
    have hsign := InfixOp.ofToken?_binary.mpr sign
    obtain ⟨_, hleft, hright⟩ := InfixOp.levels_of_ne_assign infixed
    refine Leads.infixed (hleast (.binary op) (Nat.le_refl _)) (ihl hleast ?_) sign
      (ihr ?_ (hfits.mono (Nat.le_succ _))) hfits
    · exact fits_sign hsign (Nat.le_of_eq hleft)
    · intro next hnext
      rw [InfixOp.bound_le_iff, hright]
      exact hnext
  | prefixed sign apart inside ih =>
    have hoperand := (ih (fun op hop => absurd op.precedence_eq.2.1 (by omega)) hfits).operand
      hfits.clear
    have hapart := mt (UnaryOp.folds_append inside.ne_nil rest).mp apart
    exact leads_operand (.prefixed (UnaryOp.ofToken?_iff.mpr sign) hapart hoperand)
  | negative sign kind value inRange => exact leads_operand (.negative sign kind value inRange)
  | single denotes => exact leads_operand (.single denotes)
  | @parens _ tokens _ after _ opens inside closes ih =>
    have hnone : InfixOp.ahead? (after :: rest) = none := by
      change InfixOp.ofToken? after.kind = none
      rw [closes]
      rfl
    have hinside := (ih (fun _ _ => Nat.zero_le _)
      (fits_of_none (clear_cons after) hnone fun _ => by simp [closes])).expr (clear_cons after) hnone
    rw [List.cons_append, List.append_assoc, List.singleton_append]
    exact leads_operand (.parens opens hinside closes)

/-- No operator has anything of level 1 on its left. -/
theorem Fits.ahead (h : Fits ending 1 opened tokens) : InfixOp.ahead? tokens = none := by
  apply Option.eq_none_iff_forall_ne_some.mpr
  intro op hop
  exact Nat.not_le.mpr op.two_le_leftLevel (h.left op hop)

/-- What stops an expression is what it fits on the lowest level. -/
theorem stops_iff_fits : (Scan.mk tokens ending).Stops opened ↔ Fits ending 1 opened tokens := by
  cases tokens with
  | nil => exact ⟨fun h => fits_of_none (fun _ => h) rfl nofun, fun h => h.clear rfl⟩
  | cons token tokens =>
    have hahead : InfixOp.ahead? (token :: tokens) = none ↔ _ := InfixOp.ofToken?_eq_none_iff
    constructor
    · intro h
      obtain ⟨hops, hquestion, hcolon⟩ := h
      exact fits_of_none (clear_cons token) (hahead.mpr ⟨hops, hquestion⟩) fun hopened hsome =>
        hcolon hopened (Option.some.inj hsome)
    · intro h
      obtain ⟨hops, hquestion⟩ := hahead.mp h.ahead
      exact ⟨hops, hquestion, fun hopened hkind => (h.closed hopened).2 (congrArg some hkind)⟩

end Reader

/-- An expression is parsed exactly if the grammar derives it from the tokens that were taken and what
comes next stops it. -/
theorem Expr.parse_iff_derives {scan scan' : Scan} {e : Expr} :
    Expr.parse scan = .ok (e, scan') ↔ ∃ taken opened,
      scan = ⟨taken ++ scan'.tokens, scan'.ending⟩ ∧ Derives true 1 opened taken e ∧
        scan'.Stops opened := by
  obtain ⟨tokens, ending⟩ := scan
  rw [Expr.parse_ok_iff]
  constructor
  · intro h
    obtain ⟨rest, rfl, hreads⟩ := h
    obtain ⟨⟨taken, level, opened, rfl, hlevel, hderives, hfits⟩, hnone⟩ := hreads.derived
    refine ⟨taken, opened, rfl, hderives.weaken hlevel, Reader.stops_iff_fits.mpr ?_⟩
    exact Reader.fits_of_none hfits.clear hnone fun hopened => (hfits.closed hopened).2
  · intro h
    obtain ⟨taken, opened, hscan, hderives, hstops⟩ := h
    obtain ⟨rest, ending'⟩ := scan'
    cases hscan
    have hfits := Reader.stops_iff_fits.mp hstops
    have hleads := Reader.leads_of_derives hderives (fun _ _ => Nat.zero_le _) hfits
    exact ⟨rest, rfl, hleads.expr hfits.clear hfits.ahead⟩

/-- Where conditionals without a false branch may be assigned to, `a ? b = c` is derived as an
assignment to `a ? b`, too. Parsed, it is a conditional with an assignment in it. -/
theorem Expr.parse_opened_target :
    ∃ tokens : List Token, tokens.map (·.text) = ["a", "?", "b", "=", "c"] ∧
      Derives false 1 true tokens (.binary (.untyped 1) .assign
        (.guarded (.untyped 1) (.var (.untyped 1) "a" none) (.var (.untyped 1) "b" none))
        (.var (.untyped 1) "c" none)) ∧
      (Scan.mk [] (.finished 9 1)).Stops true ∧
      Expr.parse ⟨tokens, .finished 9 1⟩ = .ok (.guarded (.untyped 1) (.var (.untyped 1) "a" none)
        (.binary (.untyped 1) .assign (.var (.untyped 1) "b" none) (.var (.untyped 1) "c" none)),
        ⟨[], .finished 9 1⟩) := by
  refine ⟨[⟨.identifier, "a", 0, 1⟩, ⟨.operator .question false, "?", 2, 1⟩, ⟨.identifier, "b", 4, 1⟩,
    ⟨.operator .equals false, "=", 6, 1⟩, ⟨.identifier, "c", 8, 1⟩], rfl, ?_, ⟨9, 1, rfl⟩, rfl⟩
  have name (text : String) (offset : Nat) : Derives false 12 false
      [⟨.identifier, text, offset, 1⟩] (.var (.untyped 1) text none) := .single (.var rfl)
  have condition := (name "a" 0).weaken (show 3 ≤ 12 by decide)
  have whenTrue := (name "b" 4).weaken (show 1 ≤ 12 by decide)
  have value := (name "c" 8).weaken (show 1 ≤ 12 by decide)
  exact .assign (.guarded condition rfl whenTrue) (absurd · Bool.false_ne_true) rfl value

end BlockLang
