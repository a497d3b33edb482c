import BlockLang.Proofs.Viable.Steps

namespace BlockLang

/-- Something else was wanted than what comes next. -/
def ParseFault.IsMismatch : ParseFault → Prop
  | .expected _ _ | .unexpectedEnd _ => True
  | _ => False

/-- The error is about what comes next. -/
def ParseError.PointsAt (error : ParseError) (scan : Scan) : Prop :=
  match error.fault with
  | .expected _ found =>
    ∃ token, scan.tokens.head? = some token ∧ token.kind = found ∧ token.offset = error.offset
  | .unexpectedEnd _ => scan.tokens = [] ∧ ∃ line, scan.ending = .finished error.offset line
  | _ => False

/-- The error where a token is wanted and there is none left. -/
def Ending.missing (wanted : Wanted) : Ending → ParseError
  | finished offset _ => ⟨.unexpectedEnd wanted, offset, []⟩
  | failed error => ⟨.lex error.fault, error.offset, []⟩

namespace Reader

variable {α β : Type} {x y : Nat → Reader α} {f : Nat → α → Reader β} {scan : Scan} {a : α}
  {error : ParseError}

/-- What comes of a reader. It succeeds, also in front of other scans that show the same or what it may
stop at, and takes at least one token if it has to. Or it misses something: it does so whatever comes later,
and what it has taken can be mended. -/
inductive Outcome (x : Nat → Reader α) (moves : Prop) (stop lead : Option TokenKind → Prop)
    (scan : Scan) : Except ParseError (α × Scan) → Prop
  | ok {a : α} {rest : Scan} (front : List Token) (split : scan = rest.prepend front)
      (moved : moves → front ≠ [])
      (stays : ∀ rest' : Scan, rest.Agrees rest' ∨ rest'.Shows stop →
        Eventually x (rest'.prepend front) (.ok (a, rest'))) :
      Outcome x moves stop lead scan (.ok (a, rest))
  | missed {error : ParseError} {here : Scan} (front : List Token)
      (split : scan = here.prepend front) (points : error.PointsAt here)
      (stays : ∀ here' : Scan, here.Agrees here' → Eventually x (here'.prepend front) (.error error))
      (mends : Mends x stop lead front) : Outcome x moves stop lead scan (.error error)
  | failed {error : ParseError} (other : ¬ error.fault.IsMismatch)
      (stays : Eventually x scan (.error error)) : Outcome x moves stop lead scan (.error error)
  | tooDeep {error : ParseError} (deep : error.fault = .tooDeep) :
      Outcome x moves stop lead scan (.error error)

variable {moves moves' : Prop} {stop stop' lead lead' : Option TokenKind → Prop}

namespace Outcome

variable {r : Except ParseError (α × Scan)} {depth : Nat}

theorem mono (h : Outcome x moves stop lead scan r) (hmoves : moves' → moves)
    (hstop : ∀ kind, stop' kind → stop kind) (hlead : ∀ kind, lead kind → lead' kind) :
    Outcome x moves' stop' lead' scan r := by
  cases h with
  | ok front split moved stays =>
    exact .ok front split (fun hm => moved (hmoves hm)) fun rest' hrest' =>
      stays rest' (hrest'.imp_right fun hs => ⟨hs.1, hstop _ hs.2⟩)
  | missed front split points stays mends =>
    exact .missed front split points stays (mends.mono hstop hlead)
  | failed other stays => exact .failed other stays
  | tooDeep deep => exact .tooDeep deep

theorem within {construct : Construct} (h : Outcome x moves stop lead scan (x depth scan)) :
    Outcome (fun depth => within construct (x depth)) moves stop lead scan
      (Reader.within construct (x depth) scan) := by
  unfold Reader.within
  generalize x depth scan = r at h
  cases h with
  | ok front split moved stays =>
    exact .ok front split moved fun rest' hrest' => (stays rest' hrest').within
  | missed front split points stays mends =>
    exact .missed front split points (fun here' hhere' => (stays here' hhere').within_error)
      mends.within
  | failed other stays => exact .failed other stays.within_error
  | tooDeep deep => exact .tooDeep deep

/-- A reader, and then another one that starts with something before which the first one may stop. -/
theorem bind {moves'' : Prop} (hx : Outcome x moves stop' lead scan (x depth scan))
    (hf : ∀ a rest, Outcome (fun depth => f depth a) moves' stop lead' rest (f depth a rest))
    (fresh : ∀ a, Mends (fun depth => f depth a) stop stop' [])
    (hidle : moves' ∨ ∀ kind, stop kind → stop' kind) (hlead : ∀ kind, lead' kind → stop' kind)
    (hkeep : moves ∨ ∀ kind, lead' kind → lead kind) (hmoves : moves'' → moves ∨ moves') :
    Outcome (fun depth => x depth >>= f depth) moves'' stop lead scan
      ((x depth >>= f depth) scan) := by
  rw [bind_apply]
  generalize x depth scan = r at hx
  cases hx with
  | missed front split points stays mends =>
    exact .missed front split points (fun here' hhere' => (stays here' hhere').bind_error)
      (mends.bind fresh)
  | failed other stays => exact .failed other stays.bind_error
  | tooDeep deep => exact .tooDeep deep
  | @ok a rest front split moved stays =>
    -- the first reader is done, and is so in front of whatever completes the second one
    subst split
    have hsecond := hf a rest
    change Outcome _ _ _ _ _ (f depth a rest)
    generalize f depth a rest = s at hsecond
    cases hsecond with
    | failed other stays' => exact .failed other ((stays rest (.inl (.refl rest))).bind stays')
    | tooDeep deep => exact .tooDeep deep
    | @missed error here more split points stays' mends =>
      subst split
      rw [← Scan.prepend_append]
      refine .missed (front ++ more) rfl points ?_ (mends.after stays hlead ?_)
      · intro here' hhere'
        rw [Scan.prepend_append]
        exact (stays _ (.inl (.prepend fun _ => hhere'))).bind (stays' here' hhere')
      · intro hnil
        exact hkeep.resolve_left fun hm => moved hm hnil
    | @ok b rest' more split moved' stays' =>
      subst split
      rw [← Scan.prepend_append]
      refine .ok (front ++ more) rfl ?_ ?_
      · intro hm hnil
        obtain ⟨hfront, hmore⟩ := List.append_eq_nil_iff.mp hnil
        rcases hmoves hm with h | h
        · exact moved h hfront
        · exact moved' h hmore
      · intro later hlater
        rw [Scan.prepend_append]
        refine (stays _ ?_).bind (stays' later hlater)
        by_cases hmore : more = []
        · -- where the second one takes nothing, what comes behind it is behind the first one
          subst hmore
          exact hlater.imp_right fun hs => ⟨hs.1, (hidle.resolve_left fun hm => moved' hm rfl) _ hs.2⟩
        · exact .inl (.prepend fun hnil => absurd hnil hmore)

/-- Where the reader goes on as another one behind its first tokens, given what comes next. -/
theorem step {moves'' : Prop} (front : List Token) (good : Scan → Prop) (k : Nat)
    (heq : ∀ depth, ∀ rest : Scan, good rest → x (depth + k) (rest.prepend front) = y depth rest)
    (hagrees : ∀ rest rest' : Scan, rest.Agrees rest' → good rest → good rest') (hgood : good scan)
    (hy : Outcome y moves stop lead scan (y depth scan))
    (hlead : ∀ rest : Scan, rest.Shows lead → good rest)
    (hidle : moves ∨ ∀ rest : Scan, rest.Shows stop → good rest)
    (hkeep : front = [] → ∀ kind, lead kind → lead' kind)
    (hmoves : moves'' → front ≠ [] ∨ moves) :
    Outcome x moves'' stop lead' (scan.prepend front) (x (depth + k) (scan.prepend front)) := by
  rw [heq depth scan hgood]
  generalize y depth scan = r at hy
  cases hy with
  | failed other stays =>
    exact .failed other (.shift k (fun depth => heq depth scan hgood) stays)
  | tooDeep deep => exact .tooDeep deep
  | @missed error here more split points stays mends =>
    subst split
    have hmore (nonempty : more ≠ []) (rest : Scan) : good (rest.prepend more) :=
      hagrees _ _ (.prepend fun hnil => absurd hnil nonempty) hgood
    rw [← Scan.prepend_append]
    refine .missed (front ++ more) rfl points ?_ (mends.step front good k heq hmore hlead hkeep)
    intro here' hhere'
    rw [Scan.prepend_append]
    refine .shift k (fun depth => heq depth _ ?_) (stays here' hhere')
    exact hagrees _ _ (.prepend fun _ => hhere') hgood
  | @ok a rest more split moved stays =>
    subst split
    rw [← Scan.prepend_append]
    refine .ok (front ++ more) rfl ?_ ?_
    · intro hm hnil
      obtain ⟨hfront, hmore⟩ := List.append_eq_nil_iff.mp hnil
      rcases hmoves hm with h | h
      · exact h hfront
      · exact moved h hmore
    · intro later hlater
      rw [Scan.prepend_append]
      refine .shift k (fun depth => heq depth _ ?_) (stays later hlater)
      by_cases hmore : more = []
      · subst hmore
        rcases hlater with hlater | hlater
        · exact hagrees _ _ hlater hgood
        · exact (hidle.resolve_left fun hm => moved hm rfl) _ hlater
      · exact hagrees _ _ (.prepend fun hnil => absurd hnil hmore) hgood

/-- Where the reader goes on as another one behind a token, whatever comes next. -/
theorem take (k : Nat) (token : Token) (heq : ∀ depth, ∀ rest : Scan,
      x (depth + k) (rest.prepend [token]) = y depth rest)
    (hy : Outcome y moves stop lead scan (y depth scan)) :
    Outcome x moves' stop lead' (scan.prepend [token]) (x (depth + k) (scan.prepend [token])) :=
  hy.step [token] (fun _ => True) k (fun depth rest _ => heq depth rest) (fun _ _ _ _ => trivial) trivial
    (fun _ _ => trivial) (.inr fun _ _ => trivial) nofun fun _ => .inl nofun

/-- Where the reader goes on as another one, given what comes next. -/
theorem given {p : Option TokenKind → Prop} (k : Nat)
    (heq : ∀ depth, ∀ rest : Scan, rest.Shows p → x (depth + k) rest = y depth rest)
    (hshows : scan.Shows p) (hy : Outcome y moves stop lead scan (y depth scan))
    (hlead : ∀ kind, lead kind → p kind) (hidle : moves ∨ ∀ kind, stop kind → p kind) :
    Outcome x moves stop lead scan (x (depth + k) scan) :=
  hy.step [] (fun rest => rest.Shows p) k heq (fun _ _ => Scan.Agrees.shows) hshows
    (fun _ hrest => ⟨hrest.1, hlead _ hrest.2⟩)
    (hidle.imp_right fun hstop _ hrest => ⟨hrest.1, hstop _ hrest.2⟩) (fun _ _ => id) .inr

/-- Where the reader takes nothing, given what comes next. -/
theorem idle {p : Option TokenKind → Prop} (k depth : Nat)
    (hx : ∀ depth, ∀ rest : Scan, rest.Shows p → x (depth + k) rest = .ok (a, rest))
    (hshows : scan.Shows p) (hstop : ∀ kind, stop kind → p kind) (hmoves : ¬ moves) :
    Outcome x moves stop lead scan (x (depth + k) scan) := by
  rw [hx depth scan hshows]
  refine .ok [] rfl (fun hm => absurd hm hmoves) fun rest hrest => .always k fun depth => hx depth rest ?_
  exact hrest.elim (fun hagrees => hagrees.shows hshows) fun hs => ⟨hs.1, hstop _ hs.2⟩

/-- Unless it is too deep here, the reader comes to the same at every greater depth. -/
theorem eventually (h : Outcome x moves stop lead scan r)
    (hdeep : ∀ error, r = .error error → error.fault ≠ .tooDeep) : Eventually x scan r := by
  cases h with
  | @ok a rest front split moved stays =>
    rw [split]
    exact stays rest (.inl (.refl rest))
  | @missed error here front split points stays mends =>
    rw [split]
    exact stays here (.refl here)
  | failed other stays => exact stays
  | tooDeep deep => exact absurd deep (hdeep _ rfl)

theorem missed_here (k depth : Nat) (points : error.PointsAt scan)
    (hx : ∀ depth, ∀ scan' : Scan, scan.Agrees scan' → x (depth + k) scan' = .error error)
    (fresh : Mends x stop lead []) :
    Outcome x moves stop lead scan (x (depth + k) scan) := by
  rw [hx depth scan (.refl scan)]
  refine .missed [] rfl points (fun here' hhere' => ?_) fresh
  exact .always k fun depth => hx depth here' hhere'

/-- Where a token is at fault by itself. -/
theorem refused (k depth : Nat) (other : ¬ error.fault.IsMismatch)
    (hx : ∀ depth, x (depth + k) scan = .error error) :
    Outcome x moves stop lead scan (x (depth + k) scan) := by
  rw [hx]
  exact .failed other (.always k hx)

/-- Where it cannot be seen what comes next. -/
theorem unclear (k depth : Nat) {error : LexError}
    (hx : ∀ depth, x (depth + k) ⟨[], .failed error⟩ =
      .error ⟨.lex error.fault, error.offset, []⟩) :
    Outcome x moves stop lead ⟨[], .failed error⟩ (x (depth + k) ⟨[], .failed error⟩) :=
  .refused k depth id hx

/-- Where there is no token left, one was wanted, or the scan is at fault. -/
theorem ended (k depth : Nat) (wanted : Wanted) {ending : Ending}
    (hx : ∀ depth, x (depth + k) ⟨[], ending⟩ = .error (ending.missing wanted))
    (fresh : Mends x stop lead []) :
    Outcome x moves stop lead ⟨[], ending⟩ (x (depth + k) ⟨[], ending⟩) := by
  cases ending with
  | finished offset line =>
    have points : ParseError.PointsAt ⟨.unexpectedEnd wanted, offset, []⟩
        ⟨[], .finished offset line⟩ := ⟨rfl, line, rfl⟩
    refine missed_here k depth points (fun depth scan' hagrees => ?_) fresh
    rw [hagrees.eq_of_nil, hx]
    rfl
  | failed error => exact .unclear k depth hx

/-- Where the next token is not what was wanted. -/
theorem mistaken (k depth : Nat) (wanted : Wanted) {token : Token} {later : List Token} {ending : Ending}
    (hx : ∀ depth later ending, x (depth + k) ⟨token :: later, ending⟩ =
      .error ⟨.expected wanted token.kind, token.offset, []⟩)
    (fresh : Mends x stop lead []) :
    Outcome x moves stop lead ⟨token :: later, ending⟩ (x (depth + k) ⟨token :: later, ending⟩) := by
  have points : ParseError.PointsAt ⟨.expected wanted token.kind, token.offset, []⟩
      ⟨token :: later, ending⟩ := ⟨token, rfl, rfl, rfl⟩
  refine missed_here k depth points (fun depth scan' hagrees => ?_) fresh
  obtain ⟨later', hscan⟩ := hagrees.cons
  rw [hscan, hx]

/-- Where a token is taken, whatever comes behind it. -/
theorem taken (k depth : Nat) (token : Token) (a : α)
    (hx : ∀ depth, ∀ rest : Scan, x (depth + k) (rest.prepend [token]) = .ok (a, rest)) (rest : Scan) :
    Outcome x moves stop lead (rest.prepend [token]) (x (depth + k) (rest.prepend [token])) := by
  rw [hx]
  refine .ok [token] rfl (fun _ => nofun) fun rest' _ => ?_
  exact .always k fun depth => hx depth rest'

end Outcome

/-- Anything may come next. -/
def anything : Option TokenKind → Prop :=
  fun _ => True

/-- Whatever comes of the reader at the depth, what it has taken can be completed, also if it has not
started. -/
structure Mendable (depth : Nat) (x : Nat → Reader α) (moves : Prop)
    (stop lead : Option TokenKind → Prop) : Prop where
  outcome : ∀ scan, Outcome x moves stop lead scan (x depth scan)
  fresh : Mends x stop lead []
  idle : moves ∨ ∀ kind, stop kind → lead kind

namespace Mendable

variable {depth : Nat}

/-- Where the reader is another one, one deeper. -/
theorem deepen (heq : ∀ depth, x (depth + 1) = y depth) (h : Mendable depth y moves stop lead) :
    Mendable (depth + 1) x moves stop lead := by
  refine ⟨fun scan => ?_, h.fresh.deepen heq, h.idle⟩
  exact (h.outcome scan).step [] (fun _ => True) 1 (fun depth rest _ => congrFun (heq depth) rest)
    (fun _ _ _ _ => trivial) trivial (fun _ _ => trivial) (.inr fun _ _ => trivial) (fun _ _ => id) .inr

theorem mono (h : Mendable depth x moves stop lead) (hstop : ∀ kind, stop' kind → stop kind)
    (hlead : ∀ kind, lead kind → lead' kind) : Mendable depth x moves stop' lead' := by
  refine ⟨fun scan => (h.outcome scan).mono id hstop hlead, h.fresh.mono hstop hlead, ?_⟩
  exact h.idle.imp_right fun hidle kind hkind => hlead _ (hidle _ (hstop _ hkind))

theorem within {construct : Construct} (h : Mendable depth x moves stop lead) :
    Mendable depth (fun depth => within construct (x depth)) moves stop lead :=
  ⟨fun scan => (h.outcome scan).within, h.fresh.within, h.idle⟩

/-- A reader that takes a token, and then one that starts with something before which the first one may
stop. -/
theorem bind (hx : Mendable depth x True stop' lead)
    (hf : ∀ a, Mendable depth (fun depth => f depth a) moves stop lead')
    (hlead : ∀ kind, lead' kind → stop' kind) :
    Mendable depth (fun depth => x depth >>= f depth) True stop lead := by
  obtain ⟨_, a, _⟩ := hx.fresh
  have hfresh (a : α) : Mends (fun depth => f depth a) stop stop' [] :=
    (hf a).fresh.mono (fun _ => id) hlead
  refine ⟨fun scan => ?_, hx.fresh.bind hfresh, .inl trivial⟩
  refine (hx.outcome scan).bind (fun a => (hf a).outcome) hfresh ?_ hlead (.inl trivial) .inl
  exact (hf a).idle.imp_right fun hidle kind hkind => hlead _ (hidle _ hkind)

/-- A reader that takes a token and may stop anywhere behind it, and then another one. -/
theorem next (hx : Mendable depth x True anything lead)
    (hf : ∀ a, Mendable depth (fun depth => f depth a) moves stop lead') :
    Mendable depth (fun depth => x depth >>= f depth) True stop lead :=
  hx.bind hf fun _ _ => trivial

/-- A reader that may take nothing, and then another one. -/
theorem after (hx : Mendable depth x False stop' lead)
    (hf : ∀ a, Mendable depth (fun depth => f depth a) moves stop lead')
    (hlead : ∀ kind, lead' kind → stop' kind) (hkeep : ∀ kind, lead' kind → lead kind) :
    Mendable depth (fun depth => x depth >>= f depth) moves stop lead := by
  obtain ⟨_, a, _⟩ := hx.fresh
  have hfresh (a : α) : Mends (fun depth => f depth a) stop stop' [] :=
    (hf a).fresh.mono (fun _ => id) hlead
  refine ⟨fun scan => ?_, hx.fresh.bind hfresh, ?_⟩
  · refine (hx.outcome scan).bind (fun a => (hf a).outcome) hfresh ?_ hlead (.inr hkeep) .inr
    exact (hf a).idle.imp_right fun hidle kind hkind => hlead _ (hidle _ hkind)
  · exact (hf a).idle.imp_right fun hidle kind hkind => hkeep _ (hidle _ hkind)

end Mendable

theorem mendable_pure (depth : Nat) (stop : Option TokenKind → Prop) (a : α) :
    Mendable depth (fun _ => pure a) False stop stop := by
  refine ⟨fun scan => ?_, ⟨[], a, nofun, fun rest hrest => ?_⟩, .inr fun _ => id⟩
  · exact .ok [] rfl False.elim fun rest' _ => .always 0 fun _ => rfl
  · exact ⟨fun _ => hrest, .always 0 fun _ => rfl⟩

/-- A token that a word can stand in for. -/
theorem mendable_consume (depth : Nat) (stop : Option TokenKind → Prop) {w : Word} (fair : w.Fair) :
    Mendable depth (fun _ => consume w.kind) True stop (· = some w.kind) := by
  have hfresh : Mends (fun _ => consume w.kind) stop (· = some w.kind) [] := by
    refine ⟨[w], (), by simpa using fair, fun rest _ => ?_⟩
    exact ⟨fun _ => ⟨nofun, rfl⟩, .always 0 fun _ => consume_eq rfl⟩
  refine ⟨fun scan => ?_, hfresh, .inl trivial⟩
  obtain ⟨tokens, ending⟩ := scan
  cases tokens with
  | nil => exact .ended 0 depth (.token w.kind) (fun _ => by cases ending <;> rfl) hfresh
  | cons token later =>
    by_cases hkind : token.kind = w.kind
    · exact .taken 0 depth token () (fun _ rest => consume_eq hkind) ⟨later, ending⟩
    · refine .mistaken 0 depth (.token w.kind) (fun _ later ending => ?_) hfresh
      simp [consume, expect, demand, bind_apply, Except.bind, hkind, fail]

theorem mendable_single (depth : Nat) (c : Char) {kind : TokenKind} (h : Lexeme.single? c = some kind) :
    Mendable depth (fun _ => consume kind) True anything (· = some kind) :=
  mendable_consume depth anything (w := ⟨kind, [c], false⟩) (Word.fair_of_single h)

end Reader

end BlockLang
