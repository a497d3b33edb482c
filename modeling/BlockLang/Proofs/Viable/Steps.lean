import BlockLang.Proofs.Printing.Scanning
import BlockLang.Proofs.Reading.Gives

namespace BlockLang

namespace Scan

/-- The tokens in front of those of the scan. -/
def prepend (front : List Token) (scan : Scan) : Scan :=
  ⟨front ++ scan.tokens, scan.ending⟩

theorem prepend_append (front more : List Token) (scan : Scan) :
    scan.prepend (front ++ more) = (scan.prepend more).prepend front := by
  simp [prepend]

/-- The kind of the next token, none at the end. -/
def ahead (scan : Scan) : Option TokenKind :=
  scan.tokens.head?.map (·.kind)

/-- It can be seen what comes next, and it is such. -/
def Shows (p : Option TokenKind → Prop) (scan : Scan) : Prop :=
  scan.ending.Clear scan.tokens ∧ p scan.ahead

/-- It can be seen that such comes next, or nothing can be seen, or something else comes next. -/
theorem shows_or (p : Option TokenKind → Prop) (scan : Scan) :
    scan.Shows p ∨ (∃ error, scan = ⟨[], .failed error⟩) ∨ ¬ p scan.ahead := by
  obtain ⟨tokens, ending⟩ := scan
  by_cases hp : p (ahead ⟨tokens, ending⟩)
  · cases tokens with
    | cons token tokens => exact .inl ⟨nofun, hp⟩
    | nil =>
      cases ending with
      | finished offset line => exact .inl ⟨fun _ => ⟨offset, line, rfl⟩, hp⟩
      | failed error => exact .inr (.inl ⟨error, rfl⟩)
  · exact .inr (.inr hp)

theorem exists_of_ahead {kind : TokenKind} {scan : Scan} (h : scan.ahead = some kind) :
    ∃ token rest, token.kind = kind ∧ scan = prepend [token] rest := by
  obtain ⟨tokens, ending⟩ := scan
  cases tokens with
  | nil => cases h
  | cons token tokens => exact ⟨token, ⟨tokens, ending⟩, Option.some.inj h, rfl⟩

theorem shows_of_ahead {p : Option TokenKind → Prop} {kind : TokenKind} {scan : Scan}
    (h : scan.ahead = some kind) (hp : p (some kind)) : scan.Shows p := by
  obtain ⟨token, rest, rfl, rfl⟩ := exists_of_ahead h
  exact ⟨nofun, hp⟩

/-- In both scans the same comes next. -/
def Agrees (scan scan' : Scan) : Prop :=
  scan'.tokens.head? = scan.tokens.head? ∧ (scan.tokens = [] → scan'.ending = scan.ending)

theorem Agrees.refl (scan : Scan) : scan.Agrees scan :=
  ⟨rfl, fun _ => rfl⟩

theorem agrees_cons (token : Token) (later later' : List Token) (ending ending' : Ending) :
    Agrees ⟨token :: later, ending⟩ ⟨token :: later', ending'⟩ :=
  ⟨rfl, nofun⟩

theorem Agrees.prepend {scan scan' : Scan} {front : List Token} (h : front = [] → scan.Agrees scan') :
    (scan.prepend front).Agrees (scan'.prepend front) := by
  cases front with
  | nil => exact h rfl
  | cons token front => exact agrees_cons ..

theorem Agrees.shows {scan scan' : Scan} {p : Option TokenKind → Prop} (h : scan.Agrees scan')
    (hp : scan.Shows p) : scan'.Shows p := by
  obtain ⟨hhead, hending⟩ := h
  obtain ⟨clear, hp⟩ := hp
  refine ⟨?_, by rwa [ahead, hhead]⟩
  intro hnil
  rw [hnil] at hhead
  have htokens : scan.tokens = [] := by
    cases htokens : scan.tokens with
    | nil => rfl
    | cons token tokens => simp [htokens] at hhead
  rw [hending htokens]
  exact clear htokens

theorem Agrees.eq_of_nil {scan : Scan} {ending : Ending} (h : Agrees ⟨[], ending⟩ scan) :
    scan = ⟨[], ending⟩ := by
  obtain ⟨tokens, ending'⟩ := scan
  obtain ⟨hhead, hending⟩ := h
  obtain rfl : ending' = ending := hending rfl
  cases tokens with
  | nil => rfl
  | cons token tokens => cases hhead

theorem Agrees.cons {token : Token} {tokens : List Token} {ending : Ending} {scan : Scan}
    (h : Agrees ⟨token :: tokens, ending⟩ scan) :
    ∃ later, scan = ⟨token :: later, scan.ending⟩ := by
  obtain ⟨tokens', ending'⟩ := scan
  obtain ⟨hhead, -⟩ := h
  cases tokens' with
  | nil => cases hhead
  | cons token' later =>
    obtain rfl : token' = token := Option.some.inj hhead
    exact ⟨later, rfl⟩

end Scan

/-- The word as a token. -/
def Word.token (w : Word) : Token :=
  ⟨w.kind, String.ofList w.text, 0, 0⟩

namespace Reader

variable {α β : Type} {x y : Nat → Reader α} {f : Nat → α → Reader β} {scan mid : Scan} {a : α}
  {error : ParseError}

/-- From some depth on the reader gives this result. -/
def Eventually (x : Nat → Reader α) (scan : Scan) (r : Except ParseError (α × Scan)) : Prop :=
  ∃ least, ∀ depth, least ≤ depth → x depth scan = r

namespace Eventually

variable {r r' : Except ParseError (α × Scan)}

theorem unique (h : Eventually x scan r) (h' : Eventually x scan r') : r = r' := by
  obtain ⟨least, hr⟩ := h
  obtain ⟨least', hr'⟩ := h'
  rw [← hr (max least least') (Nat.le_max_left ..), hr' (max least least') (Nat.le_max_right ..)]

/-- Where the reader goes on as another one, `k` deeper. -/
theorem shift {scan' : Scan} (k : Nat) (heq : ∀ depth, x (depth + k) scan = y depth scan')
    (h : Eventually y scan' r) : Eventually x scan r := by
  obtain ⟨least, hr⟩ := h
  refine ⟨least + k, fun depth hle => ?_⟩
  rw [← Nat.sub_add_cancel (Nat.le_trans (Nat.le_add_left k least) hle), heq]
  exact hr _ (Nat.le_sub_of_add_le hle)

theorem always (k : Nat) (h : ∀ depth, x (depth + k) scan = r) : Eventually x scan r := by
  refine ⟨k, fun depth hle => ?_⟩
  rw [← Nat.sub_add_cancel hle]
  exact h _

theorem bind {s : Except ParseError (β × Scan)} (hx : Eventually x scan (.ok (a, mid)))
    (hf : Eventually (fun depth => f depth a) mid s) :
    Eventually (fun depth => x depth >>= f depth) scan s := by
  obtain ⟨least, hx⟩ := hx
  obtain ⟨least', hf⟩ := hf
  refine ⟨max least least', fun depth hle => ?_⟩
  dsimp only
  rw [bind_apply, hx depth (Nat.le_trans (Nat.le_max_left ..) hle)]
  exact hf depth (Nat.le_trans (Nat.le_max_right ..) hle)

theorem bind_error (hx : Eventually x scan (.error error)) :
    Eventually (fun depth => x depth >>= f depth) scan (.error error) := by
  obtain ⟨least, hx⟩ := hx
  refine ⟨least, fun depth hle => ?_⟩
  dsimp only
  rw [bind_apply, hx depth hle]
  rfl

theorem within {construct : Construct} (h : Eventually x scan (.ok (a, mid))) :
    Eventually (fun depth => within construct (x depth)) scan (.ok (a, mid)) := by
  obtain ⟨least, hx⟩ := h
  exact ⟨least, fun depth hle => within_ok.mpr (hx depth hle)⟩

theorem within_error {construct : Construct} (h : Eventually x scan (.error error)) :
    Eventually (fun depth => Reader.within construct (x depth)) scan
      (.error { error with within := construct :: error.within }) := by
  obtain ⟨least, hx⟩ := h
  refine ⟨least, fun depth hle => ?_⟩
  dsimp only
  rw [Reader.within, hx depth hle]

end Eventually

/-- Behind the tokens there are words with which the reader succeeds in front of any scan that shows what
it may stop at. If there are no tokens, the words start with something that `lead` allows. -/
def Mends (x : Nat → Reader α) (stop lead : Option TokenKind → Prop) (front : List Token) : Prop :=
  ∃ (ws : List Word) (a : α), (∀ w ∈ ws, w.Fair) ∧ ∀ rest : Scan, rest.Shows stop →
    (front = [] → (rest.prepend (ws.map Word.token)).Shows lead) ∧
      Eventually x (rest.prepend (front ++ ws.map Word.token)) (.ok (a, rest))

variable {stop stop' lead lead' : Option TokenKind → Prop} {front more : List Token}

namespace Mends

theorem mono (h : Mends x stop lead front) (hstop : ∀ kind, stop' kind → stop kind)
    (hlead : ∀ kind, lead kind → lead' kind) : Mends x stop' lead' front := by
  obtain ⟨ws, a, fair, hws⟩ := h
  refine ⟨ws, a, fair, fun rest hrest => ?_⟩
  obtain ⟨hfirst, hok⟩ := hws rest ⟨hrest.1, hstop _ hrest.2⟩
  exact ⟨fun hnil => ⟨(hfirst hnil).1, hlead _ (hfirst hnil).2⟩, hok⟩

theorem within {construct : Construct} (h : Mends x stop lead front) :
    Mends (fun depth => within construct (x depth)) stop lead front := by
  obtain ⟨ws, a, fair, hws⟩ := h
  exact ⟨ws, a, fair, fun rest hrest => ⟨(hws rest hrest).1, (hws rest hrest).2.within⟩⟩

/-- What the first reader has taken is completed, and then the second one starts afresh. -/
theorem bind (hx : Mends x stop' lead front)
    (hf : ∀ a, Mends (fun depth => f depth a) stop stop' []) :
    Mends (fun depth => x depth >>= f depth) stop lead front := by
  obtain ⟨ws, a, fair, hws⟩ := hx
  obtain ⟨ws', b, fair', hws'⟩ := hf a
  refine ⟨ws ++ ws', b, List.forall_mem_append.mpr ⟨fair, fair'⟩, fun rest hrest => ?_⟩
  obtain ⟨hstop, hsecond⟩ := hws' rest hrest
  obtain ⟨hlead, hfirst⟩ := hws (rest.prepend (ws'.map Word.token)) (hstop rfl)
  rw [List.map_append, Scan.prepend_append]
  refine ⟨hlead, ?_⟩
  rw [← List.append_assoc, Scan.prepend_append]
  exact hfirst.bind hsecond

/-- The first reader has succeeded, and what the second one has taken is completed. -/
theorem after (hx : ∀ rest : Scan, (mid.prepend more).Agrees rest ∨ rest.Shows stop' →
      Eventually x (rest.prepend front) (.ok (a, rest)))
    (hf : Mends (fun depth => f depth a) stop lead more) (hlead : ∀ kind, lead kind → stop' kind)
    (hkeep : front = [] → ∀ kind, lead kind → lead' kind) :
    Mends (fun depth => x depth >>= f depth) stop lead' (front ++ more) := by
  obtain ⟨ws, b, fair, hws⟩ := hf
  refine ⟨ws, b, fair, fun rest hrest => ?_⟩
  obtain ⟨hfirst, hsecond⟩ := hws rest hrest
  constructor
  · intro hnil
    obtain ⟨hfront, hmore⟩ := List.append_eq_nil_iff.mp hnil
    exact ⟨(hfirst hmore).1, hkeep hfront _ (hfirst hmore).2⟩
  · rw [List.append_assoc, Scan.prepend_append]
    refine (hx _ ?_).bind hsecond
    rw [Scan.prepend_append]
    by_cases hmore : more = []
    · subst hmore
      exact .inr ⟨(hfirst rfl).1, hlead _ (hfirst rfl).2⟩
    · exact .inl (.prepend fun hnil => absurd hnil hmore)

/-- Where the reader goes on as another one behind its first tokens, given what comes next. -/
theorem step (front : List Token) (good : Scan → Prop) (k : Nat)
    (heq : ∀ depth, ∀ rest : Scan, good rest →
      x (depth + k) (rest.prepend front) = y depth rest)
    (hgood : more ≠ [] → ∀ rest : Scan, good (rest.prepend more)) (hy : Mends y stop lead more)
    (hlead : ∀ rest : Scan, rest.Shows lead → good rest)
    (hkeep : front = [] → ∀ kind, lead kind → lead' kind) : Mends x stop lead' (front ++ more) := by
  obtain ⟨ws, a, fair, hws⟩ := hy
  refine ⟨ws, a, fair, fun rest hrest => ?_⟩
  obtain ⟨hfirst, hok⟩ := hws rest hrest
  constructor
  · intro hnil
    obtain ⟨hfront, hmore⟩ := List.append_eq_nil_iff.mp hnil
    exact ⟨(hfirst hmore).1, hkeep hfront _ (hfirst hmore).2⟩
  · rw [List.append_assoc, Scan.prepend_append]
    refine Eventually.shift k (fun depth => heq depth _ ?_) hok
    by_cases hmore : more = []
    · subst hmore
      exact hlead _ (hfirst rfl)
    · rw [Scan.prepend_append]
      exact hgood hmore _

/-- Where the reader goes on as another one, given what comes next. -/
theorem given {p : Option TokenKind → Prop} (k : Nat)
    (heq : ∀ depth, ∀ rest : Scan, rest.Shows p → x (depth + k) rest = y depth rest)
    (hy : Mends y stop lead []) (hlead : ∀ kind, lead kind → p kind) : Mends x stop lead [] :=
  hy.step [] (fun rest => rest.Shows p) k heq (fun hnil => absurd rfl hnil)
    (fun _ hrest => ⟨hrest.1, hlead _ hrest.2⟩) fun _ _ => id

/-- Where the reader takes nothing, given what comes next. -/
theorem idle {p : Option TokenKind → Prop} (k : Nat)
    (hx : ∀ depth, ∀ rest : Scan, rest.Shows p → x (depth + k) rest = .ok (a, rest))
    (hstop : ∀ kind, stop kind → p kind) : Mends x stop stop [] :=
  ⟨[], a, nofun, fun rest hrest =>
    ⟨fun _ => hrest, .always k fun depth => hx depth rest ⟨hrest.1, hstop _ hrest.2⟩⟩⟩

/-- A word that the reader takes first. -/
theorem start {w : Word} (fair : w.Fair) (k : Nat)
    (heq : ∀ depth, ∀ rest : Scan, x (depth + k) (rest.prepend [w.token]) = y depth rest)
    (hy : Mends y stop lead []) : Mends x stop (· = some w.kind) [] := by
  obtain ⟨ws, a, hfair, hws⟩ := hy
  refine ⟨w :: ws, a, List.forall_mem_cons.mpr ⟨fair, hfair⟩, fun rest hrest => ?_⟩
  refine ⟨fun _ => ⟨nofun, rfl⟩, .shift k (fun depth => ?_) (hws rest hrest).2⟩
  exact heq depth (rest.prepend (ws.map Word.token))

/-- Where the reader is another one, one deeper. -/
theorem deepen (heq : ∀ depth, x (depth + 1) = y depth) (hy : Mends y stop lead more) :
    Mends x stop lead more :=
  hy.step [] (fun _ => True) 1 (fun depth rest _ => congrFun (heq depth) rest) (fun _ _ => trivial)
    (fun _ _ => trivial) fun _ _ => id

end Mends

end Reader

end BlockLang
