import BlockLang.Proofs.Printing.Expr
import BlockLang.Proofs.Reading.Gives

namespace BlockLang

variable {spell : Double → List Char}

/-- What comes next ends an expression. -/
def Closes (tokens : List Token) : Prop :=
  ∃ kind ∈ [TokenKind.closeParen, .semicolon, .comma], tokens.head?.map (·.kind) = some kind

theorem closes_cons {token : Token} {tokens : List Token}
    (h : token.kind ∈ [TokenKind.closeParen, .semicolon, .comma]) : Closes (token :: tokens) :=
  ⟨token.kind, h, rfl⟩

namespace Closes

variable {tokens : List Token}

theorem exists_cons (h : Closes tokens) : ∃ token more, tokens = token :: more ∧
    token.kind ∈ [TokenKind.closeParen, .semicolon, .comma] := by
  obtain ⟨kind, hkind, hhead⟩ := h
  obtain ⟨token, htoken, rfl⟩ := Option.map_eq_some_iff.mp hhead
  obtain ⟨more, rfl⟩ := List.head?_eq_some_iff.mp htoken
  exact ⟨token, more, rfl, hkind⟩

theorem clear (h : Closes tokens) (ending : Ending) : ending.Clear tokens := by
  obtain ⟨_, _, rfl, _⟩ := h.exists_cons
  nofun

theorem ne (h : Closes tokens) (kind : TokenKind)
    (hkind : kind ∉ [TokenKind.closeParen, .semicolon, .comma]) :
    tokens.head?.map (·.kind) ≠ some kind := by
  obtain ⟨_, hmem, hhead⟩ := h
  intro heq
  rw [hhead, Option.some.injEq] at heq
  exact hkind (heq ▸ hmem)

theorem ahead (h : Closes tokens) : InfixOp.ahead? tokens = none := by
  obtain ⟨token, _, rfl, hkind⟩ := h.exists_cons
  change InfixOp.ofToken? token.kind = none
  simp only [List.mem_cons, List.not_mem_nil, or_false] at hkind
  rcases hkind with hkind | hkind | hkind <;> rw [hkind] <;> rfl

end Closes

/-- What comes next ends parts that are separated by commas. -/
def EndsParts (tokens : List Token) : Prop :=
  ∃ kind ∈ [TokenKind.closeParen, .semicolon], tokens.head?.map (·.kind) = some kind

theorem endsParts_cons {token : Token} {tokens : List Token}
    (h : token.kind ∈ [TokenKind.closeParen, .semicolon]) : EndsParts (token :: tokens) :=
  ⟨token.kind, h, rfl⟩

theorem endsParts_semicolon {token : Token} {tokens : List Token} (h : token.kind = .semicolon) :
    EndsParts (token :: tokens) :=
  endsParts_cons (by rw [h]; decide)

theorem EndsParts.closes {tokens : List Token} (h : EndsParts tokens) : Closes tokens := by
  obtain ⟨kind, hkind, hhead⟩ := h
  exact ⟨kind, by grind, hhead⟩

theorem EndsParts.ne_comma {tokens : List Token} (h : EndsParts tokens) :
    tokens.head?.map (·.kind) ≠ some .comma := by
  obtain ⟨kind, hkind, hhead⟩ := h
  intro heq
  rw [hhead, Option.some.injEq] at heq
  rw [heq] at hkind
  exact absurd hkind (by decide)

namespace Reader

variable {ending : Ending} {tokens mid rest : List Token} {depth : Nat}

/-- An expression is read from the tokens of its words. -/
theorem gives_expr {e : Expr} (h : e.Writable spell) (written : Written (e.words spell) tokens)
    (closes : Closes rest) (hd : 2 * tokens.length + 1 ≤ depth) :
    Gives ending (expr depth) (tokens ++ rest) rest fun e' => e'.withoutLines = e.withoutLines := by
  obtain ⟨opened, e', hderives, hlines⟩ := Expr.derives_words h tokens written
  have hfits : Fits ending 1 opened rest :=
    fits_of_none (closes.clear ending) closes.ahead fun _ => closes.ne .colon (by decide)
  have hleads : Leads ending 0 (tokens ++ rest) e' rest :=
    leads_of_derives hderives (fun _ _ => Nat.zero_le _) hfits
  refine ⟨e', (hleads.expr hfits.clear closes.ahead).read depth ?_, hlines⟩
  simp only [List.length_append, Task.slack]
  omega

theorem gives_initializer {init : Option Expr} (h : ∀ e, init = some e → e.Writable spell)
    (written : Written (Declarator.initWords spell init) tokens) (closes : Closes rest)
    (hd : 2 * tokens.length ≤ depth) :
    Gives ending (initializer? depth) (tokens ++ rest) rest fun init' =>
      init'.map Expr.withoutLines = init.map Expr.withoutLines := by
  cases init with
  | none =>
    cases written
    exact .missed (closes.clear ending) (closes.ne _ (by decide)) (.pure rfl)
  | some e =>
    obtain ⟨token, more, rfl, kind, _, hmore⟩ := written.first
    rw [List.length_cons] at hd
    refine .found kind (.step (advance_eq token) ?_)
    refine .bind (gives_expr (h e rfl) hmore closes (by omega)).within ?_
    intro e' he
    exact .pure (congrArg some he)

/-- A declared name is read up to what stands behind it. -/
theorem gives_declarator {ty : Ty} {d : Declarator} {Q : List Declarator → Prop}
    (h : d.Writable spell ty) (written : Written (d.words spell) tokens) (closes : Closes mid)
    (hd : 2 * tokens.length ≤ depth)
    (more : ∀ n d', depth = n + 1 → d'.withoutLines = d.withoutLines →
      Gives ending (do
        if (← peekKind) = some .comma then
          advance
          return d' :: (← declarators ty n)
        else
          return [d']) mid rest Q) :
    Gives ending (declarators ty depth) (tokens ++ mid) rest Q := by
  obtain ⟨token, init, rfl, kind, text, hinit⟩ := written.first
  rw [List.length_cons] at hd
  obtain ⟨n, rfl⟩ : ∃ n, depth = n + 1 := Nat.exists_eq_add_one.mpr (by omega)
  refine .step (expect_eq kind) (.step (advance_eq token) ?_)
  refine .bind (gives_initializer h.init hinit closes (by omega)) ?_
  intro init' hlines
  refine more n ⟨token.line, token.text, ty, init', none⟩ rfl ?_
  have hname : token.text = d.name := String.toList_inj.mp text
  simp [Declarator.withoutLines, hname, h.ty, h.slot, hlines]

theorem gives_declarators {ty : Ty} {names : List Declarator} (h : ∀ d ∈ names, d.Writable spell ty)
    (nonempty : names ≠ [])
    (written : Written (separated (names.map (Declarator.words spell))) tokens)
    (ends : EndsParts rest) (hd : 2 * tokens.length ≤ depth) :
    Gives ending (declarators ty depth) (tokens ++ rest) rest fun names' =>
      names'.map Declarator.withoutLines = names.map Declarator.withoutLines := by
  induction names generalizing tokens depth with
  | nil => exact absurd rfl nonempty
  | cons d names ih =>
    obtain ⟨hfirst, hnames⟩ := List.forall_mem_cons.mp h
    cases names with
    | nil =>
      refine gives_declarator hfirst written ends.closes hd ?_
      intro _ d' _ hlines
      exact .missed (ends.closes.clear ending) ends.ne_comma (.pure (by simp [hlines]))
    | cons next names =>
      obtain ⟨first, comma, more, rfl, hwritten, kind, hmore⟩ := Written.divide written
      have hcomma : Closes (comma :: (more ++ rest)) := closes_cons (by rw [kind]; decide)
      simp only [List.length_append, List.length_cons] at hd
      rw [List.append_assoc, List.cons_append]
      refine gives_declarator hfirst hwritten hcomma (by omega) ?_
      intro n d' hn hlines
      refine .found kind (.step (advance_eq comma) ?_)
      refine .bind (ih hnames nofun hmore (by omega)) ?_
      intro names' hnames'
      exact .pure (by simp [hlines, hnames'])

/-- The first token of a declaration names its type. -/
theorem exists_ty {ty : Ty} {names : List Declarator} (h : Declarator.AllWritable spell ty names)
    (written : Written (Declarator.wordsOfAll spell ty names) tokens) :
    ∃ token more, tokens = token :: more ∧ token.kind.ty? = some ty ∧
      Written (separated (names.map (Declarator.words spell))) more := by
  obtain ⟨first, more, rfl, hty, hnames⟩ := written.split
  obtain ⟨kind, hkind⟩ := h.kind
  cases ty with
  | void | any => cases hkind
  | _ =>
    obtain ⟨token, rfl, hword, _⟩ := hty.only
    exact ⟨token, more, rfl, by rw [hword]; rfl, hnames⟩

/-- A declaration is read up to its semicolon, or what stands in place of that. -/
theorem gives_declaration {ty : Ty} {names : List Declarator}
    (h : Declarator.AllWritable spell ty names)
    (written : Written (Declarator.wordsOfAll spell ty names) tokens) (ends : EndsParts rest)
    (hd : 2 * tokens.length ≤ depth) :
    Gives ending (declaration ty depth) (tokens ++ rest) rest fun names' =>
      names'.map Declarator.withoutLines = names.map Declarator.withoutLines := by
  obtain ⟨token, more, rfl, _, hnames⟩ := exists_ty h written
  rw [List.length_cons] at hd
  exact .step (advance_eq token) (gives_declarators h.each h.some hnames ends (by omega))

theorem gives_evals {ss : List Stmt} (h : Stmt.EvalsWritable spell ss) (nonempty : ss ≠ [])
    (written : Written (separated (ss.map (Stmt.evalWords spell))) tokens)
    (ends : EndsParts rest) (hd : 2 * tokens.length + 2 ≤ depth) :
    Gives ending (evals depth) (tokens ++ rest) rest fun ss' =>
      Stmt.allWithoutLines ss' = Stmt.allWithoutLines ss := by
  induction ss generalizing tokens depth with
  | nil => exact absurd rfl nonempty
  | cons s ss ih =>
    obtain ⟨hfirst, hss⟩ := List.forall_mem_cons.mp h
    obtain ⟨e, rfl, he⟩ := hfirst
    obtain ⟨n, rfl⟩ : ∃ n, depth = n + 1 := Nat.exists_eq_add_one.mpr (by omega)
    cases ss with
    | nil =>
      refine .bind (gives_expr he written ends.closes (by omega)) ?_
      intro e' hlines
      refine .missed (ends.closes.clear ending) ends.ne_comma (.pure ?_)
      simp [Stmt.allWithoutLines, Stmt.withoutLines, hlines]
    | cons next ss =>
      obtain ⟨first, comma, more, rfl, hwritten, kind, hmore⟩ := Written.divide written
      have hcomma : Closes (comma :: (more ++ rest)) := closes_cons (by rw [kind]; decide)
      simp only [List.length_append, List.length_cons] at hd
      rw [List.append_assoc, List.cons_append]
      refine .bind (gives_expr he hwritten hcomma (by omega)) ?_
      intro e' hlines
      refine .found kind (.step (advance_eq comma) ?_)
      refine .bind (ih hss nofun hmore (by omega)) ?_
      intro ss' hss'
      refine .pure ?_
      rw [Stmt.allWithoutLines, hss', Stmt.withoutLines, hlines]
      rfl

theorem exists_startsExpr {e : Expr} (h : e.Writable spell)
    (written : Written (e.words spell) tokens) :
    ∃ token more, tokens = token :: more ∧ token.kind.startsExpr = true := by
  obtain ⟨w, ws, hws, hstart⟩ := e.words_eq h
  rw [hws] at written
  obtain ⟨token, more, rfl, kind, _⟩ := written.first
  exact ⟨token, more, rfl, kind ▸ hstart⟩

theorem exists_startsExpr_of_evals {ss : List Stmt} (h : Stmt.EvalsWritable spell ss)
    (nonempty : ss ≠ []) (written : Written (separated (ss.map (Stmt.evalWords spell))) tokens) :
    ∃ token more, tokens = token :: more ∧ token.kind.startsExpr = true := by
  obtain ⟨s, ss, rfl⟩ := List.exists_cons_of_ne_nil nonempty
  obtain ⟨e, rfl, he⟩ := h s (List.mem_cons_self ..)
  cases ss with
  | nil => exact exists_startsExpr he written
  | cons next ss =>
    obtain ⟨first, more, rfl, hwritten, _⟩ := Written.split written
    obtain ⟨token, first, rfl, hstart⟩ := exists_startsExpr he hwritten
    exact ⟨token, first ++ more, rfl, hstart⟩

theorem gives_evalsUpTo {last : TokenKind} {after : Token} {ss : List Stmt}
    (h : Stmt.EvalsWritable spell ss)
    (written : Written (separated (ss.map (Stmt.evalWords spell))) tokens)
    (kind : after.kind = last) (hlast : last ∈ [TokenKind.closeParen, .semicolon])
    (hd : 2 * tokens.length + 2 ≤ depth) :
    Gives ending (evalsUpTo last depth) (tokens ++ after :: rest) (after :: rest) fun ss' =>
      Stmt.allWithoutLines ss' = Stmt.allWithoutLines ss := by
  by_cases hss : ss = []
  · subst hss
    cases written
    exact .found kind (.pure rfl)
  · obtain ⟨token, more, rfl, hstart⟩ := exists_startsExpr_of_evals h hss written
    have hends : EndsParts (after :: rest) := endsParts_cons (kind ▸ hlast)
    refine .missed (clear_cons token) ?_ (gives_evals h hss written hends hd)
    rw [List.cons_append, List.head?_cons, Option.map_some]
    grind [TokenKind.startsExpr]

/-- What a loop starts with is read up to the first semicolon. -/
theorem gives_loopStart {names : List Declarator} {init : List Stmt} {after : Token}
    (h : (names = [] ∧ Stmt.EvalsWritable spell init) ∨
      (init = [] ∧ ∃ ty, Declarator.AllWritable spell ty names))
    (written : Written (Stmt.startWords spell init names) tokens)
    (kind : after.kind = .semicolon) (hd : 2 * tokens.length + 2 ≤ depth) :
    Gives ending (loopStart depth) (tokens ++ after :: rest) (after :: rest) fun start =>
      start.1.map Declarator.withoutLines = names.map Declarator.withoutLines ∧
        Stmt.allWithoutLines start.2 = Stmt.allWithoutLines init := by
  rcases h with ⟨rfl, hinit⟩ | ⟨rfl, ty, hnames⟩
  · obtain ⟨token, more, htokens, hty⟩ : ∃ token more, tokens ++ after :: rest = token :: more ∧
        token.kind.ty? = none := by
      by_cases hnil : init = []
      · subst hnil
        cases written
        exact ⟨after, rest, rfl, by rw [kind]; rfl⟩
      · obtain ⟨token, more, rfl, hstart⟩ := exists_startsExpr_of_evals hinit hnil written
        exact ⟨token, more ++ after :: rest, rfl, TokenKind.ty?_of_startsExpr hstart⟩
    have hpeek : (((tokens ++ after :: rest).head?.map (·.kind)).bind TokenKind.ty?) = none := by
      rw [htokens]
      exact hty
    refine .step (peekKind_eq (htokens ▸ clear_cons token)) ?_
    rw [hpeek]
    refine .bind (gives_evalsUpTo hinit written kind (by decide) hd) ?_
    intro init' hlines
    exact .pure ⟨rfl, hlines⟩
  · obtain ⟨d, ds, rfl⟩ := List.exists_cons_of_ne_nil hnames.some
    have hd' : d.ty = ty := (hnames.each d (List.mem_cons_self ..)).ty
    rw [Stmt.startWords, hd'] at written
    obtain ⟨token, more, rfl, hty, _⟩ := exists_ty hnames written
    refine .step (peekKind_eq (clear_cons token)) ?_
    rw [List.cons_append, List.head?_cons, Option.map_some, Option.bind_some, hty]
    refine .bind (gives_declaration hnames written (endsParts_semicolon kind) (by omega)) ?_
    intro names' hlines
    exact .pure ⟨hlines, rfl⟩

theorem gives_loopCondition {condition : Option Expr} {after : Token}
    (h : ∀ e, condition = some e → e.Writable spell)
    (written : Written (Stmt.conditionWords spell condition) tokens)
    (kind : after.kind = .semicolon) (hd : 2 * tokens.length + 1 ≤ depth) :
    Gives ending (loopCondition depth) (tokens ++ after :: rest) (after :: rest) fun condition' =>
      condition'.map Expr.withoutLines = condition.map Expr.withoutLines := by
  cases condition with
  | none =>
    cases written
    exact .found kind (.pure rfl)
  | some e =>
    obtain ⟨token, more, rfl, hstart⟩ := exists_startsExpr (h e rfl) written
    refine .missed (clear_cons token) ?_ ?_
    · rw [List.cons_append, List.head?_cons, Option.map_some]
      grind [TokenKind.startsExpr]
    · refine .bind (gives_expr (h e rfl) written (endsParts_semicolon kind).closes hd).within ?_
      intro e' hlines
      exact .pure (congrArg some hlines)

theorem gives_parenthesized {e : Expr} {before after : Token} (h : e.Writable spell)
    (opens : before.kind = .openParen) (written : Written (e.words spell) tokens)
    (closes : after.kind = .closeParen) (hd : 2 * tokens.length + 1 ≤ depth) :
    Gives ending (parenthesized depth) (before :: (tokens ++ after :: rest)) rest fun e' =>
      e'.withoutLines = e.withoutLines := by
  have hcloses : Closes (after :: rest) := closes_cons (by rw [closes]; decide)
  refine .step (consume_eq opens) (.bind (gives_expr h written hcloses hd) ?_)
  intro e' hlines
  exact .step (consume_eq closes) (.pure hlines)

/-- A statement is read from the tokens of its words. -/
def Rereads (spell : Double → List Char) (ending : Ending) (s : Stmt) : Prop :=
  ∀ (tokens rest : List Token) (depth : Nat), Written (s.words spell) tokens →
    2 * tokens.length + 2 ≤ depth →
    Gives ending (stmt depth) (tokens ++ rest) rest fun s' => s'.withoutLines = s.withoutLines

theorem rereads_declare {line : Nat} {ty : Ty} {names : List Declarator}
    (h : Declarator.AllWritable spell ty names) :
    Rereads spell ending (.declare line ty names) := by
  intro tokens rest depth written hd
  obtain ⟨n, rfl⟩ : ∃ n, depth = n + 1 := Nat.exists_eq_add_one.mpr (by omega)
  obtain ⟨first, after, rfl, hfirst, closes⟩ := Written.last written
  rw [List.length_append, List.length_singleton] at hd
  have hnames : Gives ending (declaration ty n) (first ++ after :: rest) (after :: rest)
      fun names' => names'.map Declarator.withoutLines = names.map Declarator.withoutLines :=
    gives_declaration h hfirst (endsParts_semicolon closes) (by omega)
  obtain ⟨⟨kind, text, offset, line'⟩, more, rfl, hty, _⟩ := exists_ty h hfirst
  rw [stmt, List.append_assoc]
  refine .within (.step (demand_eq _ _) ?_)
  have hdeclared : Gives ending (do
      let names ← declaration ty n
      consume .semicolon
      return .declare line' ty names) (⟨kind, text, offset, line'⟩ :: more ++ after :: rest) rest
      fun s' : Stmt => s'.withoutLines = (Stmt.declare line ty names).withoutLines := by
    refine hnames.bind ?_
    intro names' hlines
    exact .step (consume_eq closes) (.pure (by rw [Stmt.withoutLines, Stmt.withoutLines, hlines]))
  cases kind with
  | keyword word => cases word <;> first | cases hty; exact hdeclared | cases hty
  | _ => cases hty

/-- A statement that starts with nothing of its own is an expression. -/
theorem rereads_eval {e : Expr} (h : e.Writable spell) : Rereads spell ending (.eval e) := by
  intro tokens rest depth written hd
  obtain ⟨n, rfl⟩ : ∃ n, depth = n + 1 := Nat.exists_eq_add_one.mpr (by omega)
  obtain ⟨first, after, rfl, hfirst, closes⟩ := Written.last written
  rw [List.length_append, List.length_singleton] at hd
  have heval : Gives ending (evalStmt n) (first ++ after :: rest) rest fun s' =>
      s'.withoutLines = (Stmt.eval e).withoutLines := by
    refine .bind (gives_expr h hfirst (endsParts_semicolon closes).closes (by omega)) ?_
    intro e' hlines
    exact .step (consume_eq closes) (.pure (by rw [Stmt.withoutLines, Stmt.withoutLines, hlines]))
  obtain ⟨⟨kind, text, offset, line⟩, more, rfl, hstart⟩ := exists_startsExpr h hfirst
  rw [stmt, List.append_assoc]
  refine .within (.step (demand_eq _ _) ?_)
  cases kind with
  | keyword word => cases word <;> first | exact heval | cases hstart
  | openBrace => cases hstart
  | _ => exact heval

theorem rereads_print {line : Nat} {e : Expr} (h : e.Writable spell) :
    Rereads spell ending (.print line e) := by
  intro tokens rest depth written hd
  obtain ⟨n, rfl⟩ : ∃ n, depth = n + 1 := Nat.exists_eq_add_one.mpr (by omega)
  obtain ⟨⟨kind, text, offset, line'⟩, _, rfl, hkind, _, hmore⟩ := Written.first written
  obtain ⟨before, _, rfl, opens, _, hmore⟩ := hmore.first
  obtain ⟨inner, after, _, rfl, hinner, closes, hlast⟩ := hmore.divide
  obtain ⟨semicolon, rfl, ends, _⟩ := hlast.only
  simp only [List.length_append, List.length_cons, List.length_nil] at hd
  cases hkind
  rw [stmt]
  simp only [List.cons_append, List.append_assoc, List.nil_append]
  refine .within (.step (demand_eq _ _) (.step (advance_eq _) ?_))
  refine .bind (gives_parenthesized h opens hinner closes (by omega)) ?_
  intro e' hlines
  exact .step (consume_eq ends) (.pure (by rw [Stmt.withoutLines, Stmt.withoutLines, hlines]))

theorem rereads_doWhile {line : Nat} {body : Stmt} {condition : Expr}
    (hbody : Rereads spell ending body) (h : condition.Writable spell) :
    Rereads spell ending (.doWhile line body condition) := by
  intro tokens rest depth written hd
  obtain ⟨n, rfl⟩ : ∃ n, depth = n + 1 := Nat.exists_eq_add_one.mpr (by omega)
  obtain ⟨⟨kind, text, offset, line'⟩, _, rfl, hkind, _, hmore⟩ := Written.first written
  obtain ⟨first, word, _, rfl, hfirst, hword, hmore⟩ := hmore.divide
  obtain ⟨before, _, rfl, opens, _, hmore⟩ := hmore.first
  obtain ⟨inner, after, _, rfl, hinner, closes, hlast⟩ := hmore.divide
  obtain ⟨semicolon, rfl, ends, _⟩ := hlast.only
  simp only [List.length_append, List.length_cons, List.length_nil] at hd
  cases hkind
  rw [stmt]
  simp only [List.cons_append, List.append_assoc, List.nil_append]
  refine .within (.step (demand_eq _ _) (.within (.step (keyword_eq rfl) ?_)))
  refine .bind (hbody first _ n hfirst (by omega)) ?_
  intro body' hlines
  refine .step (keyword_eq hword) (.bind (gives_parenthesized h opens hinner closes (by omega)) ?_)
  intro condition' hlines'
  exact .step (consume_eq ends)
    (.pure (by rw [Stmt.withoutLines, Stmt.withoutLines, hlines, hlines']))

theorem rereads_forLoop {line : Nat} {names : List Declarator} {init update : List Stmt}
    {condition : Option Expr} {body : Stmt}
    (hstart : (names = [] ∧ Stmt.EvalsWritable spell init) ∨
      (init = [] ∧ ∃ ty, Declarator.AllWritable spell ty names))
    (hcondition : ∀ e, condition = some e → e.Writable spell)
    (hupdate : Stmt.EvalsWritable spell update) (hbody : Rereads spell ending body) :
    Rereads spell ending (.forLoop line names init condition update body) := by
  intro tokens rest depth written hd
  obtain ⟨n, rfl⟩ : ∃ n, depth = n + 1 := Nat.exists_eq_add_one.mpr (by omega)
  obtain ⟨⟨kind, text, offset, line'⟩, _, rfl, hkind, _, hmore⟩ := Written.first written
  obtain ⟨before, _, rfl, opens, _, hmore⟩ := hmore.first
  obtain ⟨start, first, _, rfl, hstarts, ends, hmore⟩ := hmore.divide
  obtain ⟨middle, second, _, rfl, hmiddle, ends', hmore⟩ := hmore.divide
  obtain ⟨steps, after, last, rfl, hsteps, closes, hlast⟩ := hmore.divide
  simp only [List.length_append, List.length_cons] at hd
  cases hkind
  rw [stmt]
  simp only [List.cons_append, List.append_assoc]
  refine .within (.step (demand_eq _ _) (.within (.step (keyword_eq rfl) ?_)))
  refine .step (consume_eq opens) (.bind (gives_loopStart hstart hstarts ends (by omega)) ?_)
  intro ⟨names', init'⟩ ⟨hnames, hinit⟩
  refine .step (consume_eq ends) ?_
  refine .bind (gives_loopCondition hcondition hmiddle ends' (by omega)) ?_
  intro condition' hlines
  refine .step (consume_eq ends') ?_
  refine .bind (gives_evalsUpTo hupdate hsteps closes (by decide) (by omega)) ?_
  intro update' hlines'
  refine .step (consume_eq closes) (.bind (hbody last rest n hlast (by omega)) ?_)
  intro body' hlines''
  exact .pure (by
    rw [Stmt.withoutLines, Stmt.withoutLines, hnames, hinit, hlines, hlines', hlines''])

/-- No statement starts with a closing brace. -/
theorem exists_not_closeBrace {s : Stmt} (h : s.Writable spell)
    (written : Written (s.words spell) tokens) :
    ∃ token more, tokens = token :: more ∧ token.kind ≠ .closeBrace := by
  cases s with
  | declare line ty names =>
    obtain ⟨first, more, rfl, hfirst, _⟩ := Written.split written
    obtain ⟨token, first, rfl, hty, _⟩ := exists_ty h hfirst
    refine ⟨token, _, rfl, ?_⟩
    intro hkind
    rw [hkind] at hty
    cases hty
  | eval e =>
    obtain ⟨first, more, rfl, hfirst, _⟩ := Written.split written
    obtain ⟨token, first, rfl, hstart⟩ := exists_startsExpr h hfirst
    refine ⟨token, _, rfl, ?_⟩
    intro hkind
    rw [hkind] at hstart
    cases hstart
  | print | block | doWhile | forLoop =>
    obtain ⟨token, more, rfl, kind, _⟩ := Written.first written
    exact ⟨token, more, rfl, by rw [kind]; nofun⟩

-- By induction on the tree. On the way down, the depth stays above two for each token that is left.
mutual

theorem rereads (s : Stmt) (h : s.Writable spell) : Rereads spell ending s :=
  match s with
  | .declare _ _ _ => rereads_declare h
  | .eval _ => rereads_eval h
  | .print _ _ => rereads_print h
  | .block _ body => by
    intro tokens rest depth written hd
    obtain ⟨n, rfl⟩ : ∃ n, depth = n + 1 := Nat.exists_eq_add_one.mpr (by omega)
    obtain ⟨⟨kind, text, offset, line⟩, _, rfl, hkind, _, hmore⟩ := Written.first written
    obtain ⟨inner, after, rfl, hinner, closes⟩ := hmore.last
    simp only [List.length_append, List.length_cons, List.length_nil] at hd
    cases hkind
    rw [stmt]
    simp only [List.cons_append, List.append_assoc, List.nil_append]
    refine .within (.step (demand_eq _ _) (.step (advance_eq _) ?_))
    refine .bind (gives_blockRest body h inner rest n hinner closes (by omega)) ?_
    intro body' hlines
    exact .pure (by rw [Stmt.withoutLines, Stmt.withoutLines, hlines])
  | .doWhile _ body _ => rereads_doWhile (rereads body h.1) h.2
  | .forLoop _ _ _ _ _ body =>
    rereads_forLoop h.1 h.2.1 h.2.2.1 (rereads body h.2.2.2)

theorem gives_blockRest (ss : List Stmt) (h : Stmt.AllWritable spell ss) (tokens rest : List Token)
    (depth : Nat) {after : Token} (written : Written (Stmt.wordsOfAll spell ss) tokens)
    (closes : after.kind = .closeBrace) (hd : 2 * tokens.length + 4 ≤ depth) :
    Gives ending (blockRest depth) (tokens ++ after :: rest) rest fun ss' =>
      Stmt.allWithoutLines ss' = Stmt.allWithoutLines ss := by
  obtain ⟨n, rfl⟩ : ∃ n, depth = n + 1 := Nat.exists_eq_add_one.mpr (by omega)
  rw [blockRest]
  match ss with
  | [] =>
    cases written
    refine .step (demand_eq _ after) ?_
    rw [if_pos closes]
    exact .step (advance_eq after) (.pure rfl)
  | s :: ss =>
    obtain ⟨first, more, rfl, hfirst, hmore⟩ := Written.split written
    obtain ⟨token, first, rfl, hkind⟩ := exists_not_closeBrace h.1 hfirst
    simp only [List.length_append, List.length_cons] at hd
    rw [List.append_assoc]
    refine .step (demand_eq _ token) ?_
    rw [if_neg hkind]
    refine .bind (rereads s h.1 _ _ n hfirst (by rw [List.length_cons]; omega)) ?_
    intro s' hs
    refine .bind (gives_blockRest ss h.2 more rest n hmore closes (by omega)) ?_
    intro ss' hss
    exact .pure (by rw [Stmt.allWithoutLines, Stmt.allWithoutLines, hs, hss])

end

theorem gives_program {ss : List Stmt} (h : Stmt.AllWritable spell ss) (last line : Nat)
    (written : Written (Stmt.wordsOfAll spell ss) tokens) (hd : 2 * tokens.length + 3 ≤ depth) :
    Gives (.finished last line) (program depth) tokens [] fun ss' =>
      Stmt.allWithoutLines ss' = Stmt.allWithoutLines ss := by
  induction ss generalizing tokens depth with
  | nil =>
    obtain ⟨n, rfl⟩ : ∃ n, depth = n + 1 := Nat.exists_eq_add_one.mpr (by omega)
    cases written
    exact .step (peek_eq fun _ => ⟨last, line, rfl⟩) (.pure rfl)
  | cons s ss ih =>
    obtain ⟨n, rfl⟩ : ∃ n, depth = n + 1 := Nat.exists_eq_add_one.mpr (by omega)
    obtain ⟨first, more, rfl, hfirst, hmore⟩ := Written.split written
    obtain ⟨token, first, rfl, _⟩ := exists_not_closeBrace h.1 hfirst
    simp only [List.length_append, List.length_cons] at hd
    rw [program]
    refine .step (peek_eq (clear_cons token)) ?_
    refine .bind (rereads s h.1 _ more n hfirst (by rw [List.length_cons]; omega)) ?_
    intro s' hs
    refine .bind (ih h.2 hmore (by omega)) ?_
    intro ss' hss
    exact .pure (by rw [Stmt.allWithoutLines, Stmt.allWithoutLines, hs, hss])

end Reader

/-- A program that is written and parsed again is the same program, lines aside. -/
theorem Program.parse_text {program : Program} (h : Stmt.AllWritable spell program)
    (path : Option String) : ∃ program',
    Program.parse (.ofString (program.text spell) path) = .ok program' ∧
      Stmt.allWithoutLines program' = Stmt.allWithoutLines program := by
  obtain ⟨tokens, last, line, hscan, written⟩ := Program.scan_text h path
  have hd : 2 * tokens.length + 3 ≤ Reader.depthOf ⟨tokens, .finished last line⟩ := by
    simp only [Reader.depthOf]
    omega
  obtain ⟨program', hread, hlines⟩ := Reader.gives_program h last line written hd
  refine ⟨program', ?_, hlines⟩
  unfold Program.parse
  rw [hscan]
  dsimp only
  rw [hread]
  rfl

/-- A loop over a negative int that prints a quote, and a conditional around a double. -/
theorem Program.parse_text_loop : ∃ program program' : Program,
    program.text (fun _ => ['0', '.', '5']) =
      "for (int i = -5; i < (9); i = (i + (1))) \x7b print (\"\\\"\"); \x7d b ? (0.5);" ∧
    Stmt.AllWritable (fun _ => ['0', '.', '5']) program ∧
    Program.parse (.ofString (program.text fun _ => ['0', '.', '5'])) = .ok program' ∧
    Stmt.allWithoutLines program' = Stmt.allWithoutLines program := by
  let i : Expr := .var (.untyped 1) "i" none
  let int (n : Int32) : Expr := .literal (.untyped 1) (.int n)
  let loop : Stmt := .forLoop 1 [⟨1, "i", .int, some (int (-5)), none⟩] []
    (some (.binary (.untyped 1) (.compare .less) i (int 9)))
    [.eval (.binary (.untyped 1) .assign i (.binary (.untyped 1) (.arith .add) i (int 1)))]
    (.block 1 [.print 1 (.literal (.untyped 1) (.string "\""))])
  let test : Stmt := .eval (.guarded (.untyped 1) (.var (.untyped 1) "b" none)
    (.literal (.untyped 1) (.double (Double.ofDigits ['0'] ['5']))))
  have hi : IsName "i" := ⟨⟨'i', [], rfl, rfl⟩, List.all_eq_true.mp rfl, rfl⟩
  have hb : IsName "b" := ⟨⟨'b', [], rfl, rfl⟩, List.all_eq_true.mp rfl, rfl⟩
  have hint (n : Int32) : (int n).Writable fun _ => ['0', '.', '5'] := ⟨rfl, trivial⟩
  have hvar : i.Writable fun _ => ['0', '.', '5'] := ⟨rfl, rfl, hi⟩
  have hdeclared : Declarator.AllWritable (fun _ => ['0', '.', '5']) .int
      [⟨1, "i", .int, some (int (-5)), none⟩] := by
    refine ⟨⟨_, rfl⟩, nofun, List.forall_mem_singleton.mpr ⟨rfl, rfl, hi, ?_⟩⟩
    intro e he
    cases he
    exact hint (-5)
  have hloop : loop.Writable fun _ => ['0', '.', '5'] := by
    refine ⟨.inr ⟨rfl, .int, hdeclared⟩, ?_, ?_, ⟨rfl, trivial⟩, trivial⟩
    · intro e he
      cases he
      exact ⟨rfl, hvar, hint 9⟩
    · exact List.forall_mem_singleton.mpr ⟨_, rfl, rfl, hvar, rfl, hvar, hint 1⟩
  have hspells : Spells ['0', '.', '5'] (Double.ofDigits ['0'] ['5']) :=
    ⟨['0'], ['5'], rfl, nofun, nofun, List.all_eq_true.mp rfl, List.all_eq_true.mp rfl, rfl⟩
  have hwritable : Stmt.AllWritable (fun _ => ['0', '.', '5']) [loop, test] :=
    ⟨hloop, ⟨rfl, ⟨rfl, rfl, hb⟩, rfl, hspells⟩, trivial⟩
  obtain ⟨program', hparse, hlines⟩ := Program.parse_text hwritable none
  exact ⟨[loop, test], program', by decide +kernel, hwritable, hparse, hlines⟩

end BlockLang
