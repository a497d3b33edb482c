import BlockLang.Proofs.Outlining.Lines
import BlockLang.Stmt.Outline

namespace BlockLang

open Outline

/-- What is shown of a literal: the digits of a number, the word of a boolean, or what a string holds,
escaped. -/
def Literal.shown : Literal → String
  | int value => escapeText (toString value.toInt)
  | double value => escapeText value.text
  | boolean true => escapeText "true"
  | boolean false => escapeText "false"
  | string value => escapeText value

theorem Literal.shown_eq (value : Literal) : value.shown = escapeText value.text := by
  cases value with
  | boolean value => cases value <;> rfl
  | _ => rfl

/-- The expression as it is shown: names are escaped, and literals are what is shown of them. -/
def Expr.shown : Expr → Expr
  | literal mark value => literal mark (.string value.shown)
  | var mark name slot => var mark (escapeText name) slot
  | unary mark op operand => unary mark op operand.shown
  | binary mark op lhs rhs => binary mark op lhs.shown rhs.shown
  | concat mark lhs rhs => concat mark lhs.shown rhs.shown
  | ternary mark condition whenTrue whenFalse =>
    ternary mark condition.shown whenTrue.shown whenFalse.shown
  | guarded mark condition whenTrue => guarded mark condition.shown whenTrue.shown

theorem Expr.line_shown (e : Expr) : e.shown.line = e.line := by
  cases e <;> rfl

def Declarator.shown (d : Declarator) : Declarator :=
  { d with name := escapeText d.name, init := d.init.map Expr.shown }

mutual

def Stmt.shown : Stmt → Stmt
  | declare line ty names => declare line ty (names.map Declarator.shown)
  | eval e => eval e.shown
  | print line e => print line e.shown
  | block line body => block line (shownAll body)
  | doWhile line body condition => doWhile line body.shown condition.shown
  | forLoop line names init condition update body =>
    forLoop line (names.map Declarator.shown) (shownAll init) (condition.map Expr.shown)
      (shownAll update) body.shown

def Stmt.shownAll : List Stmt → List Stmt
  | [] => []
  | s :: ss => s.shown :: shownAll ss

end

namespace Outline

theorem escapeText_repr_inj {m n : Nat} : escapeText m.repr = escapeText n.repr ↔ m = n := by
  have hline (n : Nat) : '\n' ∉ n.repr.toList := by
    intro hmem
    have hdigits : '\n' ∈ Nat.toDigits 10 n := by simpa using hmem
    exact absurd (Nat.isDigit_of_mem_toDigits (by decide) (by decide) hdigits) (by decide)
  rw [escapeText_inj (hline m) (hline n)]
  refine ⟨?_, congrArg Nat.repr⟩
  intro h
  have hdigits : Nat.toDigits 10 m = Nat.toDigits 10 n := by
    simpa using congrArg String.toList h
  rw [← Nat.ofDigitChars_ten_toDigits (n := m), hdigits, Nat.ofDigitChars_ten_toDigits]

theorem escapeText_name_inj {s t : Ty} : escapeText s.name = escapeText t.name ↔ s = t := by
  have hline (ty : Ty) : '\n' ∉ ty.name.toList := by
    cases ty <;> simp [Ty.name]
  rw [escapeText_inj (hline s) (hline t)]
  cases s <;> cases t <;> decide

theorem escapeText_ty_inj {s t : Option Ty} :
    escapeText ((s.map Ty.name).getD "") = escapeText ((t.map Ty.name).getD "") ↔ s = t := by
  have hempty (ty : Ty) : escapeText ty.name ≠ escapeText "" := by
    rw [Ne, escapeText_inj (by cases ty <;> simp [Ty.name]) (by simp)]
    cases ty <;> decide
  cases s with
  | none =>
    cases t with
    | none => simp
    | some t => simp [(hempty t).symm]
  | some s =>
    cases t with
    | none => simp [hempty s]
    | some t => simp [escapeText_name_inj]

theorem escapeText_unary_inj {o p : UnaryOp} : escapeText o.symbol = escapeText p.symbol ↔ o = p := by
  rw [escapeText_inj (by cases o <;> simp [UnaryOp.symbol]) (by cases p <;> simp [UnaryOp.symbol])]
  cases o <;> cases p <;> decide

end Outline

namespace BinaryOp

/-- The operator with this symbol. -/
def ofSymbol? (symbol : String) : Option BinaryOp :=
  [arith .add, arith .subtract, arith .multiply, arith .divide, arith .modulo, bit .or, bit .xor,
    bit .and, logic .and, logic .or, compare .less, compare .lessEqual, compare .greater,
    compare .greaterEqual, compare .equal, compare .notEqual, assign].find? (·.symbol = symbol)

theorem ofSymbol?_symbol (op : BinaryOp) : ofSymbol? op.symbol = some op := by
  cases op with
  | arith op => cases op <;> rfl
  | bit op => cases op <;> rfl
  | logic op => cases op <;> rfl
  | compare relation => cases relation <;> rfl
  | assign => rfl

theorem newline_notMem_symbol (op : BinaryOp) : '\n' ∉ op.symbol.toList := by
  cases op with
  | arith op => cases op <;> simp [symbol, ArithOp.symbol]
  | bit op => cases op <;> simp [symbol, BitOp.symbol]
  | logic op => cases op <;> simp [symbol, LogicOp.symbol]
  | compare relation => cases relation <;> simp [symbol, Relation.symbol]
  | assign => simp [symbol]

end BinaryOp

namespace Outline

theorem escapeText_symbol_inj {o p : BinaryOp} :
    escapeText o.symbol = escapeText p.symbol ↔ o = p := by
  rw [escapeText_inj o.newline_notMem_symbol p.newline_notMem_symbol]
  refine ⟨?_, congrArg BinaryOp.symbol⟩
  intro h
  exact Option.some.inj (by rw [← o.ofSymbol?_symbol, h, p.ofSymbol?_symbol])

theorem slotAttribute_inj {s t : Option UInt16} :
    (slotAttribute s).map escapeAttribute = (slotAttribute t).map escapeAttribute ↔ s = t := by
  cases s with
  | none => cases t <;> simp [slotAttribute]
  | some s =>
    cases t with
    | none => simp [slotAttribute]
    | some t => simp [slotAttribute, escapeAttribute, escapeText_repr_inj, UInt16.toNat_inj]

theorem markAttributes_inj {m n : Mark} {xs ys : List Attribute} :
    (markAttributes m ++ xs).map escapeAttribute = (markAttributes n ++ ys).map escapeAttribute ↔
      m = n ∧ xs.map escapeAttribute = ys.map escapeAttribute := by
  obtain ⟨line, ty⟩ := m
  obtain ⟨line', ty'⟩ := n
  simp [markAttributes, escapeAttribute, escapeText_repr_inj, escapeText_ty_inj, and_assoc]

variable {m n : Mark} {tag tag' : String} {xs ys : List Attribute} {es fs : List Element}

@[simp]
theorem leaf_escaped_inj :
    (Element.leaf tag (markAttributes m ++ xs)).escaped =
        (Element.leaf tag' (markAttributes n ++ ys)).escaped ↔
      tag = tag' ∧ m = n ∧ xs.map escapeAttribute = ys.map escapeAttribute := by
  rw [Element.escaped, Element.escaped, Element.leaf.injEq, markAttributes_inj]

@[simp]
theorem node_escaped_inj :
    (Element.node tag (markAttributes m ++ xs) es).escaped =
        (Element.node tag' (markAttributes n ++ ys) fs).escaped ↔
      tag = tag' ∧ m = n ∧ xs.map escapeAttribute = ys.map escapeAttribute ∧
        Element.escapedAll es = Element.escapedAll fs := by
  rw [Element.escaped, Element.escaped, Element.node.injEq, markAttributes_inj, and_assoc]

@[simp]
theorem leaf_escaped_ne_node :
    ¬ (Element.leaf tag xs).escaped = (Element.node tag' ys fs).escaped :=
  nofun

@[simp]
theorem node_escaped_ne_leaf :
    ¬ (Element.node tag xs es).escaped = (Element.leaf tag' ys).escaped :=
  nofun

@[simp]
theorem node_escaped_ne_node (h : tag ≠ tag') :
    ¬ (Element.node tag xs es).escaped = (Element.node tag' ys fs).escaped :=
  fun heq => h (Element.node.inj heq).1

@[simp]
theorem escapedAll_nil : Element.escapedAll [] = [] :=
  rfl

@[simp]
theorem escapedAll_cons (e : Element) (es : List Element) :
    Element.escapedAll (e :: es) = e.escaped :: Element.escapedAll es :=
  rfl

@[simp]
theorem wrap_escaped_inj {e f : Element} :
    (wrap tag e).escaped = (wrap tag' f).escaped ↔ tag = tag' ∧ e.escaped = f.escaped := by
  simp [wrap, Element.escaped]

theorem ofExpr_escaped_inj {e f : Expr} :
    (ofExpr e).escaped = (ofExpr f).escaped ↔ e.shown = f.shown := by
  induction e generalizing f with
  | literal mark value =>
    cases f <;> simp [ofExpr, Expr.shown, escapeAttribute, Literal.shown_eq]
  | var mark name slot =>
    cases f <;> simp [ofExpr, Expr.shown, escapeAttribute, slotAttribute_inj]
  | unary mark op e ih =>
    cases f <;> simp [ofExpr, Expr.shown, escapeAttribute, ih, escapeText_unary_inj]
  | binary mark op l r ihl ihr =>
    cases f <;> simp [ofExpr, Expr.shown, escapeAttribute, ihl, ihr, escapeText_symbol_inj]
  | concat mark l r ihl ihr =>
    cases f <;> simp [ofExpr, Expr.shown, escapeAttribute, ihl, ihr]
  | ternary mark c t e ihc iht ihe =>
    cases f <;> simp [ofExpr, Expr.shown, escapeAttribute, ihc, iht, ihe]
  | guarded mark c t ihc iht =>
    cases f <;> simp [ofExpr, Expr.shown, escapeAttribute, ihc, iht]

theorem escapedAll_map_inj {α : Type} {f : α → Element} {g : α → α} {as bs : List α}
    (h : ∀ a b, (f a).escaped = (f b).escaped ↔ g a = g b) :
    Element.escapedAll (as.map f) = Element.escapedAll (bs.map f) ↔ as.map g = bs.map g := by
  induction as generalizing bs with
  | nil => cases bs <;> simp
  | cons a as ih => cases bs <;> simp [h, ih]

theorem ofDeclarator_escaped_inj {d f : Declarator} :
    (ofDeclarator d).escaped = (ofDeclarator f).escaped ↔ d.shown = f.shown := by
  obtain ⟨line, name, ty, init, slot⟩ := d
  obtain ⟨line', name', ty', init', slot'⟩ := f
  cases init <;> cases init' <;>
    simp [ofDeclarator, Declarator.shown, Element.escaped, escapeAttribute, escapeText_repr_inj,
      escapeText_name_inj, slotAttribute_inj, ofExpr_escaped_inj]
  grind

/-- No element has this tag. -/
def Avoids (tag : String) (es : List Element) : Prop :=
  ∀ e ∈ es, ∀ attributes children, e ≠ .node tag attributes children

theorem avoids_section {tag' : String} (h : tag' ≠ tag) (es : List Element) (later : Avoids tag fs) :
    Avoids tag (sectionOf tag' es ++ fs) := by
  intro e he attributes children heq
  rcases List.mem_append.mp he with he | he
  · unfold sectionOf at he
    split at he
    · cases he
    · obtain rfl := List.mem_singleton.mp he
      exact h (Element.node.inj heq).1
  · exact later e he _ _ heq

/-- A section that is left out is told from one that is there by what follows. -/
theorem section_escaped_inj {later later' : List Element} (h : Avoids tag later)
    (h' : Avoids tag later') :
    Element.escapedAll (sectionOf tag es ++ later) = Element.escapedAll (sectionOf tag fs ++ later') ↔
      Element.escapedAll es = Element.escapedAll fs ∧
        Element.escapedAll later = Element.escapedAll later' := by
  have hfirst (es later' : List Element) {later : List Element} (h : Avoids tag later) :
      Element.escapedAll later ≠ Element.escapedAll (.node tag [] es :: later') := by
    intro heq
    cases later with
    | nil => cases heq
    | cons e later =>
      cases e with
      | leaf => cases heq
      | node tag' attributes children =>
        obtain ⟨rfl, -, -⟩ := Element.node.inj (List.cons.inj heq).1
        exact h _ (List.mem_cons_self ..) _ _ rfl
  cases es with
  | nil =>
    cases fs with
    | nil => simp [sectionOf]
    | cons f fs => simpa [sectionOf] using hfirst (f :: fs) later' h
  | cons e es =>
    cases fs with
    | nil => simpa [sectionOf] using (hfirst (e :: es) later h').symm
    | cons f fs => simp [sectionOf, Element.escaped]

/-- The sections with these tags, in order. -/
def sections : List String → List (List Element) → List Element
  | tag :: tags, es :: parts => sectionOf tag es ++ sections tags parts
  | _, _ => []

theorem avoids_sections {tags : List String} (h : tag ∉ tags) (parts : List (List Element)) :
    Avoids tag (sections tags parts) := by
  induction tags generalizing parts with
  | nil => nofun
  | cons tag' tags ih =>
    obtain ⟨hne, hmore⟩ := List.ne_and_not_mem_of_not_mem_cons h
    cases parts with
    | nil => nofun
    | cons es parts => exact avoids_section hne.symm es (ih hmore parts)

theorem sections_escaped_inj {tags : List String} {parts parts' : List (List Element)}
    (h : tags.Nodup) (hlength : parts.length = tags.length) (hlength' : parts'.length = tags.length) :
    Element.escapedAll (sections tags parts) = Element.escapedAll (sections tags parts') ↔
      parts.map Element.escapedAll = parts'.map Element.escapedAll := by
  induction tags generalizing parts parts' with
  | nil => simp [List.length_eq_zero_iff.mp hlength, List.length_eq_zero_iff.mp hlength']
  | cons tag tags ih =>
    obtain ⟨es, parts, rfl⟩ := List.exists_cons_of_length_eq_add_one hlength
    obtain ⟨fs, parts', rfl⟩ := List.exists_cons_of_length_eq_add_one hlength'
    obtain ⟨hfirst, hmore⟩ := List.nodup_cons.mp h
    rw [sections, sections,
      section_escaped_inj (avoids_sections hfirst parts) (avoids_sections hfirst parts'),
      ih hmore (Nat.succ.inj hlength) (Nat.succ.inj hlength')]
    simp

/-- The sections of a loop. -/
def loopTags : List String :=
  ["ForInitDeclarations", "ForInitStatements", "Condition", "ForUpdate", "Body"]

theorem ofStmt_forLoop (line : Nat) (names : List Declarator) (init : List Stmt)
    (condition : Option Expr) (update : List Stmt) (body : Stmt) :
    ofStmt (.forLoop line names init condition update body) =
      .node "ForStatement" [lineAttribute line]
        (sections loopTags [names.map ofDeclarator, ofStmts init, condition.toList.map ofExpr,
          ofStmts update, [ofStmt body]]) := by
  cases condition <;> simp [ofStmt, sections, loopTags, sectionOf, wrap]

theorem conditions_escaped_inj {condition condition' : Option Expr} :
    Element.escapedAll (condition.toList.map ofExpr) =
        Element.escapedAll (condition'.toList.map ofExpr) ↔
      condition.map Expr.shown = condition'.map Expr.shown := by
  cases condition <;> cases condition' <;> simp [ofExpr_escaped_inj]

@[simp]
theorem node_line_escaped_inj {line line' : Nat} :
    (Element.node tag [lineAttribute line] es).escaped =
        (Element.node tag' [lineAttribute line'] fs).escaped ↔
      tag = tag' ∧ line = line' ∧ Element.escapedAll es = Element.escapedAll fs := by
  simp [Element.escaped, lineAttribute, escapeAttribute, escapeText_repr_inj]

mutual

theorem ofStmt_escaped_inj (s t : Stmt) :
    (ofStmt s).escaped = (ofStmt t).escaped ↔ s.shown = t.shown := by
  match s with
  | .declare line ty names =>
    cases t with
    | declare line' ty' names' =>
      simp [ofStmt, Stmt.shown, Element.escaped, lineAttribute, escapeAttribute, escapeText_repr_inj,
        escapeText_name_inj, escapedAll_map_inj (@ofDeclarator_escaped_inj), and_assoc]
    | _ => simp [ofStmt, Stmt.shown]
  | .eval e =>
    cases t with
    | eval f =>
      have hline : e.shown = f.shown → e.line = f.line := by
        intro h
        rw [← e.line_shown, h, f.line_shown]
      simpa [ofStmt, Stmt.shown, ofExpr_escaped_inj] using hline
    | _ => simp [ofStmt, Stmt.shown]
  | .print line e => cases t <;> simp [ofStmt, Stmt.shown, ofExpr_escaped_inj]
  | .block line body => cases t <;> simp [ofStmt, Stmt.shown, ofStmts_escaped_inj body]
  | .doWhile line body condition =>
    cases t <;> simp [ofStmt, Stmt.shown, ofStmt_escaped_inj body, ofExpr_escaped_inj]
  | .forLoop line names init condition update body =>
    cases t with
    | forLoop line' names' init' condition' update' body' =>
      rw [ofStmt_forLoop, ofStmt_forLoop, node_line_escaped_inj,
        sections_escaped_inj (by decide) rfl rfl]
      simp [Stmt.shown, escapedAll_map_inj (@ofDeclarator_escaped_inj), ofStmts_escaped_inj init,
        conditions_escaped_inj, ofStmts_escaped_inj update, ofStmt_escaped_inj body]
    | _ => simp [ofStmt, Stmt.shown]

theorem ofStmts_escaped_inj (ss ts : List Stmt) :
    Element.escapedAll (ofStmts ss) = Element.escapedAll (ofStmts ts) ↔
      Stmt.shownAll ss = Stmt.shownAll ts := by
  match ss with
  | [] => cases ts <;> simp [ofStmts, Stmt.shownAll]
  | s :: ss =>
    cases ts with
    | nil => simp [ofStmts, Stmt.shownAll]
    | cons t ts => simp [ofStmts, Stmt.shownAll, ofStmt_escaped_inj s t, ofStmts_escaped_inj ss ts]

end

theorem isTag {name : String} (h : (name.toList != [] && name.toList.all Char.isAlpha) = true) :
    IsTag name := by
  simp only [Bool.and_eq_true, bne_iff_ne, List.all_eq_true] at h
  exact ⟨h.1, h.2⟩

theorem isTag_slotAttribute (slot : Option UInt16) : ∀ a ∈ slotAttribute slot, IsTag a.1 := by
  cases slot with
  | none => nofun
  | some slot => simpa [slotAttribute] using isTag rfl

/-- The attributes of an expression: its mark, and what it is. -/
theorem isTag_attributes (mark : Mark) {name value : String} (h : IsTag name) :
    ∀ a ∈ markAttributes mark ++ [(name, value)], IsTag a.1 := by
  simpa [markAttributes] using ⟨isTag rfl, isTag rfl, h⟩

theorem named_wrap {e : Element} (h : IsTag tag) (he : e.Named) : (wrap tag e).Named :=
  ⟨h, nofun, he, trivial⟩

theorem named_ofExpr (e : Expr) : (ofExpr e).Named := by
  induction e with
  | literal mark value => exact ⟨isTag rfl, isTag_attributes mark (isTag rfl)⟩
  | var mark name slot =>
    exact ⟨isTag rfl, List.forall_mem_append.mpr
      ⟨isTag_attributes mark (isTag rfl), isTag_slotAttribute slot⟩⟩
  | unary mark op e ih =>
    exact ⟨isTag rfl, isTag_attributes mark (isTag rfl), named_wrap (isTag rfl) ih, trivial⟩
  | binary mark op l r ihl ihr =>
    exact ⟨isTag rfl, isTag_attributes mark (isTag rfl), named_wrap (isTag rfl) ihl,
      named_wrap (isTag rfl) ihr, trivial⟩
  | concat mark l r ihl ihr =>
    exact ⟨isTag rfl, isTag_attributes mark (isTag rfl), named_wrap (isTag rfl) ihl,
      named_wrap (isTag rfl) ihr, trivial⟩
  | ternary mark c t e ihc iht ihe =>
    exact ⟨isTag rfl, isTag_attributes mark (isTag rfl), named_wrap (isTag rfl) ihc,
      named_wrap (isTag rfl) iht, named_wrap (isTag rfl) ihe, trivial⟩
  | guarded mark c t ihc iht =>
    exact ⟨isTag rfl, isTag_attributes mark (isTag rfl), named_wrap (isTag rfl) ihc,
      named_wrap (isTag rfl) iht, trivial⟩

theorem named_ofDeclarator (d : Declarator) : (ofDeclarator d).Named := by
  have hattributes : ∀ a ∈ [("line", toString d.line), ("name", d.name), ("type", d.ty.name)] ++
      slotAttribute d.slot, IsTag a.1 := by
    refine List.forall_mem_append.mpr ⟨?_, isTag_slotAttribute d.slot⟩
    simpa using ⟨isTag rfl, isTag rfl, isTag rfl⟩
  unfold ofDeclarator
  split
  · rename_i init _
    exact ⟨isTag rfl, hattributes, named_wrap (isTag rfl) (named_ofExpr init), trivial⟩
  · exact ⟨isTag rfl, hattributes⟩

theorem allNamed_map {α : Type} {f : α → Element} (h : ∀ a, (f a).Named) (as : List α) :
    Element.AllNamed (as.map f) := by
  induction as with
  | nil => trivial
  | cons a as ih => exact ⟨h a, ih⟩

theorem allNamed_append (hes : Element.AllNamed es) (hfs : Element.AllNamed fs) :
    Element.AllNamed (es ++ fs) := by
  induction es with
  | nil => exact hfs
  | cons e es ih => exact ⟨hes.1, ih hes.2⟩

theorem allNamed_sections {tags : List String} {parts : List (List Element)}
    (htags : ∀ tag ∈ tags, IsTag tag) (hparts : ∀ es ∈ parts, Element.AllNamed es) :
    Element.AllNamed (sections tags parts) := by
  induction tags generalizing parts with
  | nil => trivial
  | cons tag tags ih =>
    cases parts with
    | nil => trivial
    | cons es parts =>
      obtain ⟨htag, htags⟩ := List.forall_mem_cons.mp htags
      obtain ⟨hes, hparts⟩ := List.forall_mem_cons.mp hparts
      refine allNamed_append ?_ (ih htags hparts)
      unfold sectionOf
      split
      · trivial
      · exact ⟨⟨htag, nofun, hes⟩, trivial⟩

theorem isTag_lineAttribute (line : Nat) : ∀ a ∈ [lineAttribute line], IsTag a.1 := by
  simpa [lineAttribute] using isTag rfl

mutual

theorem named_ofStmt (s : Stmt) : (ofStmt s).Named := by
  match s with
  | .declare line ty names =>
    refine ⟨isTag rfl, ?_, allNamed_map named_ofDeclarator names⟩
    simpa [lineAttribute] using ⟨isTag rfl, isTag rfl⟩
  | .eval e => exact ⟨isTag rfl, isTag_lineAttribute _, named_ofExpr e, trivial⟩
  | .print line e => exact ⟨isTag rfl, isTag_lineAttribute _, named_ofExpr e, trivial⟩
  | .block line body => exact ⟨isTag rfl, isTag_lineAttribute _, allNamed_ofStmts body⟩
  | .doWhile line body condition =>
    exact ⟨isTag rfl, isTag_lineAttribute _, named_wrap (isTag rfl) (named_ofStmt body),
      named_wrap (isTag rfl) (named_ofExpr condition), trivial⟩
  | .forLoop line names init condition update body =>
    rw [ofStmt_forLoop]
    refine ⟨isTag rfl, isTag_lineAttribute _, allNamed_sections ?_ ?_⟩
    · simpa [loopTags] using ⟨isTag rfl, isTag rfl, isTag rfl, isTag rfl,
        isTag rfl⟩
    · simpa using ⟨allNamed_map named_ofDeclarator names, allNamed_ofStmts init,
        allNamed_map named_ofExpr condition.toList, allNamed_ofStmts update,
        (⟨named_ofStmt body, trivial⟩ : Element.AllNamed [ofStmt body])⟩

theorem allNamed_ofStmts (ss : List Stmt) : Element.AllNamed (ofStmts ss) := by
  match ss with
  | [] => trivial
  | s :: ss => exact ⟨named_ofStmt s, allNamed_ofStmts ss⟩

end

end Outline

/-- The program as it is shown. -/
def Program.shown (program : Program) : Program :=
  Stmt.shownAll program

/-- An outline loses nothing but the escapes in names and what tells literals of one text apart, and
outlines are well nested. -/
theorem Program.outline_faithful (p q : Program) :
    (p.outline = q.outline ↔ p.shown = q.shown) ∧ IsNested p.outline ∧
      ∀ e : Expr, IsNested e.outline := by
  have hnamed (r : Program) : (Element.node "Program" [] (ofStmts r)).Named :=
    ⟨isTag rfl, nofun, allNamed_ofStmts r⟩
  refine ⟨?_, isNested_text (hnamed p), fun e => isNested_text (named_ofExpr e)⟩
  refine (text_eq_iff (hnamed p) (hnamed q)).trans ?_
  simpa [Element.escaped, Program.shown] using ofStmts_escaped_inj p q

end BlockLang
