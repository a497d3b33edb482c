import BlockLang.Outline
import BlockLang.Proofs.Printing.Scanning

namespace BlockLang

namespace Outline

/-- A name that may stand in a tag: letters. -/
structure IsTag (name : String) : Prop where
  nonempty : name.toList ≠ []
  letters : ∀ c ∈ name.toList, c.isAlpha = true

/-- No such character ends the value of an attribute, the tag or the line. -/
def Tame (c : Char) : Prop :=
  c ≠ '"' ∧ c ≠ '<' ∧ c ≠ '>' ∧ c ≠ '\n'

/-- An attribute that may stand in a tag. -/
structure Fits (a : Attribute) : Prop where
  name : IsTag a.1
  value : ∀ c ∈ a.2.toList, Tame c

/-- An attribute with its value as it stands. -/
def plainText (a : Attribute) : String :=
  " " ++ a.1 ++ "=\"" ++ a.2 ++ "\""

/-- An attribute with its value as it is shown. -/
def escapeAttribute (a : Attribute) : Attribute :=
  (a.1, escapeText a.2)

theorem toList_escapeText (text : String) :
    (escapeText text).toList = text.toList.flatMap fun c => (escape c).toList := by
  have hfold (cs : List Char) (out : String) :
      (cs.foldl (fun out c => out ++ escape c) out).toList =
        out.toList ++ cs.flatMap fun c => (escape c).toList := by
    induction cs generalizing out with
    | nil => simp
    | cons c cs ih => simp [ih]
  rw [escapeText, String.foldl_eq_foldl_toList, hfold]
  rfl

theorem tame_escape (c : Char) : ∀ x ∈ (escape c).toList, Tame x := by
  unfold escape
  split
  · simp [Tame]
  · simp [Tame]
  · simp [Tame]
  · simp [Tame]
  · simp [Tame]
  · rename_i hless hgreater _ hquote hline
    simpa using ⟨hquote, hless, hgreater, hline⟩

theorem fits_escapeAttribute {a : Attribute} (h : IsTag a.1) : Fits (escapeAttribute a) := by
  refine ⟨h, ?_⟩
  intro x hx
  rw [escapeAttribute, toList_escapeText] at hx
  obtain ⟨c, _, hx⟩ := List.mem_flatMap.mp hx
  exact tame_escape c x hx

/-- The characters that are shown so, newlines apart. -/
def unescape : List Char → List Char
  | '&' :: 'l' :: 't' :: ';' :: cs => '<' :: unescape cs
  | '&' :: 'g' :: 't' :: ';' :: cs => '>' :: unescape cs
  | '&' :: 'a' :: 'm' :: 'p' :: ';' :: cs => '&' :: unescape cs
  | '&' :: 'q' :: 'u' :: 'o' :: 't' :: ';' :: cs => '"' :: unescape cs
  | c :: cs => c :: unescape cs
  | [] => []

theorem unescape_escape {c : Char} (h : c ≠ '\n') (cs : List Char) :
    unescape ((escape c).toList ++ cs) = c :: unescape cs := by
  unfold escape
  split
  · simp [unescape]
  · simp [unescape]
  · simp [unescape]
  · simp [unescape]
  · exact absurd rfl h
  · rename_i hamp _ _
    rw [show c.toString.toList = [c] by simp, List.singleton_append, unescape]
    all_goals
      intros
      simp_all

/-- What is shown tells the text, unless there are newlines in it. -/
theorem escapeText_inj {s t : String} (hs : '\n' ∉ s.toList) (ht : '\n' ∉ t.toList) :
    escapeText s = escapeText t ↔ s = t := by
  have hback {cs : List Char} (hcs : '\n' ∉ cs) :
      unescape (cs.flatMap fun c => (escape c).toList) = cs := by
    induction cs with
    | nil => rfl
    | cons c cs ih =>
      obtain ⟨hc, hcs⟩ := List.ne_and_not_mem_of_not_mem_cons hcs
      rw [List.flatMap_cons, unescape_escape hc.symm, ih hcs]
  refine ⟨?_, congrArg escapeText⟩
  intro h
  have hlists := congrArg (fun text => unescape text.toList) h
  simp only [toList_escapeText, hback hs, hback ht] at hlists
  exact String.toList_injective hlists

end Outline

open Outline

mutual

/-- The element with its attributes as they are shown. -/
def Element.escaped : Element → Element
  | .leaf tag attributes => .leaf tag (attributes.map escapeAttribute)
  | .node tag attributes children =>
    .node tag (attributes.map escapeAttribute) (escapedAll children)

def Element.escapedAll : List Element → List Element
  | [] => []
  | e :: es => e.escaped :: escapedAll es

end

mutual

/-- All names in the element may stand in tags. -/
def Element.Named : Element → Prop
  | .leaf tag attributes => IsTag tag ∧ ∀ a ∈ attributes, IsTag a.1
  | .node tag attributes children => IsTag tag ∧ (∀ a ∈ attributes, IsTag a.1) ∧ AllNamed children

def Element.AllNamed : List Element → Prop
  | [] => True
  | e :: es => e.Named ∧ AllNamed es

end

namespace Outline

/-- The lines continue an outline in which these elements are open, innermost first, and close them
all. Each line is one tag behind four blanks for each open element. -/
inductive WellNested : List String → List String → Prop
  | done : WellNested [] []
  | leaf {opened later : List String} {tag : String} {attributes : List Attribute} (name : IsTag tag)
      (fits : ∀ a ∈ attributes, Fits a) (more : WellNested opened later) :
      WellNested opened
        ((String.ofList (List.replicate (4 * opened.length) ' ') ++ "<" ++ tag ++
          String.join (attributes.map plainText) ++ "/>") :: later)
  | opens {opened later : List String} {tag : String} {attributes : List Attribute} (name : IsTag tag)
      (fits : ∀ a ∈ attributes, Fits a) (more : WellNested (tag :: opened) later) :
      WellNested opened
        ((String.ofList (List.replicate (4 * opened.length) ' ') ++ "<" ++ tag ++
          String.join (attributes.map plainText) ++ ">") :: later)
  | closes {opened later : List String} {tag : String} (name : IsTag tag)
      (more : WellNested opened later) :
      WellNested (tag :: opened)
        ((String.ofList (List.replicate (4 * opened.length) ' ') ++ "</" ++ tag ++ ">") :: later)

/-- A text of whole lines that are well nested. -/
def IsNested (text : String) : Prop :=
  ∃ lines, text = String.join (lines.map (· ++ "\n")) ∧ WellNested [] lines

theorem fits_all {attributes : List Attribute} (h : ∀ a ∈ attributes, IsTag a.1) :
    ∀ a ∈ attributes.map escapeAttribute, Fits a :=
  List.forall_mem_map.mpr fun a ha => fits_escapeAttribute (h a ha)

theorem indent_eq (depth : Nat) : indent depth = String.ofList (List.replicate (4 * depth) ' ') :=
  pushn_blank (4 * depth)

theorem opening_eq (depth : Nat) (tag : String) (attributes : List Attribute) :
    opening depth tag attributes = String.ofList (List.replicate (4 * depth) ' ') ++ "<" ++ tag ++
      String.join ((attributes.map escapeAttribute).map plainText) := by
  rw [List.map_map, ← indent_eq]
  rfl

mutual

theorem wellNested_lines {opened later : List String} (e : Element) (h : e.Named)
    (more : WellNested opened later) : WellNested opened (lines opened.length e ++ later) :=
  match e, h with
  | .leaf tag attributes, ⟨name, names⟩ => by
    rw [lines, opening_eq]
    exact .leaf name (fits_all names) more
  | .node tag attributes children, ⟨name, names, all⟩ => by
    rw [lines, opening_eq, indent_eq, List.cons_append, List.append_assoc]
    exact .opens name (fits_all names) (wellNested_linesOfAll children all (.closes name more))

theorem wellNested_linesOfAll {opened later : List String} (es : List Element)
    (h : Element.AllNamed es) (more : WellNested opened later) :
    WellNested opened (linesOfAll opened.length es ++ later) :=
  match es, h with
  | [], _ => more
  | e :: es, ⟨he, hes⟩ => by
    rw [linesOfAll, List.append_assoc]
    exact wellNested_lines e he (wellNested_linesOfAll es hes more)

end

/-- The lines of an element close all that they open. -/
theorem wellNested_element {e : Element} (h : e.Named) : WellNested [] (lines 0 e) := by
  have hnested := wellNested_lines e h .done
  rwa [List.append_nil] at hnested

theorem isNested_text {e : Element} (h : e.Named) : IsNested (text e) :=
  ⟨lines 0 e, rfl, wellNested_element h⟩

theorem IsTag.ne_newline {tag : String} (h : IsTag tag) : '\n' ∉ tag.toList := by
  intro hmem
  have := h.letters _ hmem
  cases this

theorem newline_notMem_plainText {attributes : List Attribute} (h : ∀ a ∈ attributes, Fits a) :
    '\n' ∉ (String.join (attributes.map plainText)).toList := by
  rw [String.toList_join, List.mem_flatMap]
  rintro ⟨text, htext, hmem⟩
  obtain ⟨a, ha, rfl⟩ := List.mem_map.mp htext
  have hvalue : '\n' ∉ a.2.toList := fun hline => ((h a ha).value _ hline).2.2.2 rfl
  simp [plainText, (h a ha).name.ne_newline, hvalue] at hmem

/-- The lines are what stands between newlines. -/
theorem WellNested.no_newline {opened lines : List String} (h : WellNested opened lines) :
    ∀ line ∈ lines, '\n' ∉ line.toList := by
  have hblanks (depth : Nat) : '\n' ∉ (String.ofList (List.replicate (4 * depth) ' ')).toList := by
    rw [String.toList_ofList]
    exact fun hmem => absurd (List.eq_of_mem_replicate hmem) (by decide)
  induction h with
  | done => nofun
  | leaf name fits more ih =>
    refine List.forall_mem_cons.mpr ⟨?_, ih⟩
    simp only [String.toList_append, List.mem_append, not_or]
    exact ⟨⟨⟨⟨hblanks _, by decide⟩, name.ne_newline⟩, newline_notMem_plainText fits⟩, by decide⟩
  | opens name fits more ih =>
    refine List.forall_mem_cons.mpr ⟨?_, ih⟩
    simp only [String.toList_append, List.mem_append, not_or]
    exact ⟨⟨⟨⟨hblanks _, by decide⟩, name.ne_newline⟩, newline_notMem_plainText fits⟩, by decide⟩
  | closes name more ih =>
    refine List.forall_mem_cons.mpr ⟨?_, ih⟩
    simp only [String.toList_append, List.mem_append, not_or]
    exact ⟨⟨⟨hblanks _, by decide⟩, name.ne_newline⟩, by decide⟩

/-- Two texts that agree agree up to the first character that does not fit, and from there on. -/
theorem eq_of_append_eq {p : Char → Bool} {xs ys more later : List Char}
    (hxs : ∀ c ∈ xs, p c = true) (hys : ∀ c ∈ ys, p c = true)
    (hmore : ∀ c, more.head? = some c → p c = false)
    (hlater : ∀ c, later.head? = some c → p c = false) (h : xs ++ more = ys ++ later) :
    xs = ys ∧ more = later := by
  obtain ⟨htake, hdrop⟩ := takeWhile_stop hxs hmore
  obtain ⟨htake', hdrop'⟩ := takeWhile_stop hys hlater
  exact ⟨by rw [← htake, h, htake'], by rw [← hdrop, h, hdrop']⟩

theorem join_lines_injective {xs ys : List String} (hxs : ∀ line ∈ xs, '\n' ∉ line.toList)
    (hys : ∀ line ∈ ys, '\n' ∉ line.toList)
    (h : String.join (xs.map (· ++ "\n")) = String.join (ys.map (· ++ "\n"))) : xs = ys := by
  have hlists := congrArg String.toList h
  simp only [String.toList_join, List.flatMap_map, String.toList_append] at hlists
  clear h
  induction xs generalizing ys with
  | nil =>
    cases ys with
    | nil => rfl
    | cons y ys => simp at hlists
  | cons x xs ih =>
    cases ys with
    | nil => simp at hlists
    | cons y ys =>
      obtain ⟨hx, hxs⟩ := List.forall_mem_cons.mp hxs
      obtain ⟨hy, hys⟩ := List.forall_mem_cons.mp hys
      rw [List.flatMap_cons, List.flatMap_cons, List.append_assoc, List.append_assoc] at hlists
      obtain ⟨hhead, htail⟩ := eq_of_append_eq (p := (· ≠ '\n')) (by grind) (by grind) (by simp)
        (by simp) hlists
      rw [String.toList_injective hhead, ih hxs hys (List.append_cancel_left htail)]

theorem toList_opening (depth : Nat) (tag : String) (attributes : List Attribute) :
    (opening depth tag attributes).toList = List.replicate (4 * depth) ' ' ++
      '<' :: (tag.toList ++
        (attributes.map escapeAttribute).flatMap fun a => (plainText a).toList) := by
  simp [opening_eq, List.flatMap_map]

/-- How a tag that opens an element ends. -/
def Ends (cs : List Char) : Prop :=
  cs = ['/', '>'] ∨ cs = ['>']

theorem plainTexts_injective {xs ys : List Attribute} {cs ds : List Char} (hxs : ∀ a ∈ xs, Fits a)
    (hys : ∀ a ∈ ys, Fits a) (hcs : Ends cs) (hds : Ends ds)
    (h : (xs.flatMap fun a => (plainText a).toList) ++ cs =
      (ys.flatMap fun a => (plainText a).toList) ++ ds) : xs = ys ∧ cs = ds := by
  induction xs generalizing ys with
  | nil =>
    cases ys with
    | nil => exact ⟨rfl, h⟩
    | cons y ys => rcases hcs with rfl | rfl <;> simp [plainText] at h
  | cons x xs ih =>
    cases ys with
    | nil => rcases hds with rfl | rfl <;> simp [plainText] at h
    | cons y ys =>
      obtain ⟨hx, hxs⟩ := List.forall_mem_cons.mp hxs
      obtain ⟨hy, hys⟩ := List.forall_mem_cons.mp hys
      have htexts : x.1.toList ++ '=' :: '"' :: (x.2.toList ++ '"' ::
            ((xs.flatMap fun a => (plainText a).toList) ++ cs)) =
          y.1.toList ++ '=' :: '"' :: (y.2.toList ++ '"' ::
            ((ys.flatMap fun a => (plainText a).toList) ++ ds)) := by
        simpa [plainText] using h
      obtain ⟨hname, hrest⟩ := eq_of_append_eq hx.name.letters hy.name.letters (by simp) (by simp)
        htexts
      obtain ⟨hvalue, hmore⟩ := eq_of_append_eq (p := (· ≠ '"'))
        (fun c hc => by simpa using (hx.value c hc).1) (fun c hc => by simpa using (hy.value c hc).1)
        (by simp) (by simp) (List.cons.inj (List.cons.inj hrest).2).2
      obtain ⟨rfl, rfl⟩ := ih hxs hys (List.cons.inj hmore).2
      have hxy : x = y := Prod.ext (String.toList_injective hname) (String.toList_injective hvalue)
      exact ⟨by rw [hxy], rfl⟩

theorem opening_injective {depth : Nat} {tag tag' stop stop' : String} {xs ys : List Attribute}
    (htag : IsTag tag) (htag' : IsTag tag') (hxs : ∀ a ∈ xs, IsTag a.1) (hys : ∀ a ∈ ys, IsTag a.1)
    (hstop : Ends stop.toList) (hstop' : Ends stop'.toList)
    (h : opening depth tag xs ++ stop = opening depth tag' ys ++ stop') :
    tag = tag' ∧ xs.map escapeAttribute = ys.map escapeAttribute ∧ stop = stop' := by
  have hbreak (as : List Attribute) {cs : List Char} (hcs : Ends cs) :
      ∀ c, ((as.flatMap fun a => (plainText a).toList) ++ cs).head? = some c → c.isAlpha = false := by
    cases as with
    | nil => rcases hcs with rfl | rfl <;> simp
    | cons a as => simp [plainText]
  have hlists := congrArg String.toList h
  rw [String.toList_append, String.toList_append, toList_opening, toList_opening, List.append_assoc,
    List.append_assoc, List.cons_append, List.cons_append, List.append_assoc, List.append_assoc]
    at hlists
  have hinner := (List.cons.inj (List.append_cancel_left hlists)).2
  obtain ⟨hname, hrest⟩ := eq_of_append_eq htag.letters htag'.letters (hbreak _ hstop)
    (hbreak _ hstop') hinner
  obtain ⟨hattributes, hend⟩ := plainTexts_injective (fits_all hxs) (fits_all hys) hstop hstop' hrest
  exact ⟨String.toList_injective hname, hattributes, String.toList_injective hend⟩

/-- An element does not start where one is closed. -/
theorem opening_ne_closing {depth depth' : Nat} {tag tag' stop : String} {attributes : List Attribute}
    (htag : IsTag tag) :
    opening depth tag attributes ++ stop ≠ indent depth' ++ "</" ++ tag' ++ ">" := by
  intro h
  have hlists := congrArg String.toList h
  obtain ⟨c, cs, hname⟩ := List.exists_cons_of_ne_nil htag.nonempty
  have hletter := htag.letters c (by simp [hname])
  simp only [String.toList_append, toList_opening, indent_eq, String.toList_ofList, List.append_assoc] at hlists
  obtain ⟨_, hrest⟩ := eq_of_append_eq (p := (· = ' ')) (by simp) (by simp) (by simp) (by simp) hlists
  have hslash : c = '/' := by
    rw [hname] at hrest
    simpa using congrArg (fun cs => cs.tail.head?) hrest
  subst hslash
  cases hletter

/-- No element starts with these lines: the one around it is closed, or nothing is left. -/
def Closing (lines : List String) : Prop :=
  ∀ line, lines.head? = some line → ∃ depth tag, line = indent depth ++ "</" ++ tag ++ ">"

theorem lines_eq (depth : Nat) (e : Element) : ∃ tag attributes stop later,
    lines depth e = (opening depth tag attributes ++ stop) :: later ∧ (e.Named → IsTag tag) := by
  cases e with
  | leaf tag attributes => exact ⟨tag, attributes, _, _, by rw [lines], fun h => h.1⟩
  | node tag attributes children => exact ⟨tag, attributes, _, _, by rw [lines], fun h => h.1⟩

theorem not_closing_lines {depth : Nat} {e : Element} (h : e.Named) (later : List String) :
    ¬ Closing (lines depth e ++ later) := by
  intro hclosing
  obtain ⟨tag, attributes, stop, rest, hlines, htag⟩ := lines_eq depth e
  obtain ⟨depth', tag', hline⟩ := hclosing (opening depth tag attributes ++ stop) (by simp [hlines])
  exact opening_ne_closing (htag h) hline

mutual

theorem lines_injective {depth : Nat} {more later : List String} (e f : Element) (he : e.Named)
    (hf : f.Named) (h : lines depth e ++ more = lines depth f ++ later) :
    e.escaped = f.escaped ∧ more = later := by
  match e, f, he, hf with
  | .leaf tag xs, .leaf tag' ys, ⟨htag, hxs⟩, ⟨htag', hys⟩ =>
    obtain ⟨hline, hmore⟩ := List.cons.inj h
    obtain ⟨rfl, hattributes, -⟩ :=
      opening_injective htag htag' hxs hys (.inl rfl) (.inl rfl) hline
    exact ⟨by rw [Element.escaped, Element.escaped, hattributes], hmore⟩
  | .leaf tag xs, .node tag' ys fs, ⟨htag, hxs⟩, ⟨htag', hys, _⟩ =>
    obtain ⟨-, -, hstop⟩ :=
      opening_injective htag htag' hxs hys (.inl rfl) (.inr rfl) (List.cons.inj h).1
    exact absurd hstop (by decide)
  | .node tag xs es, .leaf tag' ys, ⟨htag, hxs, _⟩, ⟨htag', hys⟩ =>
    obtain ⟨-, -, hstop⟩ :=
      opening_injective htag htag' hxs hys (.inr rfl) (.inl rfl) (List.cons.inj h).1
    exact absurd hstop (by decide)
  | .node tag xs es, .node tag' ys fs, ⟨htag, hxs, hes⟩, ⟨htag', hys, hfs⟩ =>
    rw [lines, lines, List.cons_append, List.cons_append, List.append_assoc, List.append_assoc] at h
    obtain ⟨hline, hinner⟩ := List.cons.inj h
    obtain ⟨rfl, hattributes, -⟩ :=
      opening_injective htag htag' hxs hys (.inr rfl) (.inr rfl) hline
    have hclosing (rest : List String) : Closing ((indent depth ++ "</" ++ tag ++ ">") :: rest) := by
      intro line hhead
      cases hhead
      exact ⟨depth, tag, rfl⟩
    obtain ⟨hchildren, hrest⟩ :=
      linesOfAll_injective es fs hes hfs (hclosing more) (hclosing later) hinner
    exact ⟨by rw [Element.escaped, Element.escaped, hattributes, hchildren], (List.cons.inj hrest).2⟩

theorem linesOfAll_injective {depth : Nat} {more later : List String} (es fs : List Element)
    (hes : Element.AllNamed es) (hfs : Element.AllNamed fs) (hmore : Closing more)
    (hlater : Closing later) (h : linesOfAll depth es ++ more = linesOfAll depth fs ++ later) :
    Element.escapedAll es = Element.escapedAll fs ∧ more = later := by
  match es, fs, hes, hfs with
  | [], [], _, _ => exact ⟨rfl, h⟩
  | [], f :: fs, _, ⟨hf, _⟩ =>
    rw [linesOfAll, linesOfAll, List.nil_append, List.append_assoc] at h
    exact absurd (h ▸ hmore) (not_closing_lines hf _)
  | e :: es, [], ⟨he, _⟩, _ =>
    rw [linesOfAll, linesOfAll, List.nil_append, List.append_assoc] at h
    exact absurd (h ▸ hlater) (not_closing_lines he _)
  | e :: es, f :: fs, ⟨he, hes⟩, ⟨hf, hfs⟩ =>
    rw [linesOfAll, linesOfAll, List.append_assoc, List.append_assoc] at h
    obtain ⟨hhead, htail⟩ := lines_injective e f he hf h
    obtain ⟨hall, hrest⟩ := linesOfAll_injective es fs hes hfs hmore hlater htail
    exact ⟨by rw [Element.escapedAll, Element.escapedAll, hhead, hall], hrest⟩

end

mutual

/-- The lines show attributes only with their escapes. -/
theorem lines_congr {depth : Nat} (e f : Element) (h : e.escaped = f.escaped) :
    lines depth e = lines depth f := by
  match e, f with
  | .leaf tag xs, .leaf tag' ys =>
    obtain ⟨rfl, hattributes⟩ := Element.leaf.inj h
    rw [lines, lines, opening_eq, opening_eq, hattributes]
  | .leaf tag xs, .node tag' ys fs => cases h
  | .node tag xs es, .leaf tag' ys => cases h
  | .node tag xs es, .node tag' ys fs =>
    obtain ⟨rfl, hattributes, hchildren⟩ := Element.node.inj h
    rw [lines, lines, opening_eq, opening_eq, hattributes, linesOfAll_congr es fs hchildren]

theorem linesOfAll_congr {depth : Nat} (es fs : List Element)
    (h : Element.escapedAll es = Element.escapedAll fs) : linesOfAll depth es = linesOfAll depth fs := by
  match es, fs with
  | [], [] => rfl
  | [], f :: fs => cases h
  | e :: es, [] => cases h
  | e :: es, f :: fs =>
    obtain ⟨hhead, htail⟩ := List.cons.inj h
    rw [linesOfAll, linesOfAll, lines_congr e f hhead, linesOfAll_congr es fs htail]

end

/-- The text of an element loses nothing but escapes. -/
theorem text_eq_iff {e f : Element} (he : e.Named) (hf : f.Named) :
    text e = text f ↔ e.escaped = f.escaped := by
  constructor
  · intro h
    have hlines := join_lines_injective (wellNested_element he).no_newline
      (wellNested_element hf).no_newline h
    have happend : lines 0 e ++ [] = lines 0 f ++ [] := by rw [hlines]
    exact (lines_injective e f he hf happend).1
  · intro h
    rw [text, text, lines_congr e f h]

end Outline

end BlockLang
