import Mathlib.Data.List.Pairwise
import BlockLang.Report

namespace BlockLang

theorem utf8Length_cons (c : Char) (cs : List Char) :
    utf8Length (c :: cs) = c.utf8Size + utf8Length cs := by
  have hfold (n : Nat) (cs : List Char) : cs.foldl (fun n c => n + c.utf8Size) n = n + utf8Length cs := by
    induction cs generalizing n with
    | nil => rfl
    | cons c cs ih =>
      rw [utf8Length, List.foldl_cons, List.foldl_cons, ih, ih]
      omega
  rw [utf8Length, List.foldl_cons, hfold]
  omega

theorem utf8Length_append (cs ds : List Char) :
    utf8Length (cs ++ ds) = utf8Length cs + utf8Length ds := by
  induction cs with
  | nil => simp [utf8Length]
  | cons c cs ih => rw [List.cons_append, utf8Length_cons, utf8Length_cons, ih, Nat.add_assoc]

theorem utf8Length_pos {cs : List Char} (h : cs ≠ []) : 0 < utf8Length cs := by
  obtain ⟨c, cs, rfl⟩ := List.exists_cons_of_ne_nil h
  rw [utf8Length_cons]
  exact Nat.add_pos_left c.utf8Size_pos _

/-- How many newlines there are among the bytes before an offset. -/
def newlinesBefore (text : String) (offset : Nat) : Nat :=
  (text.toUTF8.data.toList.take offset).count 0x0a

theorem toList_toUTF8 (text : String) :
    text.toUTF8.data.toList = text.toList.flatMap String.utf8EncodeChar := by
  simp [String.toUTF8, ← String.utf8Encode_toList, List.utf8Encode]

theorem length_utf8 (cs : List Char) :
    (cs.flatMap String.utf8EncodeChar).length = utf8Length cs := by
  induction cs with
  | nil => rfl
  | cons c cs ih =>
    rw [List.flatMap_cons, List.length_append, ih, String.length_utf8EncodeChar, utf8Length_cons]

/-- No other character has the byte of a newline among its own. -/
theorem newline_notMem_utf8 {c : Char} (h : c ≠ '\n') : 0x0a ∉ String.utf8EncodeChar c := by
  have hne : c.val.toNat ≠ 10 := fun heq => h (Char.ext (UInt32.toNat_inj.mp heq))
  unfold String.utf8EncodeChar
  generalize c.val.toNat = n at hne
  dsimp only
  repeat' split
  all_goals
    simp [← UInt8.toNat_inj]
    omega

theorem count_utf8 (cs : List Char) :
    (cs.flatMap String.utf8EncodeChar).count 0x0a = cs.count '\n' := by
  induction cs with
  | nil => rfl
  | cons c cs ih =>
    rw [List.flatMap_cons, List.count_append, ih]
    by_cases hc : c = '\n'
    · subst hc
      rw [List.count_cons_self, Nat.add_comm]
      rfl
    · rw [List.count_eq_zero.mpr (newline_notMem_utf8 hc), List.count_cons_of_ne hc,
        Nat.zero_add]

/-- Before an offset there are no more newlines than in all of the text. -/
theorem count_take_utf8_le (cs : List Char) (n : Nat) :
    ((cs.flatMap String.utf8EncodeChar).take n).count 0x0a ≤ cs.count '\n' :=
  count_utf8 cs ▸ (List.take_sublist ..).count_le 0x0a

theorem count_take_utf8 {cs : List Char} (h : '\n' ∉ cs) (n : Nat) :
    ((cs.flatMap String.utf8EncodeChar).take n).count 0x0a = 0 :=
  Nat.le_zero.mp (List.count_eq_zero.mpr h ▸ count_take_utf8_le cs n)

namespace Line

/-- The lines make up the text from `start` on, with a newline between each and the next. -/
inductive Fill : Nat → List Char → List Line → Prop
  | last {start : Nat} {cs : List Char} (single : '\n' ∉ cs) :
      Fill start cs [⟨start, String.ofList cs⟩]
  | next {start : Nat} {cs rest : List Char} {lines : List Line} (single : '\n' ∉ cs)
      (more : Fill (start + utf8Length cs + 1) rest lines) :
      Fill start (cs ++ '\n' :: rest) (⟨start, String.ofList cs⟩ :: lines)

/-- A text is cut at its first newline. -/
theorem cut_cases (cs : List Char) :
    ('\n' ∉ cs ∧ cut cs = (cs, [])) ∨
      ∃ line rest, cs = line ++ '\n' :: rest ∧ '\n' ∉ line ∧
        cut cs = (line, (cut rest).1 :: (cut rest).2) := by
  induction cs with
  | nil => exact .inl ⟨nofun, rfl⟩
  | cons c cs ih =>
    have hcut : cut (c :: cs) = if c = '\n' then ([], (cut cs).1 :: (cut cs).2)
      else (c :: (cut cs).1, (cut cs).2) := rfl
    by_cases hc : c = '\n'
    · subst hc
      exact .inr ⟨[], cs, rfl, nofun, hcut⟩
    rw [hcut, if_neg hc]
    rcases ih with ⟨hline, heq⟩ | ⟨line, rest, rfl, hline, heq⟩
    · exact .inl ⟨by simp [hline, Ne.symm hc], by rw [heq]⟩
    · exact .inr ⟨c :: line, rest, rfl, by simp [hline, Ne.symm hc], by rw [heq]⟩

theorem place_fill (start : Nat) (placed : Array Line) (cs : List Char) :
    ∃ lines, (place start placed ((cut cs).1 :: (cut cs).2)).toList = placed.toList ++ lines ∧
      Fill start cs lines := by
  induction hlength : cs.length using Nat.strongRecOn generalizing start placed cs with
  | _ n ih =>
    rcases cut_cases cs with ⟨hline, hcut⟩ | ⟨line, rest, rfl, hline, hcut⟩
    · rw [hcut]
      exact ⟨_, by simp [place], .last hline⟩
    · rw [hcut]
      have hshorter : rest.length < n := by
        rw [← hlength, List.length_append, List.length_cons]
        omega
      obtain ⟨lines, hlines, hfill⟩ := ih _ hshorter (start + utf8Length line + 1)
        (placed.push ⟨start, String.ofList line⟩) rest rfl
      refine ⟨⟨start, String.ofList line⟩ :: lines, ?_, .next hline hfill⟩
      rw [place, hlines]
      simp

/-- The table of a text holds its lines. -/
theorem fill_table (cs : List Char) : Fill 0 cs (table cs).toList := by
  obtain ⟨lines, hlines, hfill⟩ := place_fill 0 #[] cs
  rw [table, hlines, List.nil_append]
  exact hfill

namespace Fill

variable {start offset k : Nat} {cs : List Char} {lines : List Line} {line : Line}

theorem start_le (h : Fill start cs lines) : ∀ line ∈ lines, start ≤ line.start := by
  induction h with
  | last => simp
  | next _ _ ih =>
    refine List.forall_mem_cons.mpr ⟨Nat.le_refl _, fun line hline => ?_⟩
    have := ih line hline
    omega

theorem sorted (h : Fill start cs lines) : lines.Pairwise fun line later => line.start < later.start := by
  induction h with
  | last => simp
  | next _ more ih =>
    refine List.pairwise_cons.mpr ⟨fun later hlater => ?_, ih⟩
    have := more.start_le later hlater
    dsimp only
    omega

/-- Each newline before an offset starts one more line there. -/
theorem countP_eq (h : Fill start cs lines) (hle : start ≤ offset) :
    lines.countP (·.start ≤ offset) =
      1 + ((cs.flatMap String.utf8EncodeChar).take (offset - start)).count 0x0a := by
  induction h with
  | last single => simp [hle, count_take_utf8 single]
  | @next start cs rest lines single more ih =>
    have hbytes : (cs ++ '\n' :: rest).flatMap String.utf8EncodeChar =
        cs.flatMap String.utf8EncodeChar ++ 0x0a :: rest.flatMap String.utf8EncodeChar := by
      rw [List.flatMap_append, List.flatMap_cons]
      rfl
    rw [hbytes, List.countP_cons_of_pos (by simpa using hle), List.take_append, List.count_append,
      count_take_utf8 single, length_utf8]
    by_cases hlt : offset < start + utf8Length cs + 1
    · have hnone : lines.countP (·.start ≤ offset) = 0 := by
        refine List.countP_eq_zero.mpr fun line hline => ?_
        have := more.start_le line hline
        simp only [decide_eq_true_eq]
        omega
      have hnothing : offset - start - utf8Length cs = 0 := by omega
      simp [hnone, hnothing]
    · have hrest : offset - start - utf8Length cs = offset - (start + utf8Length cs + 1) + 1 := by
        omega
      rw [ih (by omega), hrest, List.take_succ_cons, List.count_cons_self]
      omega

/-- A line stands behind as many newlines as there are lines before it, and ends in front of the next
newline. -/
theorem exists_around (h : Fill start cs lines) (hk : lines[k]? = some line) :
    ∃ before after, cs = before ++ (line.text.toList ++ after) ∧
      line.start = start + utf8Length before ∧ before.count '\n' = k ∧
      (before = [] ∨ before.getLast? = some '\n') ∧ '\n' ∉ line.text.toList ∧
      (after = [] ∨ after.head? = some '\n') := by
  induction h generalizing k with
  | @last start cs single =>
    obtain ⟨rfl, rfl⟩ : k = 0 ∧ (⟨start, String.ofList cs⟩ : Line) = line := by
      simpa [List.getElem?_singleton] using hk
    refine ⟨[], [], ?_, rfl, rfl, .inl rfl, ?_, .inl rfl⟩
    · simp
    · simpa using single
  | @next start cs rest lines single more ih =>
    cases k with
    | zero =>
      obtain rfl : (⟨start, String.ofList cs⟩ : Line) = line := by simpa using hk
      refine ⟨[], '\n' :: rest, ?_, rfl, rfl, .inl rfl, ?_, .inr rfl⟩
      · simp
      · simpa using single
    | succ k =>
      obtain ⟨before, after, rfl, hstart, hcount, hfront, hline, hbehind⟩ := ih (by simpa using hk)
      refine ⟨cs ++ '\n' :: before, after, by simp, ?_, ?_, .inr ?_, hline, hbehind⟩
      · rw [hstart, utf8Length_append, utf8Length_cons]
        change _ = start + (utf8Length cs + (1 + utf8Length before))
        omega
      · rw [List.count_append, List.count_cons_self, hcount, List.count_eq_zero.mpr single]
        omega
      · rcases hfront with rfl | hlast
        · simp
        · simp [List.getLast?_cons, hlast]

end Fill

variable {lines : Array Line} {offset : Nat}

/-- The half that is kept never leaves the bounds. -/
theorem countStarted_mem {low high : Nat} (h : low ≤ high) :
    low ≤ countStarted lines offset low high ∧ countStarted lines offset low high ≤ high := by
  fun_induction countStarted lines offset low high with
  | case1 low high hlt middle hstarts ih =>
    have hmiddle : middle = (low + high) / 2 := rfl
    obtain ⟨hge, hle⟩ := ih (by omega)
    exact ⟨by omega, hle⟩
  | case2 low high hlt middle hstarts ih =>
    have hmiddle : middle = (low + high) / 2 := rfl
    obtain ⟨hge, hle⟩ := ih (by omega)
    exact ⟨hge, by omega⟩
  | case3 low high hge => exact ⟨Nat.le_refl _, h⟩

theorem start_le_of_le {j k : Nat} {line later : Line}
    (sorted : lines.toList.Pairwise fun line later => line.start < later.start)
    (hj : lines[j]? = some line) (hk : lines[k]? = some later) (hle : j ≤ k) :
    line.start ≤ later.start := by
  obtain ⟨hjlt, rfl⟩ := Array.getElem?_eq_some_iff.mp hj
  obtain ⟨hklt, rfl⟩ := Array.getElem?_eq_some_iff.mp hk
  rcases Nat.eq_or_lt_of_le hle with rfl | hlt
  · exact Nat.le_refl _
  · exact Nat.le_of_lt (List.pairwise_iff_getElem.mp sorted j k hjlt hklt hlt)

/-- Between bounds that are right, the search separates the lines that start at or before the offset
from those that start behind it. -/
theorem start_le_iff_between {low high : Nat} (hle : low ≤ high) (hsize : high ≤ lines.size)
    (sorted : lines.toList.Pairwise fun line later => line.start < later.start)
    (below : ∀ k line, lines[k]? = some line → k < low → line.start ≤ offset)
    (above : ∀ k line, lines[k]? = some line → high ≤ k → offset < line.start) :
    ∀ k line, lines[k]? = some line →
      (line.start ≤ offset ↔ k < countStarted lines offset low high) := by
  fun_induction countStarted lines offset low high with
  | case1 low high hlt middle hstarts ih =>
    have hmiddle : middle = (low + high) / 2 := rfl
    have hhalfway := Array.getElem?_eq_getElem (show middle < lines.size by omega)
    refine ih (by omega) hsize (fun k line hk hkm => ?_) above
    have := start_le_of_le sorted hk hhalfway (by omega)
    simp only [hhalfway, Option.any_some, decide_eq_true_eq] at hstarts
    omega
  | case2 low high hlt middle hstarts ih =>
    have hmiddle : middle = (low + high) / 2 := rfl
    have hhalfway := Array.getElem?_eq_getElem (show middle < lines.size by omega)
    refine ih (by omega) (by omega) below fun k line hk hmk => ?_
    have := start_le_of_le sorted hhalfway hk hmk
    simp only [hhalfway, Option.any_some, decide_eq_true_eq] at hstarts
    omega
  | case3 low high hge =>
    intro k line hk
    by_cases hkl : k < low
    · simp [hkl, below k line hk hkl]
    · have := above k line hk (by omega)
      simp only [hkl, iff_false]
      omega

/-- The lines that start at or before the offset are the first ones, as many as the search says. -/
theorem start_le_iff (sorted : lines.toList.Pairwise fun line later => line.start < later.start)
    {k : Nat} {line : Line} (hk : lines[k]? = some line) :
    line.start ≤ offset ↔ k < countStarted lines offset 0 lines.size :=
  start_le_iff_between (Nat.zero_le _) (Nat.le_refl _) sorted
    (fun k _ _ hk => absurd hk (Nat.not_lt_zero k))
    (fun _ _ hk hle => absurd (Array.getElem?_eq_some_iff.mp hk).1 (Nat.not_lt.mpr hle)) k line hk

theorem countStarted_eq_countP
    (sorted : lines.toList.Pairwise fun line later => line.start < later.start) :
    countStarted lines offset 0 lines.size = lines.toList.countP (·.start ≤ offset) := by
  have hsplit {k : Nat} {line : Line} (hk : lines[k]? = some line) :
      line.start ≤ offset ↔ k < countStarted lines offset 0 lines.size := start_le_iff sorted hk
  have hle : countStarted lines offset 0 lines.size ≤ lines.size :=
    (countStarted_mem (Nat.zero_le _)).2
  generalize countStarted lines offset 0 lines.size = n at hsplit hle
  have hfirst : (lines.toList.take n).countP (·.start ≤ offset) = n := by
    rw [List.countP_eq_length.mpr, List.length_take, Array.length_toList, Nat.min_eq_left hle]
    intro line hline
    obtain ⟨k, hk⟩ := List.mem_iff_getElem?.mp hline
    rw [List.getElem?_take] at hk
    split at hk
    · rename_i hlt
      simpa using (hsplit (by simpa using hk)).mpr hlt
    · cases hk
  have hlast : (lines.toList.drop n).countP (·.start ≤ offset) = 0 := by
    refine List.countP_eq_zero.mpr fun line hline => ?_
    obtain ⟨k, hk⟩ := List.mem_iff_getElem?.mp hline
    rw [List.getElem?_drop, Array.getElem?_toList] at hk
    have := hsplit hk
    simp only [decide_eq_true_eq]
    omega
  rw [← List.take_append_drop n lines.toList, List.countP_append, hfirst, hlast]
  rfl

end Line

namespace Source

variable (text : String) (path : Option String) (offset : Nat)

theorem lineOf_eq : lineOf (.ofString text path) offset = 1 + newlinesBefore text offset := by
  have hfill := Line.fill_table text.toList
  rw [newlinesBefore, toList_toUTF8, ← Nat.sub_zero offset, ← hfill.countP_eq (Nat.zero_le offset)]
  exact Line.countStarted_eq_countP hfill.sorted

/-- The line of an offset is there, and starts at or before it. -/
theorem exists_line : ∃ line,
    (ofString text path).lines[lineOf (.ofString text path) offset - 1]? = some line ∧
      line.start ≤ offset := by
  have hfill := Line.fill_table text.toList
  have hpos : 1 ≤ lineOf (.ofString text path) offset := by
    rw [lineOf_eq]
    exact Nat.le_add_right _ _
  have hle : lineOf (.ofString text path) offset ≤ (ofString text path).lines.size :=
    (Line.countStarted_mem (Nat.zero_le _)).2
  have hline := Array.getElem?_eq_getElem (Nat.sub_one_lt_of_le hpos hle)
  exact ⟨_, hline, (Line.start_le_iff hfill.sorted hline).mpr (Nat.sub_one_lt_of_le hpos (Nat.le_refl _))⟩

end Source

/-- The place is on a line of the text that starts at `start`: behind as many newlines less one as the
number of the line says, up to the next newline or to the end. -/
def Place.OnLine (place : Place) (text : String) (start : Nat) : Prop :=
  ∃ before after, text.toList = before ++ (place.text.toList ++ after) ∧
    start = utf8Length before ∧ place.line = before.count '\n' + 1 ∧
    (before = [] ∨ before.getLast? = some '\n') ∧ '\n' ∉ place.text.toList ∧
    (after = [] ∨ after.head? = some '\n')

/-- A column is counted in a word, which holds any but the one after the last. -/
theorem toNat_column {offset : UInt64} {start : Nat} (h : start ≤ offset.toNat) :
    (offset - .ofNat start + 1).toNat = (offset.toNat - start + 1) % UInt64.size := by
  have hstart : (UInt64.ofNat start).toNat = start :=
    UInt64.toNat_ofNat_of_lt' (Nat.lt_of_le_of_lt h offset.toNat_lt)
  rw [UInt64.toNat_add, UInt64.toNat_sub_of_le _ _ (by rwa [UInt64.le_iff_toNat_le, hstart]), hstart]
  rfl

namespace Report

/-- The report points at one of the lines of the text. -/
def OnLine (report : Report) (text : String) : Prop :=
  ∃ line, report.line? = some line ∧ 1 ≤ line ∧ line ≤ text.toList.count '\n' + 1

theorem line?_located (text : String) (path : Option String) (offset : UInt64) (message : String) :
    (located (.ofString text path) offset message).line? =
      some ((Source.ofString text path).lineOf offset.toNat) := by
  obtain ⟨line, hline, _⟩ := Source.exists_line text path offset.toNat
  rw [line?, located, Source.place?, hline]
  rfl

theorem onLine_located (text : String) (path : Option String) (offset : UInt64) (message : String) :
    (located (.ofString text path) offset message).OnLine text := by
  refine ⟨_, line?_located text path offset message, ?_, ?_⟩ <;> rw [Source.lineOf_eq]
  · exact Nat.le_add_right _ _
  · rw [newlinesBefore, toList_toUTF8, Nat.add_comm]
    exact Nat.succ_le_succ (count_take_utf8_le ..)

/-- Positions are exact, also beyond the end. The line of an offset is one more than the newlines before
it; a report that points at the offset shows this line, which starts at or before it, and the column at
which the offset lies in it. Only the greatest of all offsets has no column in the first line, for a
word does not hold it; what is shown there is column zero. -/
theorem located_exact (text : String) (path : Option String) (offset : UInt64) (message : String) :
    let source := Source.ofString text path
    let report := located source offset message
    source.lineOf offset.toNat = 1 + newlinesBefore text offset.toNat ∧
    ∃ line place, source.lines[source.lineOf offset.toNat - 1]? = some line ∧
      line.start ≤ offset.toNat ∧ report.place = some place ∧
      place.line = source.lineOf offset.toNat ∧ report.line? = some place.line ∧
      place.OnLine text line.start ∧
      (place.column = 0 ↔ line.start = 0 ∧ offset.toNat + 1 = UInt64.size) ∧
      (place.column ≠ 0 → line.start + place.column.toNat - 1 = offset.toNat) := by
  intro source report
  refine ⟨Source.lineOf_eq text path offset.toNat, ?_⟩
  obtain ⟨line, hline, hstart⟩ := Source.exists_line text path offset.toNat
  obtain ⟨before, after, hwhole, hbefore, hcount, hfront, hsingle, hbehind⟩ :=
    (Line.fill_table text.toList).exists_around (Array.getElem?_toList ▸ hline)
  have hnumber : (Source.ofString text path).lineOf offset.toNat = before.count '\n' + 1 := by
    have hpos := Source.lineOf_eq text path offset.toNat
    omega
  have hcolumn := toNat_column hstart
  have hword : offset.toNat < UInt64.size := offset.toNat_lt
  simp only [UInt64.size] at hcolumn hword ⊢
  refine ⟨line, ⟨source.lineOf offset.toNat, offset - .ofNat line.start + 1, line.text⟩, hline, hstart,
    ?_, rfl, line?_located text path offset message, ?_, ?_, ?_⟩
  · exact congrArg (Option.map _) hline
  · refine ⟨before, after, hwhole, ?_, hnumber, hfront, hsingle, hbehind⟩
    rw [hbefore, Nat.zero_add]
  · rw [← UInt64.toNat_inj, hcolumn, UInt64.toNat_zero]
    omega
  · intro hne
    rw [Ne, ← UInt64.toNat_inj, hcolumn, UInt64.toNat_zero] at hne
    rw [hcolumn]
    omega

/-- The greatest offset, with nothing in the text: it lies on the first line, and the column is zero. -/
theorem located_exact_greatest : ∃ line place,
    (Source.ofString "").lines[0]? = some line ∧ line.start = 0 ∧
      (located (.ofString "") 18446744073709551615 "").place = some place ∧ place.column = 0 := by
  obtain ⟨_, line, place, hline, _, hplace, _, _, _, hzero, _⟩ :=
    located_exact "" none 18446744073709551615 ""
  have hfirst : (Source.ofString "").lineOf (18446744073709551615 : UInt64).toNat - 1 = 0 := by
    rw [Source.lineOf_eq]
    rfl
  have hstart : line.start = 0 := by
    have htable : (Source.ofString "").lines[0]? = some ⟨0, ""⟩ := rfl
    rw [hfirst, htable, Option.some.injEq] at hline
    rw [← hline]
  exact ⟨line, place, hfirst ▸ hline, hstart, hplace, hzero.mpr ⟨hstart, rfl⟩⟩

/-- An offset beyond an empty last line, behind a character of two bytes. -/
example : (located (.ofString "é\n") 5 "").place = some ⟨2, 3, ""⟩ := by
  decide +kernel

end Report

end BlockLang
