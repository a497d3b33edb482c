import Mathlib.Data.List.Nodup
import BlockLang.Proofs.Generation.Labels

namespace BlockLang

namespace StringTable

variable {table table' : StringTable} {texts : List String} {text : String} {i : UInt16}

/-- The index of a text among the entries, in two bytes. -/
def index (table : StringTable) (text : String) : UInt16 :=
  UInt16.ofNat (table.entries.toList.idxOf text)

/-- What a table makes of texts: it holds each of them once, in the order of first use, and finds it
where it is. -/
structure Interns (table : StringTable) (texts : List String) : Prop where
  order : table.entries.toList = texts.eraseDups
  distinct : table.entries.toList.Nodup
  places : ∀ (text : String) (i : UInt16),
    table.places[text]? = some i ↔ table.entries[i.toNat]? = some text
  count : table.entries.size ≤ 65536

theorem Interns.empty : Interns .empty [] :=
  ⟨by simp [StringTable.empty], by simp [StringTable.empty], by simp [StringTable.empty],
    by simp [StringTable.empty]⟩

/-- Entries differ, so a text has one index. -/
theorem Interns.index_eq (h : table.Interns texts) (hp : table.entries[i.toNat]? = some text) :
    table.index text = i := by
  obtain ⟨hlt, rfl⟩ := Array.getElem?_eq_some_iff.mp hp
  have hidx := h.distinct.idxOf_getElem i.toNat hlt
  rw [Array.getElem_toList] at hidx
  rw [index, hidx, UInt16.ofNat_toNat]

/-- A text that was used is found at its index. -/
theorem Interns.getElem?_index (h : table.Interns texts) (hmem : text ∈ texts) :
    table.entries[(table.index text).toNat]? = some text := by
  have hentry : text ∈ table.entries.toList := by
    rw [h.order]
    exact List.mem_eraseDups.mpr hmem
  have hlt := List.idxOf_lt_length_of_mem hentry
  have hcount := h.count
  rw [← Array.length_toList] at hcount
  have hto : (table.index text).toNat = table.entries.toList.idxOf text := by
    simp only [index, UInt16.toNat_ofNat']
    omega
  rw [hto, ← Array.getElem?_toList]
  exact List.getElem?_idxOf hentry

/-- A text that has a place was used before. -/
theorem Interns.mem_of_place (h : table.Interns texts) (hp : table.places[text]? = some i) :
    text ∈ texts := by
  have hentry := Array.mem_of_getElem? ((h.places text i).mp hp)
  rw [← Array.mem_toList_iff, h.order] at hentry
  exact List.mem_eraseDups.mp hentry

theorem Interns.notMem_of_new (h : table.Interns texts) (new : table.places[text]? = none) :
    text ∉ texts := by
  intro hmem
  have hplace := (h.places text _).mpr (h.getElem?_index hmem)
  rw [new] at hplace
  cases hplace

/-- The next place goes to a text that is new. -/
theorem Interns.next (h : table.Interns texts) (new : table.places[text]? = none)
    (few : table.entries.size ≤ 65535) :
    Interns ⟨table.entries.push text, table.places.insert text (UInt16.ofNat table.entries.size)⟩
      (texts ++ [text]) := by
  have hnew := h.notMem_of_new new
  have hentry : text ∉ table.entries.toList := by
    rw [h.order]
    exact fun hmem => hnew (List.mem_eraseDups.mp hmem)
  have hto := toNat_next few
  refine ⟨?_, ?_, ?_, by simp; omega⟩
  · rw [Array.toList_push, List.eraseDups_append, h.order]
    simp [List.removeAll, hnew, List.eraseDups_cons]
  · rw [Array.toList_push, ← List.concat_eq_append]
    exact h.distinct.concat hentry
  · -- map and entries agree on the last place, which no text had, and on the others, which are kept
    intro t i
    have hlast : (UInt16.ofNat table.entries.size = i) ↔ i.toNat = table.entries.size := by
      rw [← UInt16.toNat_inj, hto, eq_comm]
    rw [Std.TreeMap.getElem?_insert, Array.getElem?_push]
    by_cases ht : text = t
    · subst ht
      have hold : table.entries[i.toNat]? ≠ some text := fun he =>
        hentry (Array.mem_toList_iff.mpr (Array.mem_of_getElem? he))
      simp [hlast, hold]
    · have hne : compare text t ≠ .eq := fun he => ht (Std.LawfulEqCmp.compare_eq_iff_eq.mp he)
      rw [if_neg hne, h.places]
      split
      · rename_i he
        rw [Array.getElem?_eq_none (Nat.le_of_eq he.symm)]
        simp [ht]
      · rfl

/-- A text that is placed is used, and the texts used before keep their indices. -/
theorem Interns.place (h : table.Interns texts) (hp : table.place text = (.ok i, table')) :
    table'.Interns (texts ++ [text]) ∧ table'.index text = i ∧
      ∀ t ∈ texts, table'.index t = table.index t := by
  cases places_of_place hp with
  | known old =>
    have hmem := h.mem_of_place old
    refine ⟨⟨?_, h.distinct, h.places, h.count⟩, h.index_eq ((h.places text i).mp old), ?_⟩
    · rw [h.order, List.eraseDups_append]
      simp [List.removeAll, hmem]
    · exact fun _ _ => rfl
  | next new short few =>
    have hnext := h.next new few
    refine ⟨hnext, ?_, ?_⟩
    · exact hnext.index_eq (by simp [toNat_next few])
    · intro t ht
      have hold := h.getElem?_index ht
      have hlt := (Array.getElem?_eq_some_iff.mp hold).1
      exact hnext.index_eq (by rw [Array.getElem?_push, if_neg (by omega), hold])

end StringTable

/-- What can be asked of an assembly before it is finished. -/
inductive Request where
  | newLabel
  | bind (label : Label)
  | jump (branch : Branch) (label : Label)
  | op (o : Opcode)
  | access (o : LocalOp) (slot : UInt16)
  | pushInt (value : Int32)
  | pushDouble (value : Double)
  | pushString (text : String)
  | reserve (count : UInt16)

namespace Request

/-- Whether it succeeds, and the assembly after it. -/
def perform (a : Assembly) : Request → Except AssemblyError Unit × Assembly
  | newLabel => (.ok (), a.newLabel.2)
  | bind label => a.bind label
  | jump branch label => a.jump branch label
  | op o => (.ok (), a.push (.plain o))
  | access o slot => (.ok (), a.access o slot)
  | pushInt value => (.ok (), a.push (.pushInt value))
  | pushDouble value => (.ok (), a.push (.pushDouble value))
  | pushString text => a.pushString text
  | reserve count => (.ok (), a.reserve count.toNat)

/-- What it adds to the code where it succeeds. A string constant is given by its index. -/
def added? (table : StringTable) : Request → Option Entry
  | newLabel => none
  | bind label => some (.label label)
  | jump branch label => some (.instruction (.jump branch label))
  | op o => some (.instruction (.plain o))
  | access o slot => some (.instruction (.access o slot))
  | pushInt value => some (.instruction (.pushInt value))
  | pushDouble value => some (.instruction (.pushDouble value))
  | pushString text => some (.instruction (.pushString (table.index text)))
  | reserve _ => none

/-- The string constant that it uses. -/
def text? : Request → Option String
  | pushString text => some text
  | _ => none

/-- Why a request fails, as the assembly is. -/
inductive Refused (a : Assembly) : Request → AssemblyError → Prop
  | bindsUnknown {label : Label} (unknown : a.labels.size ≤ label.number) :
      Refused a (.bind label) (.unknownLabel label)
  | bindsAgain {label : Label} {x : Nat} (bound : a.labels[label.number]? = some (some x)) :
      Refused a (.bind label) (.labelRebound label)
  | jumpsNowhere {branch : Branch} {label : Label} (unknown : a.labels.size ≤ label.number) :
      Refused a (.jump branch label) (.unknownLabel label)
  | tooLong {text : String} (new : a.strings.places[text]? = none)
      (long : 65535 < text.utf8ByteSize) :
      Refused a (.pushString text) (.stringTooLong text.utf8ByteSize)
  | tooMany {text : String} (new : a.strings.places[text]? = none)
      (short : text.utf8ByteSize ≤ 65535) (many : 65535 < a.strings.entries.size) :
      Refused a (.pushString text) .tooManyStrings

variable {a a' : Assembly} {r : Request} {error : AssemblyError} {texts : List String}

theorem call (r : Request) (a : Assembly) : a.Call (r.perform a).2 := by
  cases r with
  | newLabel => exact .newLabel
  | bind label => exact Emit.snd_act (·.bind label) a ▸ Assembly.Call.bind label
  | jump branch label => exact Emit.snd_act (·.jump branch label) a ▸ Assembly.Call.jump branch label
  | op o => exact .op o
  | access o slot => exact .access o slot
  | pushInt value => exact .pushInt value
  | pushDouble value => exact .pushDouble value
  | pushString text => exact Emit.snd_act (·.pushString text) a ▸ Assembly.Call.pushString text
  | reserve count => exact .reserve count

/-- A request that fails changes nothing. -/
theorem perform_error (h : r.perform a = (.error error, a')) : a' = a ∧ Refused a r error := by
  cases r with
  | bind label =>
    simp only [perform, Assembly.bind] at h
    split at h <;> cases h
    · rename_i hlabel
      exact ⟨rfl, .bindsUnknown (Array.getElem?_eq_none_iff.mp hlabel)⟩
    · rename_i x hlabel
      exact ⟨rfl, .bindsAgain hlabel⟩
  | jump branch label =>
    obtain ⟨hunknown, he, rfl⟩ | ⟨_, hok, _⟩ := Assembly.jump_cases h
    · cases he
      exact ⟨rfl, .jumpsNowhere hunknown⟩
    · cases hok
  | pushString text =>
    obtain ⟨_, hp, he, rfl⟩ | ⟨_, _, _, hok, _⟩ := Assembly.pushString_cases h
    · cases he
      cases StringTable.places_of_place hp with
      | tooLong new long => exact ⟨rfl, .tooLong new long⟩
      | full new short many => exact ⟨rfl, .tooMany new short many⟩
    · cases hok
  | newLabel | op | access | pushInt | pushDouble | reserve => cases h

/-- From `a`, whose table was made of `texts`, to `a'` a request has added what it adds. -/
structure Added (r : Request) (texts : List String) (a a' : Assembly) : Prop where
  entries : a'.entries.toList = a.entries.toList ++ (r.added? a'.strings).toList
  strings : a'.strings.Interns (texts ++ r.text?.toList)
  indices : ∀ text ∈ texts, a'.strings.index text = a.strings.index text

/-- All but string constants leave the table alone. -/
theorem added_of_strings (ht : a.strings.Interns texts) (strings : a'.strings = a.strings)
    (text : r.text? = none)
    (entries : a'.entries.toList = a.entries.toList ++ (r.added? a'.strings).toList) :
    r.Added texts a a' :=
  ⟨entries, by simpa [strings, text] using ht, fun _ _ => by rw [strings]⟩

/-- A request that succeeds adds its entry behind the others, and its text to those used before. -/
theorem perform_ok (h : r.perform a = (.ok (), a')) (ht : a.strings.Interns texts) :
    r.Added texts a a' := by
  cases r with
  | bind label =>
    obtain ⟨⟨_, he⟩, _⟩ | ⟨_, _, rfl⟩ := Assembly.bind_cases h
    · cases he
    · exact added_of_strings ht rfl rfl (by simp [added?])
  | jump branch label =>
    obtain ⟨_, he, _⟩ | ⟨_, _, rfl⟩ := Assembly.jump_cases h
    · cases he
    · exact added_of_strings ht rfl rfl (by simp [added?, Assembly.push])
  | pushString text =>
    obtain ⟨_, _, he, _⟩ | ⟨i, table, hp, _, rfl⟩ := Assembly.pushString_cases h
    · cases he
    · obtain ⟨htable, hindex, hold⟩ := ht.place hp
      exact ⟨by simp [added?, Assembly.push, hindex], htable, hold⟩
  | newLabel | reserve count =>
    cases h
    exact added_of_strings ht rfl rfl (by simp [added?, Assembly.newLabel, Assembly.reserve])
  | op | access | pushInt | pushDouble =>
    cases h
    exact added_of_strings ht rfl rfl
      (by simp [added?, Assembly.push, Assembly.access, Assembly.reserve])

end Request

/-- The requests that succeeded so far, and what they have made of the empty assembly. -/
structure History where
  done : List Request
  assembly : Assembly

namespace History

def start : History :=
  ⟨[], .empty⟩

/-- One more request, which is noted if it succeeds. -/
def ask (h : History) (r : Request) : History :=
  match r.perform h.assembly with
  | (.ok (), a) => ⟨h.done ++ [r], a⟩
  | (.error _, a) => ⟨h.done, a⟩

/-- Requests one after the other, whatever comes of each. -/
def of (requests : List Request) : History :=
  requests.foldl ask start

/-- The string constants used so far. -/
def texts (h : History) : List String :=
  h.done.filterMap Request.text?

/-- What a request keeps of a history. -/
structure Kept (h : History) : Prop where
  calls : Assembly.Calls .empty h.assembly
  entries : h.assembly.entries.toList = h.done.filterMap (·.added? h.assembly.strings)
  strings : h.assembly.strings.Interns h.texts

variable {h : History}

theorem kept_start : start.Kept :=
  ⟨.refl, rfl, .empty⟩

/-- A table that grows changes nothing of what was added, as the texts in it keep their indices. -/
theorem filterMap_added_congr {done : List Request} {table table' : StringTable}
    (indices : ∀ text ∈ done.filterMap Request.text?, table'.index text = table.index text) :
    done.filterMap (·.added? table') = done.filterMap (·.added? table) := by
  refine List.filterMap_congr fun r hr => ?_
  cases r with
  | pushString text =>
    have hindex := indices text (List.mem_filterMap.mpr ⟨_, hr, rfl⟩)
    simp only [Request.added?, hindex]
  | _ => rfl

/-- Whatever comes of a request, it keeps a history. -/
theorem Kept.ask (hk : h.Kept) (r : Request) : (h.ask r).Kept := by
  have hcall := hk.calls.tail (r.call h.assembly)
  unfold History.ask
  rcases hp : r.perform h.assembly with ⟨error | ⟨⟩, a⟩ <;> rw [hp] at hcall
  · obtain ⟨rfl, _⟩ := Request.perform_error hp
    exact ⟨hcall, hk.entries, hk.strings⟩
  · have hadded := Request.perform_ok hp hk.strings
    refine ⟨hcall, ?_, ?_⟩
    · rw [hadded.entries, hk.entries, List.filterMap_append,
        filterMap_added_congr hadded.indices]
      rfl
    · rw [texts, List.filterMap_append]
      exact hadded.strings

theorem kept_of (requests : List Request) : (of requests).Kept :=
  List.foldlRecOn requests ask kept_start fun _ hk r _ => hk.ask r

/-- An assembly gives account of what was asked of it. The code is what was added, and the address its
size; the labels that are recorded are those that stand in the code, each of them once and at the
address that is recorded; and every string constant is found at its index. -/
structure Accounted (h : History) : Prop where
  entries : h.assembly.entries.toList = h.done.filterMap (·.added? h.assembly.strings)
  address : h.assembly.address = codeSize h.assembly.entries.toList
  recorded : ∀ label : Label, (∃ x, h.assembly.labels[label.number]? = some (some x)) ↔
    .label label ∈ h.assembly.entries.toList
  once : ∀ label : Label, .label label ∈ h.assembly.entries.toList →
    h.assembly.entries.toList.count (.label label) = 1
  bound : ∀ (label : Label) (x : Nat), h.assembly.labels[label.number]? = some (some x) →
    BoundAt h.assembly.entries.toList label x
  strings : h.assembly.strings.Interns h.texts
  constants : ∀ text, .pushString text ∈ h.done →
    h.assembly.strings.entries[(h.assembly.strings.index text).toNat]? = some text

theorem Kept.accounted (hk : h.Kept) : h.Accounted := by
  have htracks := hk.calls.tracks
  have hrecorded (label : Label) : (∃ x, h.assembly.labels[label.number]? = some (some x)) ↔
      .label label ∈ h.assembly.entries.toList := by
    rw [← exists_boundAt_iff]
    exact exists_congr (htracks label)
  refine ⟨hk.entries, hk.calls.valid.address, hrecorded, ?_, ?_, hk.strings, ?_⟩
  · intro label hmem
    obtain ⟨x, hx⟩ := (hrecorded label).mpr hmem
    simpa [hx] using hk.calls.bindsOnce label.number
  · exact fun label x => (htracks label x).mp
  · intro text hmem
    exact hk.strings.getElem?_index (List.mem_filterMap.mpr ⟨_, hmem, rfl⟩)

/-- Whatever is asked, an assembly gives account of the requests that succeeded, and any request that
fails, for whatever reason, leaves all as it was. -/
theorem requests_accounted (requests : List Request) :
    (of requests).Accounted ∧
      ∀ (a : Assembly) (r : Request) (error : AssemblyError), (r.perform a).1 = .error error →
        (r.perform a).2 = a ∧ Request.Refused a r error :=
  ⟨(kept_of requests).accounted, fun _ _ _ h => Request.perform_error (Prod.ext h rfl)⟩

/-- A text that is used twice has one index, and a label that is bound is not bound again. -/
theorem requests_accounted_shared :
    let asked := of [.newLabel, .bind ⟨0⟩, .pushString "a", .bind ⟨0⟩, .pushString "b",
      .jump .goto ⟨1⟩, .pushString "a", .jump .goto ⟨0⟩]
    asked.assembly.entries.toList = [.label ⟨0⟩, .instruction (.pushString 0),
      .instruction (.pushString 1), .instruction (.pushString 0),
      .instruction (.jump .goto ⟨0⟩)] ∧
    asked.Accounted ∧
    ((Request.bind ⟨0⟩).perform asked.assembly).1 = .error (.labelRebound ⟨0⟩) ∧
    ((Request.bind ⟨0⟩).perform asked.assembly).2 = asked.assembly := by
  intro asked
  have hagain : ((Request.bind ⟨0⟩).perform asked.assembly).1 = .error (.labelRebound ⟨0⟩) := by decide +kernel
  obtain ⟨haccounted, hunchanged⟩ := requests_accounted [.newLabel, .bind ⟨0⟩, .pushString "a",
    .bind ⟨0⟩, .pushString "b", .jump .goto ⟨1⟩, .pushString "a", .jump .goto ⟨0⟩]
  exact ⟨by decide +kernel, haccounted, hagain, (hunchanged _ _ _ hagain).1⟩

end History

end BlockLang
