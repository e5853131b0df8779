/-
  Stylesheet.Proofs.Occurrence.Anchor — where a selector list starts.

  Of all the places from which list characters lead up to a brace, the list starts at the first one after an anchor
  (`Leads`). Read forward, the pass has just this list when it comes to the brace (`list?_eq_some_iff`); read back from
  the brace, the list characters in front of it tell the same start (`start?_eq_some_iff`).

  Main statement: `occurrences_exact` — brace by brace, the selectors are the entries of the list in front of the brace.
-/

import Stylesheet.Proofs.Findings
import Stylesheet.Proofs.Occurrence.Renaming

namespace Stylesheet.Selector

/-! ## Two ways to the start of a list -/

/-- A list may run from `p` up to `brace`. -/
structure Leads (source : Text) (brace p : Nat) : Prop where
  lt : p < brace
  anchor : p = 0 ∨ source[p - 1]? = some '}' ∨ source[p - 1]? = some '\n'
  char : ∀ c ∈ (source.take brace).drop p, isListChar c = true

/-- The start of the list in front of a brace, read back from the brace: the list characters there are the list if they
    go back to the start of the text or to a closing brace, and else what follows the first line end among them is. -/
def start? (source : Text) (brace : Nat) : Option Nat :=
  let run := ((source.take brace).reverse.takeWhile isListChar).reverse
  let start := brace - run.length
  if run.isEmpty then none
  else if start = 0 ∨ source[start - 1]? = some '}' then some start
  else
    let line := run.takeWhile (· ≠ '\n')
    if line.length + 1 < run.length then some (start + line.length + 1) else none

def Anchored (front : Text) : Prop := ∀ c ∈ front.getLast?, c = '}' ∨ c = '\n'

section

variable {before rest : Text} {p : Nat}

theorem leads_iff : Leads (before ++ rest) before.length p ↔
    ∃ front list, before = front ++ list ∧ p = front.length ∧ list ≠ [] ∧ Anchored front ∧
      ∀ c ∈ list, isListChar c = true := by
  constructor
  · rintro ⟨hlt, hanchor, hchar⟩
    rw [List.take_left] at hchar
    refine ⟨before.take p, before.drop p, (List.take_append_drop p before).symm, ?_, ?_, ?_, hchar⟩
    · rw [List.length_take]
      omega
    · simpa using hlt
    · intro c hc
      rw [List.getLast?_eq_getElem?, List.length_take, List.getElem?_take, Nat.min_eq_left hlt.le] at hc
      split at hc
      · rw [List.getElem?_append_left (by omega), Option.mem_def.mp hc] at hanchor
        rcases hanchor with rfl | hanchor | hanchor
        · omega
        · exact Or.inl (Option.some.inj hanchor)
        · exact Or.inr (Option.some.inj hanchor)
      · cases hc
  · rintro ⟨front, list, rfl, rfl, hne, hanchor, hchar⟩
    have hpos := List.length_pos_of_ne_nil hne
    refine ⟨by simp; omega, ?_, ?_⟩
    · rcases List.eq_nil_or_concat' front with rfl | ⟨front, c, rfl⟩
      · exact Or.inl rfl
      · rcases hanchor c (by simp) with rfl | rfl
        · exact Or.inr (Or.inl (by simp))
        · exact Or.inr (Or.inr (by simp))
    · rw [List.take_left, List.drop_left]
      exact hchar

/-! ## Read forward -/

theorem exists_foldl_extend {front list : Text} (hfront : Anchored front) (hlist : ∀ c ∈ list, isListChar c = true) :
    ∃ read, (front ++ list).foldl extend (some []) = some read ∧ list.length ≤ read.length := by
  obtain ⟨read, hread⟩ : ∃ read, front.foldl extend (some []) = some read := by
    rcases List.eq_nil_or_concat' front with rfl | ⟨front, c, rfl⟩
    · exact ⟨[], rfl⟩
    · rw [List.foldl_append, List.foldl_cons, List.foldl_nil]
      rcases hfront c (by simp) with rfl | rfl
      · exact ⟨[], rfl⟩
      · cases front.foldl extend (some []) with
        | none => exact ⟨[], rfl⟩
        | some read => exact ⟨'\n' :: read, rfl⟩
  refine ⟨list.reverse ++ read, ?_, by simp⟩
  rw [List.foldl_append, hread, foldl_extend_listChars hlist]

/-- The list that the pass has at a brace starts at the first place from which a list may run up to it. -/
theorem isLeast_of_list? {list : Text}
    (h : (Reading.mk before.length (before.foldl extend (some []))).list? = some (p, list)) :
    IsLeast {p | Leads (before ++ rest) before.length p} p ∧ list = before.drop p := by
  rw [Reading.list?] at h
  split at h
  case h_2 => cases h
  case h_1 c l hl =>
    obtain ⟨rfl, rfl⟩ := Prod.mk.inj (Option.some.inj h)
    dsimp only at hl ⊢
    obtain ⟨front, rfl, hopens, hchar⟩ := exists_of_foldl_extend hl
    have hlength : (front ++ (c :: l).reverse).length - (l.length + 1) = front.length := by simp
    rw [hlength]
    refine ⟨⟨leads_iff.mpr ⟨front, _, rfl, rfl, by simp, hopens.anchored, ?_⟩, ?_⟩, by simp⟩
    · exact fun d hd => hchar d (List.mem_reverse.mp hd)
    intro q hq
    obtain ⟨front', list', heq, rfl, -, hanchored, hchar'⟩ := leads_iff.mp hq
    obtain ⟨read, hread, hle⟩ := exists_foldl_extend hanchored hchar'
    rw [← heq, hl] at hread
    obtain rfl := Option.some.inj hread
    have := congrArg List.length heq
    simp only [List.length_append, List.length_reverse] at this
    omega

theorem list?_eq_some_iff {list : Text} :
    (Reading.mk before.length (before.foldl extend (some []))).list? = some (p, list) ↔
      IsLeast {p | Leads (before ++ rest) before.length p} p ∧ list = before.drop p := by
  refine ⟨isLeast_of_list?, ?_⟩
  rintro ⟨hleast, rfl⟩
  obtain ⟨front, list, hsplit, -, hne, hanchored, hchar⟩ := leads_iff.mp hleast.1
  obtain ⟨read, hread, hle⟩ := exists_foldl_extend hanchored hchar
  obtain ⟨c, read, rfl⟩ := List.exists_cons_of_length_pos (Nat.lt_of_lt_of_le (List.length_pos_of_ne_nil hne) hle)
  rw [← hsplit] at hread
  have hlist : (Reading.mk before.length (before.foldl extend (some []))).list? =
      some (before.length - (read.length + 1), (c :: read).reverse) := by
    rw [hread]
    rfl
  obtain ⟨hleast', hdrop⟩ := @isLeast_of_list? before rest _ _ hlist
  rw [hlist, hleast'.unique hleast, hdrop, hleast'.unique hleast]

/-! ## Read back -/

/-- A text ends in a run of list characters, which nothing before it prolongs. -/
theorem exists_run (before : Text) : ∃ front run, before = front ++ run ∧
    run = (before.reverse.takeWhile isListChar).reverse ∧ (∀ c ∈ run, isListChar c = true) ∧
    ∀ c ∈ front.getLast?, isListChar c = false := by
  refine ⟨(before.reverse.dropWhile isListChar).reverse, _, ?_, rfl, ?_, ?_⟩
  · rw [← List.reverse_append, List.takeWhile_append_dropWhile, List.reverse_reverse]
  · intro c hc
    exact List.all_eq_true.mp (List.all_takeWhile (p := isListChar)) c (List.mem_reverse.mp hc)
  · intro c hc
    rw [List.getLast?_reverse] at hc
    have := List.head?_dropWhile_not isListChar before.reverse
    rwa [Option.mem_def.mp hc] at this

/-- A list in front of a brace is the run of list characters there, or it follows a line end in the run. -/
theorem leads_run_iff {front run : Text} (hrun : ∀ c ∈ run, isListChar c = true)
    (hfront : ∀ c ∈ front.getLast?, isListChar c = false) :
    Leads (front ++ run ++ rest) (front ++ run).length p ↔
      (p = front.length ∧ run ≠ [] ∧ Anchored front) ∨
        ∃ line list, run = line ++ '\n' :: list ∧ p = front.length + line.length + 1 ∧ list ≠ [] := by
  rw [leads_iff]
  constructor
  · rintro ⟨front', list, hsplit, rfl, hne, hanchored, hchar⟩
    rcases List.append_eq_append_iff.mp hsplit with ⟨skipped, rfl, rfl⟩ | ⟨z, rfl, rfl⟩
    · rcases List.eq_nil_or_concat' skipped with rfl | ⟨line, c, rfl⟩
      · exact Or.inl ⟨by simp, hne, by simpa using hanchored⟩
      · obtain rfl : c = '\n' := by
          rcases hanchored c (by simp) with rfl | rfl
          · exact absurd (hrun '}' (by simp)) (by decide)
          · rfl
        exact Or.inr ⟨line, list, by simp, by simp [Nat.add_assoc], hne⟩
    · rcases List.eq_nil_or_concat' z with rfl | ⟨z, c, rfl⟩
      · exact Or.inl ⟨by simp, by simpa using hne, by simpa using hanchored⟩
      · have hc := hfront c (by simp)
        rw [hchar c (by simp)] at hc
        cases hc
  · rintro (⟨rfl, hne, hanchored⟩ | ⟨line, list, rfl, rfl, hne⟩)
    · exact ⟨front, run, rfl, rfl, hne, hanchored, hrun⟩
    · refine ⟨front ++ line ++ ['\n'], list, by simp, by simp; omega, hne, ?_, fun c hc => hrun c (by simp [hc])⟩
      intro c hc
      exact Or.inr (by simpa using hc.symm)

theorem getElem?_length_sub_one {front : Text} (h : front ≠ []) (t : Text) :
    (front ++ t)[front.length - 1]? = front.getLast? := by
  have := List.length_pos_of_ne_nil h
  rw [List.getElem?_append_left (by omega), List.getLast?_eq_getElem?]

/-- A run is a list from its start if no line end has to come first. -/
theorem anchored_iff {front : Text} (hfront : ∀ c ∈ front.getLast?, isListChar c = false) (t : Text) :
    Anchored front ↔ front.length = 0 ∨ (front ++ t)[front.length - 1]? = some '}' := by
  rcases eq_or_ne front [] with rfl | hne
  · exact iff_of_true nofun (Or.inl rfl)
  · rw [getElem?_length_sub_one hne, List.getLast?_eq_some_getLast hne, Anchored, List.getLast?_eq_some_getLast hne]
    have hlast := hfront _ (List.getLast?_eq_some_getLast hne)
    constructor
    · intro h
      rcases h _ rfl with h | h
      · exact Or.inr (congrArg some h)
      · rw [h] at hlast
        cases hlast
    · rintro (h | h) c hc
      · exact absurd (List.eq_nil_of_length_eq_zero h) hne
      · exact Or.inl (Option.some.inj (hc.symm.trans h))

theorem exists_line {run : Text} (h : (run.takeWhile (· ≠ '\n')).length < run.length) :
    ∃ list, run = run.takeWhile (· ≠ '\n') ++ '\n' :: list := by
  obtain ⟨c, list, hrest⟩ : ∃ c list, run.dropWhile (· ≠ '\n') = c :: list := by
    refine List.exists_cons_of_ne_nil fun hnil => ?_
    have hsplit := @List.takeWhile_append_dropWhile _ (· ≠ '\n') run
    rw [hnil, List.append_nil] at hsplit
    rw [hsplit] at h
    omega
  have hc := List.head?_dropWhile_not (· ≠ '\n') run
  rw [hrest] at hc
  obtain rfl : c = '\n' := by simpa using hc
  exact ⟨list, by rw [← hrest, List.takeWhile_append_dropWhile]⟩

theorem length_takeWhile_le_of_line (line list : Text) :
    ((line ++ '\n' :: list).takeWhile (· ≠ '\n')).length ≤ line.length := by
  rw [List.takeWhile_append]
  split
  · simp
  · exact (List.takeWhile_prefix _).length_le

/-- A run with no line end that has to come first is itself the first list. -/
theorem isLeast_leads_of_anchored {front run : Text} (hrun : ∀ c ∈ run, isListChar c = true)
    (hfront : ∀ c ∈ front.getLast?, isListChar c = false) (hne : run ≠ []) (hanchored : Anchored front) :
    IsLeast {p | Leads (front ++ run ++ rest) (front ++ run).length p} front.length := by
  refine ⟨(leads_run_iff hrun hfront).mpr (Or.inl ⟨rfl, hne, hanchored⟩), fun q hq => ?_⟩
  rcases (leads_run_iff hrun hfront).mp hq with ⟨rfl, -⟩ | ⟨line, list, -, rfl, -⟩
  · exact Nat.le_refl _
  · omega

/-- Otherwise a list starts after the first line of the run at the earliest. -/
theorem le_of_leads_of_not_anchored {front run : Text} (hrun : ∀ c ∈ run, isListChar c = true)
    (hfront : ∀ c ∈ front.getLast?, isListChar c = false) (hanchored : ¬ Anchored front)
    (h : Leads (front ++ run ++ rest) (front ++ run).length p) :
    front.length + (run.takeWhile (· ≠ '\n')).length + 1 ≤ p := by
  rcases (leads_run_iff hrun hfront).mp h with ⟨-, -, h⟩ | ⟨line, list, rfl, rfl, -⟩
  · exact absurd h hanchored
  · have := length_takeWhile_le_of_line line list
    omega

/-- It starts right there if anything follows the first line end. -/
theorem isLeast_leads_of_not_anchored {front run : Text} (hrun : ∀ c ∈ run, isListChar c = true)
    (hfront : ∀ c ∈ front.getLast?, isListChar c = false) (hanchored : ¬ Anchored front)
    (h : (run.takeWhile (· ≠ '\n')).length + 1 < run.length) :
    IsLeast {p | Leads (front ++ run ++ rest) (front ++ run).length p}
      (front.length + (run.takeWhile (· ≠ '\n')).length + 1) := by
  refine ⟨?_, fun q hq => le_of_leads_of_not_anchored hrun hfront hanchored hq⟩
  obtain ⟨list, hlist⟩ := exists_line (by omega : (run.takeWhile (· ≠ '\n')).length < run.length)
  refine (leads_run_iff hrun hfront).mpr (Or.inr ⟨_, list, hlist, rfl, ?_⟩)
  rintro rfl
  have := congrArg List.length hlist
  simp only [List.length_append, List.length_singleton] at this
  omega

/-- What is read back from a brace is the first place from which a list may run up to it. -/
theorem start?_spec (before rest : Text) :
    (∀ p, start? (before ++ rest) before.length = some p → IsLeast {p | Leads (before ++ rest) before.length p} p) ∧
      (start? (before ++ rest) before.length = none → ∀ p, ¬ Leads (before ++ rest) before.length p) := by
  obtain ⟨front, run, hsplit, hrun, hchar, hfront⟩ := exists_run before
  have hlength : before.length - run.length = front.length := by
    rw [hsplit]
    simp
  unfold start?
  rw [List.take_left, ← hrun]
  dsimp only
  rw [hlength]
  clear hrun hlength
  subst hsplit
  split
  case isTrue hempty =>
    obtain rfl : run = [] := by simpa using hempty
    refine ⟨nofun, fun _ p hp => ?_⟩
    rcases (leads_run_iff hchar hfront).mp hp with ⟨-, hne, -⟩ | ⟨line, list, hline, -⟩
    · exact hne rfl
    · exact absurd hline (by simp)
  case isFalse hempty =>
    have hanchored := anchored_iff hfront (run ++ rest)
    rw [← List.append_assoc] at hanchored
    split
    case isTrue hopen =>
      refine ⟨fun p hp => ?_, nofun⟩
      obtain rfl := Option.some.inj hp
      exact isLeast_leads_of_anchored hchar hfront (by simpa using hempty) (hanchored.mpr hopen)
    case isFalse hopen =>
      have hclosed : ¬ Anchored front := fun h => hopen (hanchored.mp h)
      split
      case isTrue hlt =>
        refine ⟨fun p hp => ?_, nofun⟩
        obtain rfl := Option.some.inj hp
        exact isLeast_leads_of_not_anchored hchar hfront hclosed (by omega)
      case isFalse hlt =>
        refine ⟨nofun, fun _ p hp => ?_⟩
        have hle := le_of_leads_of_not_anchored hchar hfront hclosed hp
        have hp := hp.lt
        rw [List.length_append] at hp
        omega

end

theorem start?_eq_some_iff {source : Text} {brace p : Nat} (h : brace ≤ source.length) :
    start? source brace = some p ↔ IsLeast {p | Leads source brace p} p := by
  obtain ⟨before, rest, rfl, rfl⟩ : ∃ before rest, source = before ++ rest ∧ brace = before.length :=
    ⟨source.take brace, source.drop brace, by simp, by simpa using h⟩
  obtain ⟨hsome, hnone⟩ := start?_spec before rest
  refine ⟨hsome p, fun hp => ?_⟩
  cases hstart : start? (before ++ rest) before.length with
  | none => exact absurd hp.1 (hnone hstart p)
  | some q => rw [(hsome q hstart).unique hp]

theorem start?_eq_none_iff {source : Text} {brace : Nat} (h : brace ≤ source.length) :
    start? source brace = none ↔ ∀ p, ¬ Leads source brace p := by
  obtain ⟨before, rest, rfl, rfl⟩ : ∃ before rest, source = before ++ rest ∧ brace = before.length :=
    ⟨source.take brace, source.drop brace, by simp, by simpa using h⟩
  obtain ⟨hsome, hnone⟩ := start?_spec before rest
  refine ⟨hnone, fun hno => ?_⟩
  cases hstart : start? (before ++ rest) before.length with
  | none => rfl
  | some q => exact absurd (hsome q hstart).1 (hno q)

/-! ## Brace by brace -/

def braces (source : Text) : List Nat := (List.range source.length).filter fun b => source[b]? == some '{'

theorem le_length_of_mem_braces {source : Text} {b : Nat} (h : b ∈ braces source) : b ≤ source.length := by
  have := List.mem_range.mp (List.mem_filter.mp h).1
  omega

def list? (source : Text) (brace : Nat) : Option (Nat × Text) :=
  (start? source brace).map fun p => (p, (source.take brace).drop p)

theorem reading_list?_eq (before rest : Text) :
    (Reading.mk before.length (before.foldl extend (some []))).list? = list? (before ++ rest) before.length := by
  refine Option.ext fun ⟨p, list⟩ => ?_
  rw [@list?_eq_some_iff before rest, ← start?_eq_some_iff (by simp), list?, List.take_left, Option.map_eq_some_iff]
  constructor
  · rintro ⟨hp, rfl⟩
    exact ⟨p, hp, rfl⟩
  · rintro ⟨q, hq, heq⟩
    obtain ⟨rfl, rfl⟩ := Prod.mk.inj heq
    exact ⟨hq, rfl⟩

/-- The pass has found the lists in front of the braces it has come by. -/
theorem scan_eq_filterMap {source : Text} (rest : Text) : ∀ before, source = before ++ rest →
    scan step ⟨before.length, before.foldl extend (some [])⟩ rest =
      ((List.range' before.length rest.length).filter fun b => source[b]? == some '{').filterMap (list? source) := by
  induction rest with
  | nil => exact fun _ _ => rfl
  | cons c rest ih =>
    intro before hsource
    have hnext := ih (before ++ [c]) (by simp [hsource])
    rw [List.length_append, List.length_singleton, List.foldl_append, List.foldl_cons, List.foldl_nil] at hnext
    have hget : source[before.length]? = some c := by
      rw [hsource]
      simp
    have hlist := reading_list?_eq before (c :: rest)
    rw [← hsource] at hlist
    rw [scan_cons, List.length_cons, List.range'_succ, step]
    dsimp only
    rw [hnext, hlist]
    by_cases hc : c = '{'
    · rw [List.filter_cons_of_pos (by simp [hget, hc]), List.filterMap_cons, if_pos hc]
      cases list? source before.length <;> rfl
    · rw [List.filter_cons_of_neg (by simp [hget, hc]), if_neg hc, List.nil_append]

theorem lists_eq (source : Text) : lists source = (braces source).filterMap (list? source) := by
  have h := scan_eq_filterMap source [] rfl
  rwa [List.length_nil, ← List.range_eq_range'] at h

/-! ## Entries -/

/-- Between two commas of a list, or from its start or up to its end, `name` is what stands there without the blanks
    around it, and it starts `k` characters after the start of the list. -/
def IsEntry (list : Text) (k : Nat) (name : Text) : Prop :=
  ∃ left indent pad right, list = left ++ (indent ++ name ++ pad) ++ right ∧ k = (left ++ indent).length ∧
    (∀ c ∈ left.getLast?, c = ',') ∧ (∀ c ∈ right.head?, c = ',') ∧ ',' ∉ indent ++ name ++ pad ∧
    Text.allBlank indent = true ∧ Text.allBlank pad = true ∧ Text.Trimmed name

theorem mem_entries {base : Nat} {list : Text} {o : Occurrence} : o ∈ entries base list ↔
    ∃ k name, IsEntry list k name ∧ isIgnored name = false ∧
      o = ⟨⟨.selector, .text name, false⟩, ↑(base + k), name.length⟩ := by
  constructor
  · intro h
    obtain ⟨⟨offset, entry⟩, hpiece, h⟩ := List.mem_filterMap.mp h
    obtain ⟨hign, rfl⟩ := entry?_eq_some_iff.mp h
    obtain ⟨left, right, rfl, rfl, hcomma, hleft, hright⟩ := Text.mem_pieces hpiece
    obtain ⟨indent, pad, hentry, hindent, hpad, hlength, htrimmed⟩ := Text.exists_trim entry
    refine ⟨(left ++ indent).length, Text.trim entry,
      ⟨left, indent, pad, right, ?_, rfl, hleft, hright, ?_, hindent, hpad, htrimmed⟩, hign, ?_⟩
    · rw [← hentry]
    · rwa [← hentry]
    · rw [List.length_append, hlength, Nat.add_assoc]
  · rintro ⟨_, name, ⟨left, indent, pad, right, rfl, rfl, hleft, hright, hcomma, hindent, hpad, htrimmed⟩, hign, rfl⟩
    obtain ⟨l, r, hpieces⟩ := @Text.exists_pieces_append base ',' left right hleft hright
    have hne : name ≠ [] := by
      rintro rfl
      cases hign
    refine List.mem_filterMap.mpr ⟨(base + left.length, indent ++ name ++ pad), ?_, entry?_eq_some_iff.mpr ?_⟩
    · rw [hpieces _ hcomma]
      simp
    · rw [Text.trim_eq hindent hpad htrimmed, Text.indent_eq hindent hne htrimmed, List.length_append, Nat.add_assoc]
      exact ⟨hign, rfl⟩

theorem isIgnored_eq_false_iff {name : Text} :
    isIgnored name = false ↔ name ∉ ["".toList, ":root".toList, "from".toList, "to".toList] := by
  rw [← Bool.not_eq_true, isIgnored, List.contains_iff_mem]
  rfl

def found (source : Text) (brace : Nat) : List Occurrence :=
  (list? source brace).toList.flatMap fun x => entries x.1 x.2

theorem mem_found_iff {source : Text} {brace : Nat} {o : Occurrence} :
    o ∈ found source brace ↔ ∃ p, start? source brace = some p ∧ o ∈ entries p ((source.take brace).drop p) := by
  rw [found, list?]
  cases start? source brace <;> simp

theorem pairwise_found (source : Text) (brace : Nat) :
    (found source brace).Pairwise fun a b => a.stop ≤ b.offset := by
  rw [found]
  cases list? source brace with
  | none => exact List.Pairwise.nil
  | some x =>
    rw [Option.toList_some, List.flatMap_singleton]
    exact pairwise_entries x.1 x.2

theorem occurrences_eq (source : Text) : occurrences source = (braces source).flatMap (found source) := by
  show (lists source).flatMap _ = _
  rw [lists_eq, List.filterMap_eq_flatMap_toList, List.flatMap_assoc]
  rfl

/-- Brace by brace, the selectors of a text are the entries of the list in front of the brace, but for those that are
    empty or name no selector of their own. The list runs up to the brace from the first place where one may start, and
    reading back from the brace finds that place whenever there is one. -/
theorem occurrences_exact (source : Text) :
    (∀ b ≤ source.length, ∀ p, start? source b = some p ↔ IsLeast {p | Leads source b p} p) ∧
    (∀ b ≤ source.length, start? source b = none ↔ ∀ p, ¬ Leads source b p) ∧
    ∃ found : Nat → List Occurrence,
      (findings source Kind.all).occurrences.filter (·.part.kind = .selector) = (braces source).flatMap found ∧
      ∀ b ∈ braces source, (found b).Pairwise (fun x y => x.stop ≤ y.offset) ∧
        ∀ o, o ∈ found b ↔ ∃ p k name, IsLeast {p | Leads source b p} p ∧
          IsEntry ((source.take b).drop p) k name ∧
          name ∉ ["".toList, ":root".toList, "from".toList, "to".toList] ∧
          o = ⟨⟨.selector, .text name, false⟩, ↑(p + k), name.length⟩ := by
  refine ⟨fun b hb p => start?_eq_some_iff hb, fun b hb => start?_eq_none_iff hb, found source, ?_,
    fun b hb => ⟨pairwise_found source b, fun o => ?_⟩⟩
  · rw [filter_findings (by decide)]
    exact occurrences_eq source
  · rw [mem_found_iff]
    constructor
    · rintro ⟨p, hp, ho⟩
      obtain ⟨k, name, hentry, hign, rfl⟩ := mem_entries.mp ho
      exact ⟨p, k, name, (start?_eq_some_iff (le_length_of_mem_braces hb)).mp hp, hentry,
        isIgnored_eq_false_iff.mp hign, rfl⟩
    · rintro ⟨p, k, name, hp, hentry, hign, rfl⟩
      exact ⟨p, (start?_eq_some_iff (le_length_of_mem_braces hb)).mpr hp,
        mem_entries.mpr ⟨k, name, hentry, isIgnored_eq_false_iff.mpr hign, rfl⟩⟩

end Stylesheet.Selector
