/-
  Stylesheet.Proofs.Joining — two texts joined after a closing brace.

  Nothing that is read before a closing brace counts after it, but for one thing: a reference right after it is marked
  for escaping if an equals sign stands before it. A closing brace is an anchor for a selector list, as the start of a
  text is (`Selector.occurrences_append`), and no reference has one in it (`Variable.joins`). So what is found in two
  texts joined there is what is found in each of them, that of the second moved along (`Joins`), and so is what is kept
  (`kept_append`): the joined text is cut where each of them is (`Cut.Cuts.append`).

  Main statement: `parse_append`.
-/

import Stylesheet.Proofs.Flattening
import Stylesheet.Proofs.Occurrence.Reference
import Stylesheet.Proofs.Occurrence.Renaming
import Stylesheet.Proofs.Swap

namespace Stylesheet

/-- A search finds in two texts joined what it finds in each of them, that of the second moved along. -/
def Joins (found : Text → List Occurrence) (a b : Text) : Prop :=
  ∀ o, o ∈ found (a ++ b) ↔ o ∈ found a ∨ ∃ p ∈ found b, p.shift a.length = o

/-! ## Selectors -/

namespace Selector

theorem opens_of_getLast? {a : Text} (ha : a.getLast? = some '}') : Opens a := by
  obtain ⟨front, rfl⟩ := List.getLast?_eq_some_iff.mp ha
  rw [Opens, List.foldl_append]
  rfl

theorem occurrences_append {a b : Text} (ha : a.getLast? = some '}') :
    occurrences (a ++ b) = occurrences a ++ (occurrences b).map (Occurrence.shift a.length) := by
  have hlists : lists (a ++ b) = lists a ++ (lists b).map fun x => (x.1 + a.length, x.2) := by
    rw [lists, scan_append, opens_of_getLast? ha]
    exact congrArg (lists a ++ ·) (scan_add_of_within (r := ⟨0, some []⟩) (by simp [Reading.Within]) a.length b)
  show (lists (a ++ b)).flatMap (fun x => entries x.1 x.2) = _
  rw [hlists, List.flatMap_append, flatMap_entries_add]
  rfl

theorem joins {a b : Text} (ha : a.getLast? = some '}') : Joins occurrences a b := by
  intro o
  rw [occurrences_append ha, List.mem_append, List.mem_map]

end Selector

/-! ## References -/

namespace Variable

def occurrenceBetween (before word name after : Text) : Occurrence :=
  ⟨⟨.var, .text name, isEscaped before after⟩, before.length, (spell word name).length⟩

theorem mem_occurrences_iff {source : Text} {o : Occurrence} :
    o ∈ occurrences source ↔ ∃ before word name after, IsReference word name ∧
      source = before ++ spell word name ++ after ∧ o = occurrenceBetween before word name after := by
  rw [mem_occurrences]
  constructor
  · rintro ⟨before, word, name, after, href, hplaced, hpart⟩
    refine ⟨before, word, name, after, href, hplaced.source_eq, ?_⟩
    rw [hplaced.eq_mk, hpart]
    rfl
  · rintro ⟨before, word, name, after, href, hsource, rfl⟩
    exact ⟨before, word, name, after, href, ⟨hsource, rfl, rfl⟩, rfl⟩

theorem brace_notMem_spell {word name : Text} (h : IsReference word name) : '}' ∉ spell word name :=
  fun hmem => absurd (h.isReferenceChar_of_mem hmem) (by decide)

/-- Of what follows a reference only the first character counts. -/
theorem isEscaped_append_brace (before z b : Text) :
    isEscaped before (z ++ '}' :: b) = isEscaped before (z ++ ['}']) := by
  cases z <;> rfl

/-- Of what stands before a closing brace only the last character counts after it, and that only right after it. -/
theorem isEscaped_brace_append {front z : Text} (h : z ≠ [] ∨ front.getLast? ≠ some '=') (after : Text) :
    isEscaped (front ++ '}' :: z) after = isEscaped z after := by
  have hlast : ((front ++ '}' :: z).dropLast.getLast? == some '=') = (z.dropLast.getLast? == some '=') := by
    rcases List.eq_nil_or_concat' z with rfl | ⟨z, c, rfl⟩
    · simpa using h
    · rw [← List.cons_append, ← List.append_assoc, List.dropLast_concat, List.dropLast_concat]
      rcases List.eq_nil_or_concat' z with rfl | ⟨z, d, rfl⟩
      · simp
      · rw [← List.cons_append, ← List.append_assoc, List.getLast?_concat, List.getLast?_concat]
  rw [isEscaped, isEscaped, hlast]

/-- After a closing brace a reference has the mark it has without the text before the brace. -/
theorem shift_occurrenceBetween {front z : Text} (h : z ≠ [] ∨ front.getLast? ≠ some '=') (word name after : Text) :
    (occurrenceBetween z word name after).shift ↑(front ++ ['}']).length =
      occurrenceBetween (front ++ '}' :: z) word name after := by
  rw [occurrenceBetween, occurrenceBetween, isEscaped_brace_append h]
  simp [Occurrence.shift]
  omega

theorem mem_occurrences_brace {front b : Text}
    (h : (∀ name, ¬ StandsAt b 0 name) ∨ front.getLast? ≠ some '=') {o : Occurrence} :
    o ∈ occurrences (front ++ '}' :: b) ↔
      (∃ before word name z, IsReference word name ∧ front = before ++ spell word name ++ z ∧
        o = occurrenceBetween before word name (z ++ ['}'])) ∨
      ∃ p ∈ occurrences b, p.shift ↑(front ++ ['}']).length = o := by
  have hseam : ∀ z word name after, IsReference word name → b = z ++ spell word name ++ after →
      z ≠ [] ∨ front.getLast? ≠ some '=' := by
    intro z word name after href hb
    refine h.imp_left fun hnone => ?_
    rintro rfl
    exact hnone name ⟨word, href, after, hb.symm⟩
  rw [mem_occurrences_iff]
  constructor
  · rintro ⟨before, word, name, after, href, hsource, rfl⟩
    rcases Text.append_cons_eq_append hsource (brace_notMem_spell href) with ⟨z, rfl⟩ | ⟨z, rfl, rfl⟩
    · left
      rw [List.append_assoc _ z, List.append_cancel_left_eq] at hsource
      refine ⟨before, word, name, z, href, rfl, ?_⟩
      rw [← hsource, occurrenceBetween, isEscaped_append_brace]
      rfl
    · exact Or.inr ⟨_, mem_occurrences_iff.mpr ⟨z, word, name, after, href, rfl, rfl⟩,
        shift_occurrenceBetween (hseam z word name after href rfl) word name after⟩
  · rintro (⟨before, word, name, z, href, rfl, rfl⟩ | ⟨p, hp, rfl⟩)
    · refine ⟨before, word, name, z ++ '}' :: b, href, by simp, ?_⟩
      rw [occurrenceBetween, occurrenceBetween, isEscaped_append_brace _ z b]
    · obtain ⟨z, word, name, after, href, hb, rfl⟩ := mem_occurrences_iff.mp hp
      exact ⟨front ++ '}' :: z, word, name, after, href, by simp [hb],
        shift_occurrenceBetween (hseam z word name after href hb) word name after⟩

theorem joins {a b : Text} (ha : a.getLast? = some '}')
    (h : (∀ name, ¬ StandsAt b 0 name) ∨ a.dropLast.getLast? ≠ some '=') : Joins occurrences a b := by
  intro o
  obtain ⟨front, rfl⟩ := List.getLast?_eq_some_iff.mp ha
  rw [List.dropLast_concat] at h
  have hnone : ∀ name, ¬ StandsAt [] 0 name := by
    rintro name ⟨word, -, hspell⟩
    simp [spell] at hspell
  rw [mem_occurrences_brace (Or.inl hnone), List.append_assoc, List.singleton_append, mem_occurrences_brace h]
  simp [show occurrences [] = [] from rfl]

/-- An equals sign before the brace marks a reference right after it. -/
example : (occurrences r"=}var(--a)".toList).map (·.part.escape) = [true] ∧
    (occurrences "var(--a)".toList).map (·.part.escape) = [false] := by decide

end Variable

/-! ## What is kept -/

section

variable {a b : Text} {kinds : List Kind}

theorem joins_findings (h : ∀ k ∈ kinds, Joins k.occurrences a b) :
    Joins (fun source => (findings source kinds).occurrences) a b := by
  intro o
  simp only [mem_findings]
  constructor
  · rintro ⟨k, hk, ho⟩
    rcases (h k hk o).mp ho with ho | ⟨p, hp, rfl⟩
    · exact Or.inl ⟨k, hk, ho⟩
    · exact Or.inr ⟨p, ⟨k, hk, hp⟩, rfl⟩
  · rintro (⟨k, hk, ho⟩ | ⟨p, ⟨k, hk, hp⟩, rfl⟩)
    · exact ⟨k, hk, (h k hk o).mpr (Or.inl ho)⟩
    · exact ⟨k, hk, (h k hk _).mpr (Or.inr ⟨p, hp, rfl⟩)⟩

/-- Where two texts are joined and nothing is found across, what is kept of each is kept. -/
theorem kept_append (h : Joins (fun source => (findings source kinds).occurrences) a b) :
    (findings (a ++ b) kinds).kept =
      (findings a kinds).kept ++ (findings b kinds).kept.map (Occurrence.shift a.length) := by
  have hka := choice_kept_findings a kinds
  have hkb := choice_kept_findings b kinds
  refine kept_eq_of_choice ⟨fun o ho => ?_, ?_, fun o ho => ?_⟩
  · rcases List.mem_append.mp ho with ho | ho
    · exact (h o).mpr (Or.inl (hka.mem o ho))
    · obtain ⟨p, hp, rfl⟩ := List.mem_map.mp ho
      exact (h _).mpr (Or.inr ⟨p, hkb.mem p hp, rfl⟩)
  · refine List.pairwise_append.mpr ⟨hka.apart, List.pairwise_map.mpr (hkb.apart.imp fun {o p} hop => ?_),
      fun o ho p hp => ?_⟩
    · rw [Occurrence.shift_stop, Occurrence.shift_offset]
      omega
    · obtain ⟨q, hq, rfl⟩ := List.mem_map.mp hp
      have hstop := findings_inside (hka.mem o ho)
      have hstart := findings_inside (hkb.mem q hq)
      rw [Occurrence.shift_offset]
      omega
  · rcases (h o).mp ho with ho | ⟨p, hp, rfl⟩
    · rcases hka.covered o ho with hk | ⟨k, hk, hprecedes, hlt⟩
      · exact Or.inl (List.mem_append_left _ hk)
      · exact Or.inr ⟨k, List.mem_append_left _ hk, hprecedes, hlt⟩
    · rcases hkb.covered p hp with hk | ⟨k, hk, hprecedes, hlt⟩
      · exact Or.inl (List.mem_append_right _ (List.mem_map_of_mem hk))
      · refine Or.inr ⟨k.shift a.length, List.mem_append_right _ (List.mem_map_of_mem hk), hprecedes.shift _, ?_⟩
        rw [Occurrence.shift_offset, Occurrence.shift_stop]
        omega

end

/-! ## One cut after another -/

namespace Cut

def shift (n : Int) (c : Cut) : Cut := ⟨c.stretches.map (Stretch.shift n), c.tail⟩

theorem frame_shift (n : Int) (c : Cut) : (c.shift n).frame = c.frame := by
  simp [shift, frame]

theorem text_shift (n : Int) (c : Cut) : (c.shift n).text = c.text := by
  simp [shift, text, textWith, List.flatMap_map]

def append (c d : Cut) : Cut :=
  let rest := (d.shift c.text.length).after c.tail
  ⟨c.stretches ++ rest.stretches, rest.tail⟩

theorem Cuts.append {a b : Text} {found found' : List Occurrence} {c d : Cut} (hc : c.Cuts a found)
    (hd : d.Cuts b found') : (c.append d).Cuts (a ++ b) (found ++ found'.map (Occurrence.shift a.length)) := by
  have hlength : c.text.length = (c.stretches.flatMap fun s => s.gap ++ s.span).length + c.tail.length := by
    rw [text, textWith, List.length_append]
  refine ⟨?_, ?_, ?_⟩
  · have htext : ((d.shift c.text.length).after c.tail).text = c.tail ++ b := by
      rw [text_after, text_shift, hd.text_eq]
    have happend : (c.append d).text =
        c.stretches.flatMap (fun s => s.gap ++ s.span) ++ ((d.shift c.text.length).after c.tail).text := by
      rw [Cut.append, text, textWith, List.flatMap_append, List.append_assoc]
      rfl
    rw [happend, htext, ← List.append_assoc, ← hc.text_eq]
    rfl
  · show (c.stretches ++ ((d.shift c.text.length).after c.tail).stretches).map Stretch.found = _
    rw [List.map_append, map_found_after, hc.found_eq, ← hd.found_eq, ← hc.text_eq, shift, List.map_map, List.map_map]
    rfl
  · refine hc.aligned.append (Aligned.after ?_)
    refine hd.aligned.shift ?_
    rw [hlength]
    simp

theorem outline_segments_append (c d : Cut) : outline (c.append d).segments = outline (c.segments ++ d.segments) := by
  have hrest : outline ((d.shift c.text.length).after c.tail).segments =
      (outline d.segments).add (.literal c.tail) := by
    rw [outline_after, segments_eq_of_frame_eq (frame_shift _ d)]
  have happend : (c.append d).segments =
      c.stretches.flatMap (fun s => [.literal s.gap, .part s.found.part]) ++
        ((d.shift c.text.length).after c.tail).segments := by
    rw [append, segments, segments, List.flatMap_append, List.append_assoc]
  have hsegments : c.segments ++ d.segments =
      c.stretches.flatMap (fun s => [.literal s.gap, .part s.found.part]) ++ .literal c.tail :: d.segments :=
    List.append_assoc _ _ _
  rw [happend, hsegments, outline_append, outline_append, hrest, outline_cons]

end Cut

/-! ## The segments -/

theorem outline_filter_append (l m : List Segment) :
    outline (l.filter (· ≠ .literal []) ++ m) = outline (l ++ m) :=
  (seamless_outline.append m).filter_literal l

theorem outline_of_parse {source : Text} {options : Options} {parsed : Parsed} (h : parse source options = .ok parsed)
    (hblank : options.dropBlank = false) {c : Cut} (hc : c.Cuts source (findings source options.kinds).kept) :
    outline parsed.segments = outline c.segments := by
  rw [segments_of_cuts h hc]
  split
  · rename_i hnil
    have htext := hc.text_eq
    rw [Cut.text, Cut.textWith, hnil] at htext
    rw [Cut.segments, hnil, ← htext]
    rfl
  · rw [hblank, filter_isVoid_false, outline_filter_literal]

/-- Where only selectors and references are looked for, a text that is joined to one that ends in a closing brace has
    its segments after the segments of that, merged with them; unless an equals sign stands before the brace and a
    reference right after it. -/
theorem parse_append {a b : Text} {options : Options} (ha : a.getLast? = some '}')
    (hkinds : ∀ k ∈ options.kinds, k = .selector ∨ k = .var) (hblank : options.dropBlank = false)
    (hlimit : (a ++ b).length ≤ options.limit)
    (hseam : .var ∉ options.kinds ∨ (∀ name, ¬ Variable.StandsAt b 0 name) ∨ a.dropLast.getLast? ≠ some '=') :
    ∃ first second joined, parse a options = .ok first ∧ parse b options = .ok second ∧
      parse (a ++ b) options = .ok joined ∧ joined.segments = merge (first.segments ++ second.segments) := by
  have hlength : (a ++ b).length = a.length + b.length := List.length_append
  obtain ⟨first, hfirst⟩ := @exists_parse a options (by omega)
  obtain ⟨second, hsecond⟩ := @exists_parse b options (by omega)
  obtain ⟨joined, hjoined⟩ := exists_parse hlimit
  refine ⟨first, second, joined, hfirst, hsecond, hjoined, ?_⟩
  have hjoins : Joins (fun source => (findings source options.kinds).occurrences) a b := by
    refine joins_findings fun k hk => ?_
    rcases hkinds k hk with rfl | rfl
    · exact Selector.joins ha
    · exact Variable.joins ha (hseam.resolve_left (not_not_intro hk))
  have hne : a ≠ [] := by
    rintro rfl
    cases ha
  obtain ⟨c, hc, hsegments⟩ := segments_eq_filter hne hfirst hblank
  obtain ⟨d, hd, -⟩ := exists_cut_of_parse hsecond
  have hcut := hc.append hd
  rw [← kept_append hjoins] at hcut
  have houtline : outline joined.segments = outline (first.segments ++ second.segments) := by
    rw [outline_of_parse hjoined hblank hcut, Cut.outline_segments_append, hsegments, outline_filter_append,
      outline_append, outline_append, outline_of_parse hsecond hblank hd]
  rw [← merge_segments_of_parse (List.append_ne_nil_of_left_ne_nil hne b) hjoined, merge_eq_segments,
    merge_eq_segments, houtline]

/-- A rule, and then a reference right after its brace that a selector is read from as well. -/
theorem parse_append_reference :
    let a := r"c{d:var(--e)}".toList
    let b := "var(--f),g{}".toList
    let options : Options := { kinds := [.selector, .var] }
    a.getLast? = some '}' ∧ (∀ k ∈ options.kinds, k = .selector ∨ k = .var) ∧ options.dropBlank = false ∧
      ((a ++ b).length : Int) ≤ options.limit ∧ a.dropLast.getLast? ≠ some '=' ∧
      ∃ first second joined, parse a options = .ok first ∧ parse b options = .ok second ∧
        parse (a ++ b) options = .ok joined ∧ joined.segments = merge (first.segments ++ second.segments) := by
  intro a b options
  have hkinds : ∀ k ∈ options.kinds, k = .selector ∨ k = .var := by decide
  have hlimit : ((a ++ b).length : Int) ≤ options.limit := by decide
  have hseam : a.dropLast.getLast? ≠ some '=' := by decide
  exact ⟨rfl, hkinds, rfl, hlimit, hseam, parse_append rfl hkinds rfl hlimit (Or.inr (Or.inr hseam))⟩

end Stylesheet
