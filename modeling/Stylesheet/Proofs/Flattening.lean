/-
  Stylesheet.Proofs.Flattening — kinds that are left out of a search, and parts that are given up after it.

  A kind need not be looked for, or its parts may be turned back into text once they are found. Where nothing overlaps
  the two come to the same: fewer kinds keep of what is found what is of these kinds (`kept_eq_filter`), which cuts the
  text at fewer places (`Cut.Cuts.select`), and what a cut at fewer places says is what the cut at all of them says with
  the other parts turned back into text (`Cut.outline_select`).

  Main statement: `parse_eq_merge_flatten`.
-/

import Stylesheet.Proofs.Pipeline
import Stylesheet.Proofs.Placement
import Stylesheet.Proofs.Reconstruction

namespace Stylesheet

/-! ## Parts given up -/

/-- Segments in which the parts of other kinds give way to literals: each to the next one of some spans. -/
def flatten (kinds : List Kind) : List Segment → List Text → List Segment
  | [], _ => []
  | .literal t :: rest, spans => .literal t :: flatten kinds rest spans
  | .part p :: rest, span :: spans =>
    (if p.kind ∈ kinds then .part p else .literal span) :: flatten kinds rest spans
  | .part p :: rest, [] => .part p :: flatten kinds rest []

theorem outline_flatten_filter (kinds : List Kind) (segments : List Segment) (spans : List Text) :
    outline (flatten kinds (segments.filter (· ≠ .literal [])) spans) = outline (flatten kinds segments spans) := by
  induction segments generalizing spans with
  | nil => rfl
  | cons s rest ih =>
    cases s with
    | literal t =>
      by_cases ht : t = []
      · subst ht
        rw [List.filter_cons_of_neg (by simp), ih, flatten, outline_cons]
        rfl
      · rw [List.filter_cons_of_pos (by simpa using ht), flatten, flatten, outline_cons, outline_cons, ih]
    | part p =>
      rw [List.filter_cons_of_pos (by simp)]
      cases spans with
      | nil => rw [flatten, flatten, outline_cons, outline_cons, ih]
      | cons span spans => rw [flatten, flatten, outline_cons, outline_cons, ih]

namespace Cut

def after (t : Text) : Cut → Cut
  | ⟨[], tail⟩ => ⟨[], t ++ tail⟩
  | ⟨s :: rest, tail⟩ => ⟨{ s with gap := t ++ s.gap } :: rest, tail⟩

def selectFrom (p : Occurrence → Bool) : List Stretch → Text → Cut
  | [], tail => ⟨[], tail⟩
  | s :: rest, tail =>
    let c := selectFrom p rest tail
    if p s.found then ⟨s :: c.stretches, c.tail⟩ else c.after (s.gap ++ s.span)

def select (p : Occurrence → Bool) (c : Cut) : Cut := selectFrom p c.stretches c.tail

theorem text_after (t : Text) (c : Cut) : (c.after t).text = t ++ c.text := by
  obtain ⟨stretches, tail⟩ := c
  cases stretches <;> simp [after, text, textWith]

theorem map_found_after (t : Text) (c : Cut) :
    (c.after t).stretches.map Stretch.found = c.stretches.map Stretch.found := by
  obtain ⟨stretches, tail⟩ := c
  cases stretches <;> rfl

theorem Aligned.after {start : Nat} {t : Text} {c : Cut} (h : Aligned (start + t.length) c.stretches) :
    Aligned start (c.after t).stretches := by
  obtain ⟨stretches, tail⟩ := c
  cases stretches with
  | nil => trivial
  | cons s rest =>
    obtain ⟨hoffset, hlength, hrest⟩ := h
    refine ⟨?_, hlength, ?_⟩
    · rw [hoffset, List.length_append]
      omega
    · rw [List.length_append, ← Nat.add_assoc]
      exact hrest

theorem outline_after (t : Text) (c : Cut) :
    outline (c.after t).segments = (outline c.segments).add (.literal t) := by
  obtain ⟨stretches, tail⟩ := c
  cases stretches <;> simp [Cut.after, segments, outline_cons, Outline.add]

theorem segments_cons (s : Stretch) (rest : List Stretch) (tail : Text) :
    segments ⟨s :: rest, tail⟩ = .literal s.gap :: .part s.found.part :: segments ⟨rest, tail⟩ := rfl

theorem text_cons (s : Stretch) (rest : List Stretch) (tail : Text) :
    text ⟨s :: rest, tail⟩ = s.gap ++ s.span ++ text ⟨rest, tail⟩ := by
  simp [text, textWith]

theorem text_selectFrom (p : Occurrence → Bool) (stretches : List Stretch) (tail : Text) :
    (selectFrom p stretches tail).text = text ⟨stretches, tail⟩ := by
  induction stretches with
  | nil => rfl
  | cons s rest ih =>
    rw [selectFrom, text_cons]
    split
    · rw [text_cons, ih]
    · rw [text_after, ih]

theorem map_found_selectFrom (p : Occurrence → Bool) (stretches : List Stretch) (tail : Text) :
    (selectFrom p stretches tail).stretches.map Stretch.found = (stretches.map Stretch.found).filter p := by
  induction stretches with
  | nil => rfl
  | cons s rest ih =>
    rw [selectFrom, List.map_cons]
    by_cases hs : p s.found = true
    · rw [if_pos hs, List.filter_cons_of_pos hs, List.map_cons, ih]
    · rw [if_neg hs, List.filter_cons_of_neg hs, map_found_after, ih]

theorem Aligned.selectFrom (p : Occurrence → Bool) {start : Nat} {stretches : List Stretch} (tail : Text)
    (h : Aligned start stretches) : Aligned start (selectFrom p stretches tail).stretches := by
  induction stretches generalizing start with
  | nil => trivial
  | cons s rest ih =>
    obtain ⟨hoffset, hlength, hrest⟩ := h
    rw [Cut.selectFrom]
    split
    · exact ⟨hoffset, hlength, ih hrest⟩
    · refine Aligned.after ?_
      rw [List.length_append, ← Nat.add_assoc]
      exact ih hrest

theorem Cuts.select {c : Cut} {source : Text} {found : List Occurrence} (h : c.Cuts source found)
    (p : Occurrence → Bool) : (c.select p).Cuts source (found.filter p) := by
  refine ⟨?_, ?_, h.aligned.selectFrom p c.tail⟩
  · rw [Cut.select, text_selectFrom, ← h.text_eq]
  · rw [Cut.select, map_found_selectFrom, h.found_eq]

/-- What a cut at fewer occurrences says is what the cut says once the other parts are given up. -/
theorem outline_select (kinds : List Kind) (c : Cut) :
    outline (c.select fun o => o.part.kind ∈ kinds).segments =
      outline (flatten kinds c.segments (c.stretches.map Stretch.span)) := by
  obtain ⟨stretches, tail⟩ := c
  rw [select]
  dsimp only
  induction stretches with
  | nil => rfl
  | cons s rest ih =>
    rw [selectFrom, segments_cons, List.map_cons, flatten, flatten, outline_cons, outline_cons, ← ih]
    by_cases hs : s.found.part.kind ∈ kinds
    · rw [if_pos (by simpa using hs), if_pos hs]
      rfl
    · rw [if_neg (by simpa using hs), if_neg hs, outline_after]
      simp [Outline.add]

end Cut

/-! ## Kinds that are not looked for -/

section

variable {source : Text} {options : Options}

theorem dropped_eq_nil_of_parse {parsed : Parsed} (h : parse source options = .ok parsed)
    (hnone : ∀ d ∈ parsed.diagnostics, d.rule ≠ "overlap".toList) :
    Layout.dropped (Layout.verdicts (findings source options.kinds).occurrences) = [] := by
  unfold parse at h
  split at h
  · cases h
  · obtain rfl := Except.ok.inj h
    refine List.eq_nil_iff_forall_not_mem.mpr fun o ho => ?_
    exact hnone (.overlap o) (List.mem_append_right _ (List.mem_map_of_mem ho)) rfl

/-- Where nothing is dropped, a search for fewer kinds keeps what it finds. -/
theorem kept_eq_filter {all kinds : List Kind} (hall : ∀ k, k ∈ all)
    (hdropped : Layout.dropped (Layout.verdicts (findings source all).occurrences) = []) :
    (findings source kinds).kept = (findings source all).kept.filter fun o => o.part.kind ∈ kinds := by
  have hkept : ∀ o ∈ (findings source all).occurrences, o ∈ (findings source all).kept := by
    intro o ho
    rcases Layout.mem_kept_or_mem_dropped ho with h | h
    · exact h
    · rw [hdropped] at h
      cases h
  refine kept_eq_of_choice ⟨fun o ho => ?_, ?_, fun o ho => Or.inl ?_⟩
  · obtain ⟨ho, hk⟩ := List.mem_filter.mp ho
    have hfound := mem_occurrences_of_mem_findings (Layout.mem_of_mem_kept ho)
    exact mem_findings.mpr ⟨_, of_decide_eq_true hk, hfound⟩
  · exact (choice_kept_findings source all).apart.filter _
  · obtain ⟨k, hk, hfound⟩ := mem_findings.mp ho
    refine List.mem_filter.mpr ⟨hkept o (mem_findings.mpr ⟨k, hall k, hfound⟩), ?_⟩
    rw [kind_of_mem_occurrences hfound]
    exact decide_eq_true hk

theorem merge_segments_of_parse (hne : source ≠ []) {parsed : Parsed} (h : parse source options = .ok parsed) :
    merge parsed.segments = parsed.segments :=
  merge_eq_self (tidy_of_parse h).separated (literal_nil_notMem_of_parse hne h)

end

/-- If a search for all kinds reports no overlap, a search for fewer kinds gives the same segments with the parts of the
    other kinds given up: each is a literal again, joined with those next to it. -/
theorem parse_eq_merge_flatten {source : Text} {options : Options} (hne : source ≠ [])
    (hlimit : source.length ≤ options.limit) (hblank : options.dropBlank = false) (hall : ∀ k, k ∈ options.kinds)
    (kinds : List Kind) :
    ∃ full chosen, parse source options = .ok full ∧ parse source { options with kinds := kinds } = .ok chosen ∧
      parts full.segments = (findings source options.kinds).kept.map Occurrence.part ∧
      ((∀ d ∈ full.diagnostics, d.rule ≠ "overlap".toList) →
        chosen.segments = merge (flatten kinds full.segments
          ((findings source options.kinds).kept.map fun o => o.spanIn source))) := by
  obtain ⟨full, hfull⟩ := exists_parse hlimit
  obtain ⟨chosen, hchosen⟩ := @exists_parse source { options with kinds := kinds } hlimit
  refine ⟨full, chosen, hfull, hchosen, parts_of_parse hfull, fun hnone => ?_⟩
  obtain ⟨c, hc, hsegments⟩ := segments_eq_filter hne hfull hblank
  obtain ⟨d, hd, hsegments'⟩ := segments_eq_filter hne hchosen hblank
  -- fewer kinds cut the text where all kinds do, but at fewer places
  obtain rfl : d = c.select fun o => o.part.kind ∈ kinds := by
    have hkept := @kept_eq_filter source _ kinds hall (dropped_eq_nil_of_parse hfull hnone)
    refine hd.unique ?_
    dsimp only
    rw [hkept]
    exact hc.select _
  have houtline : outline chosen.segments =
      outline (flatten kinds full.segments ((findings source options.kinds).kept.map fun o => o.spanIn source)) := by
    rw [hsegments', outline_filter_literal, Cut.outline_select, hsegments, hc.map_spanIn, outline_flatten_filter]
  rw [← merge_segments_of_parse hne hchosen, merge_eq_segments, merge_eq_segments, houtline]

/-- A selector and a url given up for a reference and a property, and text before, between and after them. -/
theorem parse_eq_merge_flatten_root :
    let source := r":root{--a: b}c,d{e:VAR(--f) url(g)}".toList
    let kinds : List Kind := [.var, .property]
    source ≠ [] ∧ (source.length : Int) ≤ ({} : Options).limit ∧ ({} : Options).dropBlank = false ∧
      (∀ k, k ∈ ({} : Options).kinds) ∧
      ∃ full chosen, parse source {} = .ok full ∧ parse source { kinds := kinds } = .ok chosen ∧
        parts full.segments = (findings source Kind.all).kept.map Occurrence.part ∧
        (∀ d ∈ full.diagnostics, d.rule ≠ "overlap".toList) ∧
        chosen.segments = [.literal r":root{".toList, .part ⟨.property, .property ⟨['a'], ['b']⟩, false⟩,
          .literal r"}c,d{e:".toList, .part ⟨.var, .text ['f'], false⟩, .literal r" url(g)}".toList] ∧
        chosen.segments = merge (flatten kinds full.segments
          ((findings source Kind.all).kept.map fun o => o.spanIn source)) := by
  intro source kinds
  have hlimit : (source.length : Int) ≤ ({} : Options).limit := by decide
  have hall : ∀ k, k ∈ ({} : Options).kinds := by
    intro k
    cases k <;> decide
  obtain ⟨full, chosen, hfull, hchosen, hparts, hmerge⟩ :=
    @parse_eq_merge_flatten source {} (by decide) hlimit rfl hall kinds
  have hnone : ∀ d ∈ full.diagnostics, d.rule ≠ "overlap".toList := by
    rw [eq_of_parse hfull]
    decide +kernel
  refine ⟨by decide, hlimit, rfl, hall, full, chosen, hfull, hchosen, hparts, hnone, ?_, hmerge hnone⟩
  rw [eq_of_parse hchosen]
  decide +kernel

end Stylesheet
