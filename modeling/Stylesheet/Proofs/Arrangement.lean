/-
  Stylesheet.Proofs.Arrangement — occurrences of any kind, laid out over any text.

  Occurrences need not have been found in the text: a caller may give any that lie in it, in any order and however they
  overlap. Their layout is settled by the order of their offsets and the rule that the first one wins, it warns of each
  occurrence it drops, and nothing of the text is lost in it (`fill_arrange`).

  Main statement: `arrange_first_wins`.
-/

import Stylesheet.Proofs.Cut
import Stylesheet.Proofs.Precedence

namespace Stylesheet

/-! ## The text of a layout -/

/-- Segments as text, each part giving way to the next one of some spans. -/
def fill : List Segment → List Text → Text
  | [], _ => []
  | .literal t :: rest, spans => t ++ fill rest spans
  | .part _ :: rest, span :: spans => span ++ fill rest spans
  | .part _ :: rest, [] => fill rest []

def Occurrence.spanIn (o : Occurrence) (source : Text) : Text := Text.slice source.toArray o.offset o.stop

theorem Occurrence.exists_placed {o : Occurrence} {source : Text} (hoffset : 0 ≤ o.offset) (hlength : 0 ≤ o.length)
    (hstop : o.stop ≤ source.length) : ∃ before span after, o.Placed source before span after := by
  unfold Occurrence.stop at hstop
  refine ⟨source.take o.offset.toNat, (source.drop o.offset.toNat).take o.length.toNat,
    (source.drop o.offset.toNat).drop o.length.toNat, ?_, ?_, ?_⟩
  · rw [List.append_assoc, List.take_append_drop, List.take_append_drop]
  · rw [List.length_take]
    omega
  · rw [List.length_take, List.length_drop]
    omega

theorem Occurrence.Placed.spanIn_eq {o : Occurrence} {source before span after : Text}
    (h : o.Placed source before span after) : o.spanIn source = span := by
  rw [Occurrence.spanIn, h.offset_eq, h.stop_eq, h.source_eq, Cut.slice_append]

theorem Cut.Cuts.map_spanIn {c : Cut} {source : Text} {found : List Occurrence} (h : c.Cuts source found) :
    found.map (fun o => o.spanIn source) = c.stretches.map Stretch.span := by
  rw [← h.found_eq, List.map_map]
  refine List.map_congr_left fun s hs => ?_
  obtain ⟨l, r, hsplit⟩ := List.append_of_mem hs
  exact (h.placed hsplit).spanIn_eq

theorem fill_segments (c : Cut) : fill c.segments (c.stretches.map Stretch.span) = c.text := by
  obtain ⟨stretches, tail⟩ := c
  rw [Cut.segments, Cut.text, Cut.textWith]
  induction stretches with
  | nil => simp [fill]
  | cons s stretches ih =>
    simp only [List.flatMap_cons, List.map_cons, List.cons_append, List.nil_append, List.append_assoc, fill] at ih ⊢
    rw [ih]

theorem fill_filter_isVoid (segments : List Segment) (spans : List Text) :
    fill (segments.filter fun s => !Layout.isVoid false s) spans = fill segments spans := by
  induction segments generalizing spans with
  | nil => rfl
  | cons s rest ih =>
    cases s with
    | literal t =>
      cases t with
      | nil => exact ih spans
      | cons c t =>
        rw [List.filter_cons_of_pos (by rfl), fill, fill, ih]
    | part p =>
      rw [List.filter_cons_of_pos (by rfl)]
      cases spans with
      | nil => rw [fill, fill, ih]
      | cons span spans => rw [fill, fill, ih]

/-- The literals and the text the kept occurrences cover are the text. -/
theorem fill_arrange {source : Text} {occurrences : List Occurrence}
    (h : ∀ o ∈ occurrences, ∃ before span after, o.Placed source before span after) :
    fill (arrange source occurrences false).segments
      ((Layout.kept (Layout.verdicts occurrences)).map fun o => o.spanIn source) = source := by
  obtain ⟨c, hc, hsegments⟩ := Cut.exists_cut h
  have harranged : (arrange source occurrences false).segments = _ := hsegments false
  rw [harranged]
  split
  · rename_i hnone
    subst hnone
    simp [fill]
  · rw [fill_filter_isVoid, hc.map_spanIn, fill_segments, hc.text_eq]

theorem parts_arrange {source : Text} {occurrences : List Occurrence}
    (h : ∀ o ∈ occurrences, ∃ before span after, o.Placed source before span after) (dropBlank : Bool) :
    parts (arrange source occurrences dropBlank).segments =
      (Layout.kept (Layout.verdicts occurrences)).map Occurrence.part := by
  obtain ⟨c, hc, hsegments⟩ := Cut.exists_cut h
  have harranged : (arrange source occurrences dropBlank).segments = _ := hsegments dropBlank
  rw [harranged]
  split
  · rename_i hnone
    subst hnone
    simp
  · rw [parts_filter_isVoid, Cut.parts_segments, ← hc.found_eq, List.map_map]
    rfl

/-! ## Warnings -/

structure Diagnostic.WarnsOf (d : Diagnostic) (o : Occurrence) : Prop where
  rule_eq : d.rule = "overlap".toList
  severity_eq : d.severity = .warning
  kind_eq : d.kind = some o.part.kind
  offset_eq : d.offset = some o.offset

theorem forall₂_warnings (judged : List Verdict) :
    List.Forall₂ Diagnostic.WarnsOf (Layout.warnings judged) (Layout.dropped judged) := by
  rw [Layout.warnings, List.forall₂_map_left_iff]
  exact List.forall₂_same.mpr fun o _ => ⟨rfl, rfl, rfl, rfl⟩

/-- Occurrences that lie in a text are judged in the order of their offsets, those at one offset in the order in which
    they came, and each of them is dropped just where one kept before it ends after its start. The parts of the layout
    are those of the kept ones, there is one warning for each dropped one, and with the text the kept ones cover in
    place of the parts the segments are the text. In any other order that keeps the order of those at one offset the
    occurrences have the same layout. -/
theorem arrange_first_wins {source : Text} {occurrences : List Occurrence}
    (h : ∀ o ∈ occurrences, 0 ≤ o.offset ∧ 0 ≤ o.length ∧ o.stop ≤ source.length) (dropBlank : Bool) :
    let judged := Layout.verdicts occurrences
    let arranged := arrange source occurrences dropBlank
    Layout.FirstWins judged occurrences ∧
      parts arranged.segments = (Layout.kept judged).map Occurrence.part ∧
      List.Forall₂ Diagnostic.WarnsOf arranged.diagnostics (Layout.dropped judged) ∧
      (dropBlank = false → fill arranged.segments ((Layout.kept judged).map fun o => o.spanIn source) = source) ∧
      ∀ others : List Occurrence,
        (∀ n, (others.filter fun o => o.offset = n) = occurrences.filter fun o => o.offset = n) →
        arrange source others dropBlank = arranged := by
  intro judged arranged
  have hplaced : ∀ o ∈ occurrences, ∃ before span after, o.Placed source before span after :=
    fun o ho => Occurrence.exists_placed (h o ho).1 (h o ho).2.1 (h o ho).2.2
  have hfirst : Layout.FirstWins judged occurrences :=
    Layout.firstWins_verdicts fun o ho => ⟨(h o ho).1, by have := (h o ho).2.1; rw [Occurrence.stop]; omega⟩
  refine ⟨hfirst, parts_arrange hplaced dropBlank, forall₂_warnings judged, ?_, ?_⟩
  · rintro rfl
    exact fill_arrange hplaced
  · intro others hothers
    have hsorted := Layout.sorted_congr hothers
    have hjudged : Layout.verdicts others = judged := by
      rw [Layout.verdicts, hsorted]
      rfl
    rw [arrange, hjudged]
    rfl

/-- A chain of overlaps, given out of order: the first one drops the second, so that the third one survives, and so does
    an empty one between them. -/
theorem arrange_first_wins_chain :
    let source := "abcdef".toList
    let first : Occurrence := ⟨⟨.selector, .text ['p'], false⟩, 0, 3⟩
    let second : Occurrence := ⟨⟨.var, .text ['q'], true⟩, 1, 4⟩
    let third : Occurrence := ⟨⟨.url, .text ['r'], false⟩, 4, 2⟩
    let empty : Occurrence := ⟨⟨.var, .text [], false⟩, 3, 0⟩
    let occurrences := [third, second, empty, first]
    let judged := Layout.verdicts occurrences
    let arranged := arrange source occurrences false
    (∀ o ∈ occurrences, 0 ≤ o.offset ∧ 0 ≤ o.length ∧ o.stop ≤ source.length) ∧
      Layout.kept judged = [first, empty, third] ∧ Layout.dropped judged = [second] ∧
      Layout.FirstWins judged occurrences ∧
      parts arranged.segments = (Layout.kept judged).map Occurrence.part ∧
      List.Forall₂ Diagnostic.WarnsOf arranged.diagnostics (Layout.dropped judged) ∧
      (false = false → fill arranged.segments ((Layout.kept judged).map fun o => o.spanIn source) = source) ∧
      ∀ others : List Occurrence,
        (∀ n, (others.filter fun o => o.offset = n) = occurrences.filter fun o => o.offset = n) →
        arrange source others false = arranged := by
  intro source first second third empty occurrences judged arranged
  have hlie : ∀ o ∈ occurrences, 0 ≤ o.offset ∧ 0 ≤ o.length ∧ o.stop ≤ source.length := by decide
  have hkept : Layout.kept judged = [first, empty, third] := by
    show Layout.kept (scan Layout.judge 0 (Layout.sorted occurrences)) = _
    rw [Layout.sorted_eq_insertionSort]
    decide
  have hdropped : Layout.dropped judged = [second] := by
    show Layout.dropped (scan Layout.judge 0 (Layout.sorted occurrences)) = _
    rw [Layout.sorted_eq_insertionSort]
    decide
  exact ⟨hlie, hkept, hdropped, arrange_first_wins hlie false⟩

end Stylesheet
