/-
  Stylesheet.Proofs.NormalForm — merged segments as the one way to write what segments say.

  Segments say their parts and the text in each of the gaps before, between and after them (`outline_eq_iff`). Merging
  keeps both, and segments that agree on both are merged into the same ones (`merge_eq_iff`). The segments that are
  merged into themselves are those with neither an empty literal nor two literals side by side (`merge_eq_self_iff`).

  Main statement: `merge_normalizes`.
-/

import Stylesheet.Proofs.Merge

namespace Stylesheet

/-! ## Gaps -/

def Segment.text : Segment → Text
  | .literal t => t
  | .part _ => []

/-- The texts before, between and after the parts, each joined from the literals there. -/
def gaps (segments : List Segment) : List Text :=
  (segments.splitOnP fun s => !s.isLiteral).map fun literals => literals.flatMap Segment.text

theorem gaps_literal_cons (t : Text) (rest : List Segment) :
    gaps (.literal t :: rest) = (gaps rest).modifyHead (t ++ ·) := by
  rw [gaps, gaps, List.splitOnP_cons_eq_if_modifyHead, if_neg (by simp [Segment.isLiteral])]
  cases rest.splitOnP fun s => !s.isLiteral <;> rfl

theorem gaps_part_cons (p : Part) (rest : List Segment) : gaps (.part p :: rest) = [] :: gaps rest := by
  rw [gaps, gaps, List.splitOnP_cons_eq_if_modifyHead, if_pos (by rfl)]
  rfl

theorem gaps_eq (segments : List Segment) :
    gaps segments = (outline segments).lead :: (outline segments).items.map Prod.snd := by
  induction segments with
  | nil => rfl
  | cons s rest ih =>
    cases s with
    | literal t =>
      rw [gaps_literal_cons, ih]
      rfl
    | part p =>
      rw [gaps_part_cons, ih]
      rfl

theorem parts_eq (segments : List Segment) : parts segments = (outline segments).items.map Prod.fst := by
  induction segments with
  | nil => rfl
  | cons s rest ih =>
    cases s with
    | literal t => exact ih
    | part p => exact congrArg (p :: ·) ih

theorem outline_eq_iff (a b : List Segment) : outline a = outline b ↔ parts a = parts b ∧ gaps a = gaps b := by
  rw [parts_eq, parts_eq, gaps_eq, gaps_eq, List.cons.injEq]
  constructor
  · intro h
    rw [h]
    exact ⟨rfl, rfl, rfl⟩
  · intro h
    obtain ⟨hparts, hlead, htexts⟩ := h
    have hitems : (outline a).items = (outline b).items := by
      rw [List.zip_of_prod hparts htexts, ← List.zip_of_prod rfl rfl]
    exact congrArg₂ Outline.mk hlead hitems

/-! ## Merged segments -/

/-- Segments are merged into the same ones if they have the same parts with the same text between them. -/
theorem merge_eq_iff (a b : List Segment) : merge a = merge b ↔ parts a = parts b ∧ gaps a = gaps b := by
  rw [← outline_eq_iff]
  constructor
  · intro h
    rw [← outline_merge a, h, outline_merge]
  · intro h
    rw [merge_eq_segments, h, ← merge_eq_segments]

theorem merge_eq_self_iff (segments : List Segment) :
    merge segments = segments ↔ Separated segments ∧ .literal [] ∉ segments := by
  constructor
  · intro h
    rw [← h]
    exact ⟨separated_merge _, literal_nil_notMem_merge _⟩
  · intro h
    exact merge_eq_self h.1 h.2

/-- Merging leaves no empty literal and no two literals side by side, and it keeps the parts and the text in every gap.
    Segments that agree on these, and no others, are merged into the same ones. So merging changes just those segments
    that have an empty literal or two literals side by side, may be done before segments are joined, and changes nothing
    in the CSS, nor in whether there is any. -/
theorem merge_normalizes :
    (∀ segments, Separated (merge segments) ∧ .literal [] ∉ merge segments ∧
      parts (merge segments) = parts segments ∧ gaps (merge segments) = gaps segments) ∧
    (∀ a b, merge a = merge b ↔ parts a = parts b ∧ gaps a = gaps b) ∧
    (∀ segments, merge segments = segments ↔ Separated segments ∧ .literal [] ∉ segments) ∧
    (∀ a b, merge (a ++ b) = merge (merge a ++ merge b)) ∧
    ∀ segments, css (merge segments) = css segments := by
  refine ⟨fun segments => ?_, merge_eq_iff, merge_eq_self_iff, fun a b => (merge_merge_append a b).symm,
    seamless_css.merge⟩
  obtain ⟨hparts, hgaps⟩ := (outline_eq_iff _ _).mp (outline_merge segments)
  exact ⟨separated_merge segments, literal_nil_notMem_merge segments, hparts, hgaps⟩

/-- Texts are joined across an empty literal, and a part in between keeps them apart. -/
example :
    let p : Segment := .part ⟨.url, .text ['u'], false⟩
    merge [.literal ['a'], .literal [], .literal ['b'], p, .literal [], p] = [.literal ['a', 'b'], p, p] := by decide

end Stylesheet
