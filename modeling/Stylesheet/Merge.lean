/-
  Stylesheet.Merge — adjacent literals joined.

  Two lists of segments say the same if they have the same parts with the same text between them, however that text is
  cut into literals. `outline` is what they say; `merge` gives the shortest list that says it, and `outline_merge` that
  it says the same.
-/

import Stylesheet.Part

namespace Stylesheet

/-- Puts a segment before merged ones: an empty literal vanishes, and a literal joins a literal. -/
def attach : Segment → List Segment → List Segment
  | .literal [], rest => rest
  | .literal t, .literal u :: rest => .literal (t ++ u) :: rest
  | s, rest => s :: rest

def merge (segments : List Segment) : List Segment := segments.foldr attach []

/-- The text before the first part, and each part with the text after it. -/
structure Outline where
  lead : Text
  items : List (Part × Text)
  deriving DecidableEq, Repr

def Outline.add (o : Outline) : Segment → Outline
  | .literal t => ⟨t ++ o.lead, o.items⟩
  | .part p => ⟨[], (p, o.lead) :: o.items⟩

def outline (segments : List Segment) : Outline := segments.foldr (fun s o => o.add s) ⟨[], []⟩

/-! ## Merging keeps the outline -/

@[simp] theorem merge_nil : merge [] = [] := rfl

theorem merge_cons (s : Segment) (rest : List Segment) : merge (s :: rest) = attach s (merge rest) := rfl

@[simp] theorem outline_nil : outline [] = ⟨[], []⟩ := rfl

theorem outline_cons (s : Segment) (rest : List Segment) : outline (s :: rest) = (outline rest).add s := rfl

theorem outline_attach (s : Segment) (rest : List Segment) : outline (attach s rest) = (outline rest).add s := by
  unfold attach
  split
  · simp [Outline.add]
  · simp [outline_cons, Outline.add]
  · rfl

theorem outline_merge (segments : List Segment) : outline (merge segments) = outline segments := by
  induction segments with
  | nil => rfl
  | cons s rest ih => rw [merge_cons, outline_attach, ih, outline_cons]

end Stylesheet
