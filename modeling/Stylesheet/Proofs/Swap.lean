/-
  Stylesheet.Proofs.Swap — a text in which the kept spans give way to others.

  A `Swap` says which part and which span stand in the place of those that are kept. It suits a search if, wherever one
  occurrence is swapped, the search finds the others again, those after it moved along (`Suits`). Then it may be made
  everywhere at once: the cut of the text with every span swapped has the gaps it had, with the new parts between them
  (`Suits.exists_cuts`).
-/

import Stylesheet.Proofs.Reconstruction

namespace Stylesheet

/-! ## Cuts but for their offsets -/

namespace Cut

def frame (c : Cut) : List (Text × Part) × Text := (c.stretches.map fun s => (s.gap, s.found.part), c.tail)

theorem segments_eq_frame (c : Cut) :
    c.segments = c.frame.1.flatMap (fun x => [.literal x.1, .part x.2]) ++ [.literal c.frame.2] := by
  rw [segments, frame, List.flatMap_map]

theorem segments_eq_of_frame_eq {c d : Cut} (h : c.frame = d.frame) : c.segments = d.segments := by
  rw [segments_eq_frame, segments_eq_frame, h]

end Cut

def Stretch.shift (d : Int) (s : Stretch) : Stretch := { s with found := s.found.shift d }

@[simp] theorem Stretch.shift_gap (d : Int) (s : Stretch) : (s.shift d).gap = s.gap := rfl

@[simp] theorem Stretch.shift_span (d : Int) (s : Stretch) : (s.shift d).span = s.span := rfl

@[simp] theorem Stretch.shift_part (d : Int) (s : Stretch) : (s.shift d).found.part = s.found.part := rfl

theorem Cut.Aligned.shift {start start' : Nat} {d : Int} {l : List Stretch} (h : Cut.Aligned start l)
    (hstart : (start' : Int) = start + d) : Cut.Aligned start' (l.map (Stretch.shift d)) := by
  induction l generalizing start start' with
  | nil => trivial
  | cons s l ih =>
    obtain ⟨hoffset, hlength, hrest⟩ := h
    refine ⟨?_, hlength, ih hrest ?_⟩
    · show s.found.offset + d = ↑(start' + s.gap.length)
      omega
    · show ((start' + s.gap.length + s.span.length : Nat) : Int) = ↑(start + s.gap.length + s.span.length) + d
      omega

/-! ## One span -/

/-- What stands in the place of a part that is found at a span. -/
structure Swap where
  part : Part → Text → Part
  span : Part → Text → Text

namespace Swap

variable (w : Swap)

def occurrence (o : Occurrence) (span : Text) : Occurrence :=
  ⟨w.part o.part span, o.offset, (w.span o.part span).length⟩

def stretch (s : Stretch) : Stretch := ⟨s.gap, w.occurrence s.found s.span, w.span s.found.part s.span⟩

def frame (c : Cut) : List (Text × Part) × Text :=
  (c.stretches.map fun s => (s.gap, w.part s.found.part s.span), c.tail)

def text (c : Cut) : Text := c.textWith fun s => w.span s.found.part s.span

def shift (p : Part) (span : Text) : Int := (w.span p span).length - span.length

/-- Where one of the occurrences that a search finds is swapped, the search finds the others again, those after it moved
    along. -/
def Suits (search : Text → List Occurrence) (Fit : Part → Text → Prop) : Prop :=
  ∀ ⦃before span after : Text⦄ ⦃l r : List Occurrence⦄ ⦃o : Occurrence⦄,
    search (before ++ span ++ after) = l ++ o :: r → o.Placed (before ++ span ++ after) before span after →
    Fit o.part span → search (before ++ w.span o.part span ++ after) =
      l ++ w.occurrence o span :: r.map (Occurrence.shift (w.shift o.part span))

variable {w} {search : Text → List Occurrence} {Fit : Part → Text → Prop}

/-- The cut of a text in which one span is swapped. -/
theorem Suits.cuts (h : w.Suits search Fit) {source : Text} {l r : List Stretch} {s : Stretch} {tail : Text}
    (hc : (⟨l ++ s :: r, tail⟩ : Cut).Cuts source (search source)) (hs : Fit s.found.part s.span) :
    let c : Cut := ⟨l ++ w.stretch s :: r.map (Stretch.shift (w.shift s.found.part s.span)), tail⟩
    c.Cuts c.text (search c.text) := by
  intro c
  have hplaced := hc.placed rfl
  have htext : c.text = (l.flatMap fun s => s.gap ++ s.span) ++ s.gap ++ w.span s.found.part s.span ++
      ((r.flatMap fun s => s.gap ++ s.span) ++ tail) := by
    simp [c, Cut.text, Cut.textWith, stretch, List.flatMap_map]
  have hfound : search source = l.map Stretch.found ++ s.found :: r.map Stretch.found := by
    rw [← hc.found_eq, List.map_append, List.map_cons]
  rw [hplaced.source_eq] at hfound hplaced
  refine ⟨rfl, ?_, ?_⟩
  · rw [htext, h hfound hplaced hs, List.map_append, List.map_cons, List.map_map, List.map_map]
    rfl
  · obtain ⟨hl, hoffset, hlength, hr⟩ := Cut.aligned_append hc.aligned
    refine hl.append ⟨hoffset, rfl, hr.shift ?_⟩
    simp only [stretch, shift]
    omega

/-- A swap suits a search that follows it wherever it finds something, if what it finds follows one another: the
    occurrence that is swapped is told by its place. -/
theorem Suits.of_exists (hpairwise : ∀ source, (search source).Pairwise fun a b => a.stop ≤ b.offset)
    (h : ∀ {before span after : Text} {o : Occurrence}, o ∈ search (before ++ span ++ after) →
      o.Placed (before ++ span ++ after) before span after → Fit o.part span →
      span ≠ [] ∧ ∃ l r : List Occurrence,
        search (before ++ span ++ after) = l ++ o :: r.map (Occurrence.shift span.length) ∧
        search (before ++ w.span o.part span ++ after) =
          l ++ w.occurrence o span :: r.map (Occurrence.shift (w.span o.part span).length)) :
    w.Suits search Fit := by
  intro before span after l r o hfound hplaced hfit
  obtain ⟨hne, l', r', hbefore, hafter⟩ := h (by rw [hfound]; simp) hplaced hfit
  have hlt : o.offset < o.stop := by
    have hlength := hplaced.length_eq
    have hpos := List.length_pos_of_ne_nil hne
    rw [Occurrence.stop]
    omega
  have hsplit := hpairwise (before ++ span ++ after)
  have hsplit' := hsplit
  rw [hfound, List.pairwise_append, List.pairwise_cons] at hsplit
  rw [hbefore, List.pairwise_append, List.pairwise_cons] at hsplit'
  have hl : o ∉ l' := by
    intro hmem
    have := hsplit'.2.2 o hmem o (by simp)
    omega
  have hr : o ∉ r'.map (Occurrence.shift span.length) := by
    intro hmem
    have := hsplit'.2.1.1 o hmem
    omega
  obtain ⟨rfl, -, rfl⟩ := (List.append_cons_inj_of_notMem hl hr).mp (hbefore.symm.trans hfound)
  rw [hafter, List.map_map]
  congr 2
  refine List.map_congr_left fun f _ => ?_
  rw [Function.comp_apply, Occurrence.shift_shift, shift]
  congr 1
  omega

/-! ## All of them -/

/-- A cut of which the stretches to come are yet to be swapped is framed as one of the text in which all of them are.
    The induction is on their number: each step swaps one and moves the others along. -/
theorem Suits.exists_cuts_append (h : w.Suits search Fit) {n : Nat} {source : Text} {l r : List Stretch} {tail : Text}
    (hn : r.length = n) (hc : (⟨l ++ r, tail⟩ : Cut).Cuts source (search source))
    (hr : ∀ s ∈ r, Fit s.found.part s.span) :
    ∃ d : Cut, d.Cuts d.text (search d.text) ∧ d.frame = Cut.frame ⟨l ++ r.map w.stretch, tail⟩ ∧
      d.text = Cut.text ⟨l ++ r.map w.stretch, tail⟩ := by
  induction n generalizing l r source with
  | zero =>
    obtain rfl : r = [] := List.eq_nil_of_length_eq_zero hn
    obtain rfl := hc.text_eq
    exact ⟨_, hc, rfl, rfl⟩
  | succ n ih =>
    obtain ⟨s, r, rfl⟩ := List.exists_cons_of_length_eq_add_one hn
    have hswapped := h.cuts hc (hr s (by simp))
    generalize w.shift s.found.part s.span = k at hswapped
    dsimp only at hswapped
    rw [List.append_cons] at hswapped
    have hr' : ∀ t ∈ r.map (Stretch.shift k), Fit t.found.part t.span := by
      intro t ht
      obtain ⟨u, hu, rfl⟩ := List.mem_map.mp ht
      exact hr u (List.mem_cons_of_mem _ hu)
    obtain ⟨d, hd, hframe, htext⟩ := ih (by simpa using hn) hswapped hr'
    refine ⟨d, hd, ?_, ?_⟩
    · rw [hframe]
      simp [Cut.frame, stretch, occurrence]
    · rw [htext]
      simp [Cut.text, Cut.textWith, stretch, List.flatMap_map]

/-- With every span swapped, a text is cut as it was. -/
theorem Suits.exists_cuts (h : w.Suits search Fit) {source : Text} {c : Cut} (hc : c.Cuts source (search source))
    (hfit : ∀ s ∈ c.stretches, Fit s.found.part s.span) :
    ∃ d : Cut, d.Cuts (w.text c) (search (w.text c)) ∧ d.frame = w.frame c := by
  obtain ⟨stretches, tail⟩ := c
  obtain ⟨d, hd, hframe, htext⟩ := h.exists_cuts_append (l := []) rfl hc hfit
  have hswapped : d.text = w.text ⟨stretches, tail⟩ := by
    rw [htext]
    simp [Cut.text, Cut.textWith, text, stretch, List.flatMap_map]
  rw [hswapped] at hd
  refine ⟨d, hd, ?_⟩
  rw [hframe]
  simp [Cut.frame, frame, stretch, occurrence]

end Swap

end Stylesheet
