/-
  Stylesheet.Proofs.Cut — a text cut at the occurrences that are kept.

  The segments of a text are not read off offsets in the proofs that follow, but off a `Cut`: the text as an alternation
  of gaps and spans, each span under the occurrence it belongs to. `exists_cut` gives the cut at the kept occurrences,
  and says that the segments are its gaps and parts in order, less the gaps that are left out.
-/

import Stylesheet.Parse
import Stylesheet.Proofs.Findings

namespace Stylesheet

structure Stretch where
  gap : Text
  found : Occurrence
  span : Text

/-- A text cut into stretches, and what follows the last of them. -/
structure Cut where
  stretches : List Stretch
  tail : Text

namespace Cut

/-- The occurrences lie where the stretches put them when the first one starts at `start`. -/
def Aligned : Nat → List Stretch → Prop
  | _, [] => True
  | start, s :: rest =>
    s.found.offset = ↑(start + s.gap.length) ∧ s.found.length = s.span.length ∧
      Aligned (start + s.gap.length + s.span.length) rest

def textWith (f : Stretch → Text) (c : Cut) : Text := c.stretches.flatMap (fun s => s.gap ++ f s) ++ c.tail

def text (c : Cut) : Text := c.textWith (·.span)

def segments (c : Cut) : List Segment :=
  c.stretches.flatMap (fun s => [.literal s.gap, .part s.found.part]) ++ [.literal c.tail]

structure Cuts (c : Cut) (source : Text) (found : List Occurrence) : Prop where
  text_eq : c.text = source
  found_eq : c.stretches.map (·.found) = found
  aligned : Aligned 0 c.stretches

/-! ## Places in a cut -/

theorem aligned_append {start : Nat} {l r : List Stretch} (h : Aligned start (l ++ r)) :
    Aligned start l ∧ Aligned (start + (l.flatMap fun s => s.gap ++ s.span).length) r := by
  induction l generalizing start with
  | nil => exact ⟨trivial, by simpa using h⟩
  | cons s l ih =>
    obtain ⟨h1, h2, h3⟩ := h
    obtain ⟨h4, h5⟩ := ih h3
    refine ⟨⟨h1, h2, h4⟩, ?_⟩
    rw [show start + ((s :: l).flatMap fun s => s.gap ++ s.span).length =
      start + s.gap.length + s.span.length + (l.flatMap fun s => s.gap ++ s.span).length by simp; omega]
    exact h5

theorem Aligned.append {start : Nat} {l r : List Stretch} (hl : Aligned start l)
    (hr : Aligned (start + (l.flatMap fun s => s.gap ++ s.span).length) r) : Aligned start (l ++ r) := by
  induction l generalizing start with
  | nil => simpa using hr
  | cons s l ih =>
    obtain ⟨hoffset, hlength, hrest⟩ := hl
    refine ⟨hoffset, hlength, ih hrest ?_⟩
    rw [List.flatMap_cons, List.length_append, List.length_append] at hr
    rwa [show start + s.gap.length + s.span.length + (l.flatMap fun s => s.gap ++ s.span).length =
      start + (s.gap.length + s.span.length + (l.flatMap fun s => s.gap ++ s.span).length) by omega]

theorem Aligned.unique {start : Nat} {l m : List Stretch} {t u : Text} (hl : Aligned start l)
    (hm : Aligned start m) (hfound : l.map Stretch.found = m.map Stretch.found)
    (htext : l.flatMap (fun s => s.gap ++ s.span) ++ t = m.flatMap (fun s => s.gap ++ s.span) ++ u) :
    l = m ∧ t = u := by
  induction l generalizing m start with
  | nil =>
    obtain rfl : m = [] := List.map_eq_nil_iff.mp hfound.symm
    exact ⟨rfl, htext⟩
  | cons a l ih =>
    obtain ⟨b, m, rfl, hab, hrest⟩ := List.map_eq_cons_iff.mp hfound.symm
    obtain ⟨hoffset, hlength, hl⟩ := hl
    obtain ⟨hoffset', hlength', hm⟩ := hm
    rw [hab] at hoffset' hlength'
    have hgapLength : a.gap.length = b.gap.length := by omega
    have hspanLength : a.span.length = b.span.length := by omega
    simp only [List.flatMap_cons, List.append_assoc] at htext
    obtain ⟨hgap, htext⟩ := List.append_inj htext hgapLength
    obtain ⟨hspan, htext⟩ := List.append_inj htext hspanLength
    rw [← hgapLength, ← hspanLength] at hm
    obtain ⟨rfl, rfl⟩ := ih hl hm hrest.symm htext
    obtain ⟨gap, found, span⟩ := a
    obtain rfl : gap = b.gap := hgap
    obtain rfl : span = b.span := hspan
    obtain rfl : b.found = found := hab
    exact ⟨rfl, rfl⟩

theorem Cuts.unique {source : Text} {found : List Occurrence} {c d : Cut} (hc : c.Cuts source found)
    (hd : d.Cuts source found) : c = d := by
  obtain ⟨hstretches, htail⟩ := hc.aligned.unique hd.aligned (hc.found_eq.trans hd.found_eq.symm)
    (hc.text_eq.trans hd.text_eq.symm)
  obtain ⟨stretches, tail⟩ := c
  obtain rfl : stretches = d.stretches := hstretches
  obtain rfl : tail = d.tail := htail
  rfl

theorem Cuts.placed {c : Cut} {source : Text} {found : List Occurrence} (h : c.Cuts source found) {l r : List Stretch}
    {s : Stretch} (hs : c.stretches = l ++ s :: r) :
    s.found.Placed source ((l.flatMap fun s => s.gap ++ s.span) ++ s.gap) s.span
      ((r.flatMap fun s => s.gap ++ s.span) ++ c.tail) := by
  have haligned := h.aligned
  rw [hs] at haligned
  obtain ⟨-, hoffset, hlength, -⟩ := aligned_append haligned
  refine ⟨?_, ?_, hlength⟩
  · rw [← h.text_eq, text, textWith, hs]
    simp
  · rw [hoffset]
    simp

theorem Aligned.stop_le {start : Nat} {l : List Stretch} (h : Aligned start l) :
    ∀ s ∈ l, s.found.stop ≤ ↑(start + (l.flatMap fun s => s.gap ++ s.span).length) := by
  induction l generalizing start with
  | nil => simp
  | cons a l ih =>
    obtain ⟨hoffset, hlength, hrest⟩ := h
    intro s hs
    rw [List.flatMap_cons, List.length_append, List.length_append]
    rcases List.mem_cons.mp hs with rfl | hs
    · rw [Occurrence.stop, hoffset, hlength]
      omega
    · have := ih hrest s hs
      omega

theorem Aligned.start_le {start : Nat} {l : List Stretch} (h : Aligned start l) :
    ∀ s ∈ l, (start : Int) ≤ s.found.offset := by
  induction l generalizing start with
  | nil => simp
  | cons a l ih =>
    obtain ⟨hoffset, -, hrest⟩ := h
    intro s hs
    rcases List.mem_cons.mp hs with rfl | hs
    · rw [hoffset]
      omega
    · have := ih hrest s hs
      omega

/-- A literal stands in the text, apart from every occurrence of the cut. -/
theorem Cuts.exists_of_literal_mem {c : Cut} {source : Text} {found : List Occurrence} (h : c.Cuts source found)
    {t : Text} (ht : .literal t ∈ c.segments) :
    ∃ before after, source = before ++ t ++ after ∧
      ∀ o ∈ found, o.stop ≤ before.length ∨ ↑(before.length + t.length) ≤ o.offset := by
  rw [Cut.segments, List.mem_append, List.mem_flatMap] at ht
  rcases ht with ⟨s, hs, ht⟩ | ht
  · obtain rfl : t = s.gap := by simpa using ht
    obtain ⟨l, r, hsplit⟩ := List.append_of_mem hs
    have haligned := h.aligned
    rw [hsplit] at haligned
    obtain ⟨hl, hoffset, -, hr⟩ := aligned_append haligned
    refine ⟨l.flatMap (fun s => s.gap ++ s.span), s.span ++ (r.flatMap (fun s => s.gap ++ s.span) ++ c.tail), ?_, ?_⟩
    · rw [← h.text_eq, text, textWith, hsplit]
      simp
    · intro o ho
      rw [← h.found_eq, hsplit] at ho
      simp only [List.map_append, List.map_cons, List.mem_append, List.mem_cons, List.mem_map] at ho
      rcases ho with ⟨a, ha, rfl⟩ | rfl | ⟨b, hb, rfl⟩
      · have := hl.stop_le a ha
        left
        omega
      · right
        omega
      · have := hr.start_le b hb
        right
        omega
  · obtain rfl : t = c.tail := by simpa using ht
    refine ⟨c.stretches.flatMap (fun s => s.gap ++ s.span), [], ?_, ?_⟩
    · rw [← h.text_eq, text, textWith, List.append_nil]
    · intro o ho
      rw [← h.found_eq] at ho
      obtain ⟨a, ha, rfl⟩ := List.mem_map.mp ho
      have := h.aligned.stop_le a ha
      left
      omega

theorem parts_segments (c : Cut) : parts c.segments = c.stretches.map (·.found.part) := by
  obtain ⟨stretches, tail⟩ := c
  rw [segments, parts_append, parts_literal, parts_nil, List.append_nil]
  induction stretches with
  | nil => rfl
  | cons s stretches ih => rw [List.flatMap_cons, parts_append, ih, parts_literal, parts_part, List.map_cons]; rfl

/-! ## The cut at the kept occurrences -/

theorem slice_append (a m b : Text) :
    Text.slice (a ++ m ++ b).toArray a.length ↑(a.length + m.length) = m := by
  have h1 : Text.place (a ++ m ++ b).length a.length = a.length := by
    unfold Text.place
    rw [if_neg (by omega)]
    simp
  have h2 : Text.place (a ++ m ++ b).length ↑(a.length + m.length) = a.length + m.length := by
    unfold Text.place
    rw [if_neg (by omega)]
    simp
    omega
  rw [Text.slice_toArray, h1, h2, ← List.length_append, List.take_left, List.drop_left]

/-- The stretches of a text from `taken` on, cut at the occurrences that are kept of those yet to be judged. -/
theorem exists_stretches (source : Text) (l : List Occurrence) (taken : Nat) (htaken : taken ≤ source.length)
    (hl : ∀ o ∈ l, ∃ before span after, o.Placed source before span after) :
    ∃ stretches tail, stretches.map Stretch.found = Layout.kept (scan Layout.judge taken l) ∧
      source.drop taken = stretches.flatMap (fun s => s.gap ++ s.span) ++ tail ∧ Aligned taken stretches ∧
      (scan Layout.judge taken l).flatMap (Layout.segmentsOf source.toArray) =
        stretches.flatMap (fun s => [.literal s.gap, .part s.found.part]) ∧
      ∃ before, source = before ++ tail ∧
        (((Layout.kept (scan Layout.judge taken l)).getLast?.map Occurrence.stop).getD taken) = before.length := by
  induction l generalizing taken with
  | nil =>
    refine ⟨[], source.drop taken, rfl, by simp, trivial, rfl, source.take taken, by simp, ?_⟩
    simp
    omega
  | cons o l ih =>
    have hl' : ∀ o ∈ l, ∃ before span after, o.Placed source before span after :=
      fun o ho => hl o (List.mem_cons_of_mem _ ho)
    rw [Layout.scan_judge_cons]
    split
    · exact ih taken htaken hl'
    · rename_i hlt
      obtain ⟨before, span, after, hp⟩ := hl o (by simp)
      have hsource := hp.source_eq
      have hoffset := hp.offset_eq
      have hstop := hp.stop_eq
      have htake : taken ≤ before.length := by omega
      obtain ⟨stretches, tail, hfound, htext, haligned, hsegments, hlast⟩ :=
        ih (before.length + span.length) (by rw [hsource]; simp) hl'
      rw [hstop]
      have hdrop : source.drop (before.length + span.length) = after := by
        rw [hsource, ← List.length_append, List.drop_left]
      have hbefore : before = before.take taken ++ before.drop taken := (List.take_append_drop taken before).symm
      have hlen : (before.take taken).length = taken := by simp; omega
      refine ⟨⟨before.drop taken, o, span⟩ :: stretches, tail, ?_, ?_, ?_, ?_, ?_⟩
      · rw [Layout.kept_cons_kept, List.map_cons, hfound]
      · rw [hdrop] at htext
        rw [hsource, htext, List.append_assoc, List.drop_append_of_le_length htake]
        simp
      · refine ⟨?_, hp.length_eq, ?_⟩
        · rw [hoffset]
          simp
          omega
        · rw [List.length_drop, show taken + (before.length - taken) = before.length by omega]
          exact haligned
      · have hslice : Text.slice source.toArray taken o.offset = before.drop taken := by
          have := slice_append (before.take taken) (before.drop taken) (span ++ after)
          rw [hlen, ← hbefore, ← List.append_assoc, ← hsource, List.length_drop,
            show taken + (before.length - taken) = before.length by omega] at this
          rw [hoffset, this]
        rw [List.flatMap_cons, List.flatMap_cons, hsegments, Layout.segmentsOf, hslice]
      · obtain ⟨pre, hpre, hget⟩ := hlast
        refine ⟨pre, hpre, ?_⟩
        rw [← hget, Layout.kept_cons_kept, List.getLast?_cons]
        cases (Layout.kept (scan Layout.judge ↑(before.length + span.length) l)).getLast? with
        | none => simp [hstop]
        | some k => rfl

theorem isVoid_nil (dropBlank : Bool) : Layout.isVoid dropBlank (.literal []) = true := by
  cases dropBlank <;> rfl

theorem verdicts_isEmpty_iff {occurrences : List Occurrence} :
    (Layout.verdicts occurrences).isEmpty = true ↔ occurrences = [] := by
  constructor
  · intro h
    by_contra hne
    obtain ⟨o, ho⟩ := List.exists_mem_of_ne_nil occurrences hne
    have hjudged := Layout.mem_kept_or_mem_dropped ho
    rw [List.isEmpty_iff.mp h] at hjudged
    rcases hjudged with hkept | hdropped
    · cases hkept
    · cases hdropped
  · intro h
    simp [h, Layout.verdicts, Layout.sorted]

theorem filter_remainder {source before tail : Text} {judged : List Verdict} (hs : source = before ++ tail)
    (hlast : ((Layout.kept judged).getLast?.map Occurrence.stop).getD 0 = before.length) (dropBlank : Bool) :
    (Layout.remainder source.toArray judged).filter (fun s => !Layout.isVoid dropBlank s) =
      [.literal tail].filter fun s => !Layout.isVoid dropBlank s := by
  unfold Layout.remainder
  dsimp only
  rw [hlast]
  have hsize : source.toArray.size = before.length + tail.length := by simp [hs]
  split
  · have := slice_append before tail []
    rw [List.append_nil, ← hs] at this
    rw [hsize, this]
  · have htail : tail = [] := List.eq_nil_of_length_eq_zero (by omega)
    rw [htail, List.filter_cons, isVoid_nil]
    rfl

/-- The cut at the kept occurrences. A text without any occurrence is one literal; any other text has the segments of
    its cut that are not left out. -/
theorem exists_cut {source : Text} {occurrences : List Occurrence}
    (h : ∀ o ∈ occurrences, ∃ before span after, o.Placed source before span after) :
    ∃ c : Cut, c.Cuts source (Layout.kept (Layout.verdicts occurrences)) ∧ ∀ dropBlank,
      Layout.segments source (Layout.verdicts occurrences) dropBlank =
        if occurrences = [] then [.literal source] else c.segments.filter fun s => !Layout.isVoid dropBlank s := by
  obtain ⟨stretches, tail, hfound, htext, haligned, hsegments, before, hsource, hlast⟩ :=
    exists_stretches source (Layout.sorted occurrences) 0 (Nat.zero_le _) fun o ho => h o (Layout.mem_sorted.mp ho)
  have hjudged : scan Layout.judge ((0 : Nat) : Int) (Layout.sorted occurrences) = Layout.verdicts occurrences := rfl
  rw [hjudged] at hfound hsegments hlast
  refine ⟨⟨stretches, tail⟩, ⟨htext.symm, hfound, haligned⟩, fun dropBlank => ?_⟩
  unfold Layout.segments
  by_cases he : occurrences = []
  · rw [if_pos (verdicts_isEmpty_iff.mpr he), if_pos he]
  · rw [if_neg (fun hj => he (verdicts_isEmpty_iff.mp hj)), if_neg he]
    dsimp only
    rw [List.filter_append, filter_remainder hsource hlast, ← List.filter_append]
    exact congrArg (fun l => (l ++ [Segment.literal tail]).filter fun s => !Layout.isVoid dropBlank s) hsegments

end Cut

/-! ## The segments of a text -/

theorem parts_filter_isVoid (dropBlank : Bool) (segments : List Segment) :
    parts (segments.filter fun s => !Layout.isVoid dropBlank s) = parts segments := by
  induction segments with
  | nil => rfl
  | cons s rest ih =>
    cases s with
    | literal t =>
      rw [List.filter_cons, parts_literal]
      split
      · rw [parts_literal, ih]
      · exact ih
    | part p => rw [List.filter_cons_of_pos (by rfl), parts_part, parts_part, ih]

@[simp] theorem verdicts_nil : Layout.verdicts [] = [] := by simp [Layout.verdicts, Layout.sorted]

theorem Findings.kept_of_occurrences_eq_nil {f : Findings} (h : f.occurrences = []) : f.kept = [] := by
  rw [Findings.kept, h, verdicts_nil]
  rfl

theorem Cut.Cuts.stretches_eq_nil {c : Cut} {source : Text} (h : c.Cuts source []) : c.stretches = [] :=
  List.map_eq_nil_iff.mp h.found_eq

theorem Cut.Cuts.tail_eq {c : Cut} {source : Text} (h : c.Cuts source []) : c.tail = source := by
  rw [← h.text_eq, Cut.text, Cut.textWith, h.stretches_eq_nil]
  rfl

/-- A parse depends on which kinds are asked for, and not on how they are listed. -/
theorem parse_congr {options options' : Options} (hlimit : options.limit = options'.limit)
    (hblank : options.dropBlank = options'.dropBlank) (hkinds : ∀ k, k ∈ options.kinds ↔ k ∈ options'.kinds)
    (source : Text) : parse source options = parse source options' := by
  rw [parse, parse, hlimit, hblank, findings_congr hkinds]

theorem exists_parse {source : Text} {options : Options} (h : source.length ≤ options.limit) :
    ∃ parsed, parse source options = .ok parsed := by
  unfold parse
  rw [if_neg (by omega)]
  exact ⟨_, rfl⟩

/-- The outcome of a parse as a term that evaluates: the occurrences are sorted by insertion. -/
theorem eq_of_parse {source : Text} {options : Options} {parsed : Parsed} (h : parse source options = .ok parsed) :
    let found := findings source options.kinds
    let judged := scan Layout.judge 0 (found.occurrences.insertionSort fun a b => a.offset ≤ b.offset)
    parsed = ⟨Layout.segments source judged options.dropBlank, found.notes ++ Layout.warnings judged⟩ := by
  intro found judged
  have hjudged : Layout.verdicts found.occurrences = judged := by
    rw [Layout.verdicts, Layout.sorted_eq_insertionSort]
  unfold parse at h
  split at h
  · cases h
  · rw [← Except.ok.inj h, ← hjudged]
    rfl

/-- The segments of a text are those of its cut at the kept findings. -/
theorem exists_cut_of_parse {source : Text} {options : Options} {parsed : Parsed}
    (h : parse source options = .ok parsed) :
    ∃ c : Cut, c.Cuts source (findings source options.kinds).kept ∧
      parsed.segments = if (findings source options.kinds).occurrences = [] then [.literal source]
        else c.segments.filter fun s => !Layout.isVoid options.dropBlank s := by
  have hplaced : ∀ o ∈ (findings source options.kinds).occurrences,
      ∃ before span after, o.Placed source before span after := by
    intro o ho
    obtain ⟨before, span, after, hplaced, -⟩ := exists_of_mem_findings ho
    exact ⟨before, span, after, hplaced⟩
  obtain ⟨c, hc, hsegments⟩ := Cut.exists_cut hplaced
  unfold parse at h
  split at h
  · cases h
  · obtain rfl := Except.ok.inj h
    exact ⟨c, hc, hsegments options.dropBlank⟩

theorem parts_of_parse {source : Text} {options : Options} {parsed : Parsed} (h : parse source options = .ok parsed) :
    parts parsed.segments = (findings source options.kinds).kept.map Occurrence.part := by
  obtain ⟨c, hc, hsegments⟩ := exists_cut_of_parse h
  rw [hsegments]
  split
  · rename_i hnone
    rw [Findings.kept_of_occurrences_eq_nil hnone]
    rfl
  · rw [parts_filter_isVoid, Cut.parts_segments, ← hc.found_eq, List.map_map]
    rfl

end Stylesheet
