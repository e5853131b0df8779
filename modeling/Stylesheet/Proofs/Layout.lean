/-
  Stylesheet.Proofs.Layout — which occurrences are kept.

  The kept occurrences follow one another without overlap (`ordered_kept`, `pairwise_kept`). An occurrence that is not
  kept starts inside one that is (`kept_or_overlapped`), and every occurrence is either kept or dropped
  (`perm_kept_dropped`).
-/

import Stylesheet.Layout
import Stylesheet.Proofs.Occurrence.Span

namespace Stylesheet

def Verdict.occurrence : Verdict → Occurrence
  | .kept o _ => o
  | .dropped o _ => o

namespace Layout

/-! ## The order of judgement -/

theorem mem_sorted {occurrences : List Occurrence} {o : Occurrence} : o ∈ sorted occurrences ↔ o ∈ occurrences :=
  List.mem_mergeSort

theorem pairwise_sorted (occurrences : List Occurrence) :
    (sorted occurrences).Pairwise fun a b => a.offset ≤ b.offset := by
  have h := @List.pairwise_mergeSort Occurrence (fun a b => decide (a.offset ≤ b.offset))
    (fun a b c hab hbc => by simp only [decide_eq_true_eq] at *; omega)
    (fun a b => by simp only [Bool.or_eq_true, decide_eq_true_eq]; omega) occurrences
  exact h.imp fun h => by simpa using h

/-- The first occurrence goes before those that start where it does or later. -/
theorem sorted_eq_insertionSort (occurrences : List Occurrence) :
    sorted occurrences = occurrences.insertionSort fun a b => a.offset ≤ b.offset := by
  induction occurrences with
  | nil => simp [sorted]
  | cons o rest ih =>
    obtain ⟨l, r, hcons, hrest, hl⟩ := @List.mergeSort_cons Occurrence (fun a b => decide (a.offset ≤ b.offset))
      (fun a b c hab hbc => by simp only [decide_eq_true_eq] at *; omega)
      (fun a b => by simp only [Bool.or_eq_true, decide_eq_true_eq]; omega) o rest
    have hr : ∀ b ∈ r, o.offset ≤ b.offset := by
      have hsorted := pairwise_sorted (o :: rest)
      rw [sorted, hcons, List.pairwise_append, List.pairwise_cons] at hsorted
      exact hsorted.2.1.1
    have htake : (l ++ r).takeWhile (fun b => decide ¬ o.offset ≤ b.offset) = l := by
      rw [List.takeWhile_append_of_pos fun b hb => by simpa using hl b hb]
      cases r with
      | nil => simp
      | cons b r =>
        have := hr b (by simp)
        simp [this]
    have hdrop : (l ++ r).dropWhile (fun b => decide ¬ o.offset ≤ b.offset) = r := by
      have happend := List.takeWhile_append_dropWhile (p := fun b => decide ¬ o.offset ≤ b.offset) (l := l ++ r)
      rw [htake] at happend
      exact List.append_cancel_left happend
    have hmerge : sorted rest = l ++ r := hrest
    rw [List.insertionSort_cons, ← ih, hmerge, List.orderedInsert_eq_take_drop, htake, hdrop, sorted, hcons]

theorem scan_judge_cons (taken : Int) (o : Occurrence) (rest : List Occurrence) :
    scan judge taken (o :: rest) =
      if o.offset < taken then .dropped o taken :: scan judge taken rest
      else .kept o taken :: scan judge o.stop rest := by
  rw [scan_cons, judge]
  split <;> rfl

@[simp] theorem kept_nil : kept [] = [] := rfl

@[simp] theorem kept_cons_kept (o : Occurrence) (start : Int) (judged : List Verdict) :
    kept (.kept o start :: judged) = o :: kept judged := rfl

@[simp] theorem kept_cons_dropped (o : Occurrence) (taken : Int) (judged : List Verdict) :
    kept (.dropped o taken :: judged) = kept judged := rfl

@[simp] theorem dropped_nil : dropped [] = [] := rfl

@[simp] theorem dropped_cons_kept (o : Occurrence) (start : Int) (judged : List Verdict) :
    dropped (.kept o start :: judged) = dropped judged := rfl

@[simp] theorem dropped_cons_dropped (o : Occurrence) (taken : Int) (judged : List Verdict) :
    dropped (.dropped o taken :: judged) = o :: dropped judged := rfl

/-! ## Kept or dropped -/

theorem map_occurrence_scan (taken : Int) (l : List Occurrence) :
    (scan judge taken l).map Verdict.occurrence = l := by
  induction l generalizing taken with
  | nil => rfl
  | cons o l ih =>
    rw [scan_judge_cons]
    split
    · rw [List.map_cons, ih]
      rfl
    · rw [List.map_cons, ih]
      rfl

theorem kept_sublist (judged : List Verdict) : (kept judged).Sublist (judged.map Verdict.occurrence) := by
  induction judged with
  | nil => exact List.Sublist.refl []
  | cons v judged ih =>
    cases v with
    | kept o start => exact ih.cons_cons o
    | dropped o taken => exact ih.cons o

theorem dropped_sublist (judged : List Verdict) : (dropped judged).Sublist (judged.map Verdict.occurrence) := by
  induction judged with
  | nil => exact List.Sublist.refl []
  | cons v judged ih =>
    cases v with
    | kept o start => exact ih.cons o
    | dropped o taken => exact ih.cons_cons o

theorem perm_kept_dropped (judged : List Verdict) :
    (kept judged ++ dropped judged).Perm (judged.map Verdict.occurrence) := by
  induction judged with
  | nil => exact List.Perm.refl []
  | cons v judged ih =>
    cases v with
    | kept o start => exact ih.cons o
    | dropped o taken => exact List.perm_middle.trans (ih.cons o)

theorem mem_kept_or_mem_dropped_iff {taken : Int} {l : List Occurrence} {o : Occurrence} :
    o ∈ kept (scan judge taken l) ∨ o ∈ dropped (scan judge taken l) ↔ o ∈ l := by
  rw [← List.mem_append, (perm_kept_dropped _).mem_iff, map_occurrence_scan]

/-- From `start` on, every occurrence starts at or after the end of the one before it. -/
def Ordered : Int → List Occurrence → Prop
  | _, [] => True
  | start, o :: rest => start ≤ o.offset ∧ Ordered o.stop rest

theorem ordered_kept (taken : Int) (l : List Occurrence) : Ordered taken (kept (scan judge taken l)) := by
  induction l generalizing taken with
  | nil => trivial
  | cons o l ih =>
    rw [scan_judge_cons]
    split
    · exact ih taken
    · rename_i h
      exact ⟨by omega, ih o.stop⟩

theorem Ordered.start_le {start : Int} {l : List Occurrence} (h : Ordered start l)
    (hl : ∀ o ∈ l, o.offset ≤ o.stop) : ∀ o ∈ l, start ≤ o.offset := by
  induction l generalizing start with
  | nil => simp
  | cons a l ih =>
    intro o ho
    rcases List.mem_cons.mp ho with rfl | ho
    · exact h.1
    · have h1 := ih h.2 (fun b hb => hl b (List.mem_cons_of_mem _ hb)) o ho
      have h2 := hl a (by simp)
      have h3 := h.1
      omega

theorem Ordered.pairwise {start : Int} {l : List Occurrence} (h : Ordered start l)
    (hl : ∀ o ∈ l, o.offset ≤ o.stop) : l.Pairwise fun a b => a.stop ≤ b.offset := by
  induction l generalizing start with
  | nil => exact List.Pairwise.nil
  | cons a l ih =>
    have hl' : ∀ o ∈ l, o.offset ≤ o.stop := fun o ho => hl o (List.mem_cons_of_mem _ ho)
    exact List.pairwise_cons.mpr ⟨h.2.start_le hl', ih h.2 hl'⟩

theorem mem_of_mem_kept {occurrences : List Occurrence} {o : Occurrence} (h : o ∈ kept (verdicts occurrences)) :
    o ∈ occurrences :=
  mem_sorted.mp (mem_kept_or_mem_dropped_iff.mp (Or.inl h))

theorem mem_kept_or_mem_dropped {occurrences : List Occurrence} {o : Occurrence} (h : o ∈ occurrences) :
    o ∈ kept (verdicts occurrences) ∨ o ∈ dropped (verdicts occurrences) :=
  mem_kept_or_mem_dropped_iff.mpr (mem_sorted.mpr h)

/-- No two kept occurrences overlap, and they come in the order of their offsets. -/
theorem pairwise_kept {occurrences : List Occurrence} (h : ∀ o ∈ occurrences, o.offset ≤ o.stop) :
    (kept (verdicts occurrences)).Pairwise fun a b => a.stop ≤ b.offset :=
  (ordered_kept 0 (sorted occurrences)).pairwise fun o ho => h o (mem_of_mem_kept ho)

theorem scan_judge_kept_or_overlapped {R : Occurrence → Occurrence → Prop} {taken : Int} {l : List Occurrence}
    (h : l.Pairwise R) {o : Occurrence} (ho : o ∈ l) :
    o ∈ kept (scan judge taken l) ∨ o.offset < taken ∨
      ∃ k ∈ kept (scan judge taken l), R k o ∧ o.offset < k.stop := by
  induction l generalizing taken with
  | nil => cases ho
  | cons a l ih =>
    obtain ⟨hle, hl⟩ := List.pairwise_cons.mp h
    rw [scan_judge_cons]
    split
    · rename_i hlt
      rcases List.mem_cons.mp ho with rfl | ho
      · exact Or.inr (Or.inl hlt)
      · simpa using ih hl ho
    · rcases List.mem_cons.mp ho with rfl | ho
      · exact Or.inl (by simp)
      · rcases @ih a.stop hl ho with h1 | h2 | ⟨k, hk, h3⟩
        · exact Or.inl (by simp [h1])
        · exact Or.inr (Or.inr ⟨a, by simp, hle o ho, h2⟩)
        · exact Or.inr (Or.inr ⟨k, by simp [hk], h3⟩)

/-- An occurrence is kept, or it starts inside one that is. -/
theorem kept_or_overlapped {occurrences : List Occurrence} {o : Occurrence} (ho : o ∈ occurrences)
    (h0 : 0 ≤ o.offset) :
    o ∈ kept (verdicts occurrences) ∨
      ∃ k ∈ kept (verdicts occurrences), k.offset ≤ o.offset ∧ o.offset < k.stop := by
  rcases @scan_judge_kept_or_overlapped _ 0 _ (pairwise_sorted occurrences) o (mem_sorted.mpr ho) with h | h | h
  · exact Or.inl h
  · omega
  · exact Or.inr h

end Layout

end Stylesheet
