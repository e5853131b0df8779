/-
  Stylesheet.Proofs.Precedence — who comes first, and what that decides.

  Occurrences are judged in the order of their offsets, those at one offset in the order in which they came
  (`stablySorted_sorted`); nothing else of the order in which they came counts (`sorted_congr`). One that is judged is
  dropped just where something kept before it ends after its start (`kept?_eq_none_iff`). What is kept is settled by who
  precedes whom: there is only one choice of occurrences that are apart and of which one covers the start of each other
  occurrence it precedes (`Choice.unique`), and the kept ones are such a choice (`choice_kept`).
-/

import Stylesheet.Proofs.Layout

namespace Stylesheet.Layout

/-! ## The order of judgement is stable -/

/-- The same occurrences in the order of their offsets, those at one offset in the order in which they came. -/
structure StablySorted (l occurrences : List Occurrence) : Prop where
  perm : l.Perm occurrences
  pairwise : l.Pairwise fun a b => a.offset ≤ b.offset
  filter_eq : ∀ n, l.filter (fun o => o.offset = n) = occurrences.filter fun o => o.offset = n

theorem filter_sorted (occurrences : List Occurrence) (n : Int) :
    ((sorted occurrences).filter fun o => o.offset = n) = occurrences.filter fun o => o.offset = n := by
  have hperm : (sorted occurrences).Perm occurrences := List.mergeSort_perm _ _
  have hpairwise : (occurrences.filter fun o => o.offset = n).Pairwise
      fun a b => decide (a.offset ≤ b.offset) = true := by
    refine List.pairwise_of_forall_mem_list fun a ha b hb => ?_
    have := of_decide_eq_true (List.mem_filter.mp ha).2
    have := of_decide_eq_true (List.mem_filter.mp hb).2
    exact decide_eq_true (by omega)
  have hsub : (occurrences.filter fun o => o.offset = n).Sublist (sorted occurrences) :=
    List.sublist_mergeSort (fun a b c hab hbc => by simp only [decide_eq_true_eq] at *; omega)
      (fun a b => by simp only [Bool.or_eq_true, decide_eq_true_eq]; omega) hpairwise List.filter_sublist
  have := hsub.filter fun o => decide (o.offset = n)
  rw [List.filter_filter] at this
  simp only [Bool.and_self] at this
  exact (this.eq_of_length (hperm.filter _).length_eq.symm).symm

theorem stablySorted_sorted (occurrences : List Occurrence) : StablySorted (sorted occurrences) occurrences :=
  ⟨List.mergeSort_perm _ _, pairwise_sorted occurrences, filter_sorted occurrences⟩

theorem mem_iff_of_filter_eq {l m : List Occurrence}
    (h : ∀ n, (l.filter fun o => o.offset = n) = m.filter fun o => o.offset = n) (o : Occurrence) : o ∈ l ↔ o ∈ m := by
  have := congrArg (o ∈ ·) (h o.offset)
  simpa using this

/-- Lists in the order of offsets are the same if they have the same occurrences at each offset. -/
theorem eq_of_filter_eq {l m : List Occurrence} (hl : l.Pairwise fun a b => a.offset ≤ b.offset)
    (hm : m.Pairwise fun a b => a.offset ≤ b.offset)
    (h : ∀ n, (l.filter fun o => o.offset = n) = m.filter fun o => o.offset = n) : l = m := by
  induction l generalizing m with
  | nil =>
    cases m with
    | nil => rfl
    | cons b m => exact absurd ((mem_iff_of_filter_eq h b).mpr (by simp)) (by simp)
  | cons a l ih =>
    cases m with
    | nil => exact absurd ((mem_iff_of_filter_eq h a).mp (by simp)) (by simp)
    | cons b m =>
      obtain ⟨ha, hl'⟩ := List.pairwise_cons.mp hl
      obtain ⟨hb, hm'⟩ := List.pairwise_cons.mp hm
      -- both lists start at the least offset there is, with the first occurrence at it
      have hoffset : a.offset = b.offset := by
        have hab : b.offset ≤ a.offset := by
          rcases List.mem_cons.mp ((mem_iff_of_filter_eq h a).mp (by simp)) with rfl | hmem
          · omega
          · exact hb a hmem
        have hba : a.offset ≤ b.offset := by
          rcases List.mem_cons.mp ((mem_iff_of_filter_eq h b).mpr (by simp)) with rfl | hmem
          · omega
          · exact ha b hmem
        omega
      obtain rfl : a = b := by
        have := h a.offset
        rw [List.filter_cons_of_pos (by simp), List.filter_cons_of_pos (by simpa using hoffset.symm)] at this
        exact (List.cons.inj this).1
      have hrest : ∀ n, (l.filter fun o => o.offset = n) = m.filter fun o => o.offset = n := by
        intro n
        have := h n
        rw [List.filter_cons, List.filter_cons] at this
        split at this
        · exact (List.cons.inj this).2
        · exact this
      rw [ih hl' hm' hrest]

/-- Of the order in which occurrences come, only that of those at one offset counts. -/
theorem sorted_congr {l m : List Occurrence}
    (h : ∀ n, (l.filter fun o => o.offset = n) = m.filter fun o => o.offset = n) : sorted l = sorted m :=
  eq_of_filter_eq (pairwise_sorted l) (pairwise_sorted m) fun n => by rw [filter_sorted, filter_sorted, h]

/-- What holds of two occurrences at one offset in the order in which they came holds of them in that of judgement. -/
theorem pairwise_sorted_of {R : Occurrence → Occurrence → Prop} {occurrences : List Occurrence}
    (h : occurrences.Pairwise fun a b => a.offset = b.offset → R a b) :
    (sorted occurrences).Pairwise fun a b => a.offset < b.offset ∨ (a.offset = b.offset ∧ R a b) := by
  rw [List.pairwise_iff_forall_sublist] at h ⊢
  intro a b hab
  have hle := List.pairwise_iff_forall_sublist.mp (pairwise_sorted occurrences) hab
  by_cases heq : a.offset = b.offset
  · have hfilter := hab.filter fun o => decide (o.offset = b.offset)
    rw [filter_sorted, List.filter_cons_of_pos (by simpa using heq), List.filter_cons_of_pos (by simp),
      List.filter_nil] at hfilter
    exact Or.inr ⟨heq, h (hfilter.trans List.filter_sublist) heq⟩
  · left
    omega

/-! ## Who is dropped -/

/-- An occurrence is dropped just where something kept before it, or what was taken at first, ends after its start. -/
theorem kept?_eq_none_iff {taken : Int} {l : List Occurrence} (hl : ∀ o ∈ l, o.offset ≤ o.stop)
    {done rest : List Verdict} {v : Verdict} (h : scan judge taken l = done ++ v :: rest) :
    v.kept? = none ↔ v.occurrence.offset < taken ∨ ∃ k ∈ kept done, v.occurrence.offset < k.stop := by
  induction l generalizing taken done with
  | nil => simp at h
  | cons o l ih =>
    have hl' : ∀ o ∈ l, o.offset ≤ o.stop := fun o ho => hl o (List.mem_cons_of_mem _ ho)
    rw [scan_judge_cons] at h
    cases done with
    | nil =>
      rw [List.nil_append] at h
      split at h
      · rename_i hlt
        obtain ⟨rfl, -⟩ := List.cons.inj h
        simp [Verdict.kept?, Verdict.occurrence, hlt]
      · rename_i hlt
        obtain ⟨rfl, -⟩ := List.cons.inj h
        simp [Verdict.kept?, Verdict.occurrence]
        omega
    | cons w done =>
      rw [List.cons_append] at h
      split at h
      · obtain ⟨rfl, hrest⟩ := List.cons.inj h
        rw [kept_cons_dropped]
        exact ih hl' hrest
      · rename_i hge
        obtain ⟨rfl, hrest⟩ := List.cons.inj h
        have hstop := hl o (by simp)
        rw [kept_cons_kept, ih hl' hrest]
        constructor
        · intro hdropped
          rcases hdropped with hlt | ⟨k, hk, hlt⟩
          · exact Or.inr ⟨o, by simp, hlt⟩
          · exact Or.inr ⟨k, List.mem_cons_of_mem _ hk, hlt⟩
        · intro hdropped
          rcases hdropped with hlt | ⟨k, hk, hlt⟩
          · left
            omega
          · rcases List.mem_cons.mp hk with rfl | hk
            · exact Or.inl hlt
            · exact Or.inr ⟨k, hk, hlt⟩

/-- Verdicts on some occurrences: they are judged in the order of their offsets, those at one offset in the order in
    which they came, each is kept or dropped, and it is dropped just where one kept before it ends after its start. -/
structure FirstWins (judged : List Verdict) (occurrences : List Occurrence) : Prop where
  sorted : StablySorted (judged.map Verdict.occurrence) occurrences
  kept_sublist : (kept judged).Sublist (judged.map Verdict.occurrence)
  dropped_sublist : (dropped judged).Sublist (judged.map Verdict.occurrence)
  perm : (kept judged ++ dropped judged).Perm occurrences
  dropped_iff : ∀ done v rest, judged = done ++ v :: rest →
    (v.kept? = none ↔ ∃ k ∈ kept done, v.occurrence.offset < k.stop)

theorem firstWins_verdicts {occurrences : List Occurrence} (h : ∀ o ∈ occurrences, 0 ≤ o.offset ∧ o.offset ≤ o.stop) :
    FirstWins (verdicts occurrences) occurrences := by
  have hmap : (verdicts occurrences).map Verdict.occurrence = Layout.sorted occurrences := map_occurrence_scan 0 _
  have hsorted : StablySorted ((verdicts occurrences).map Verdict.occurrence) occurrences := by
    rw [hmap]
    exact stablySorted_sorted occurrences
  refine ⟨hsorted, kept_sublist _, dropped_sublist _, (perm_kept_dropped _).trans hsorted.perm,
    fun done v rest hjudged => ?_⟩
  have hv : v.occurrence ∈ occurrences :=
    hsorted.perm.mem_iff.mp (List.mem_map_of_mem (by rw [hjudged]; simp))
  have hoffset := (h _ hv).1
  rw [kept?_eq_none_iff (fun o ho => (h o (mem_sorted.mp ho)).2) hjudged]
  constructor
  · intro hdropped
    rcases hdropped with hlt | hk
    · omega
    · exact hk
  · exact Or.inr

theorem ordered_of_pairwise {start : Int} {l : List Occurrence} (hstart : ∀ o ∈ l, start ≤ o.offset)
    (h : l.Pairwise fun a b => a.stop ≤ b.offset) : Ordered start l := by
  induction l generalizing start with
  | nil => trivial
  | cons o l ih =>
    obtain ⟨ho, hl⟩ := List.pairwise_cons.mp h
    exact ⟨hstart o (by simp), ih ho hl⟩

theorem scan_judge_of_ordered {taken : Int} {l : List Occurrence} (h : Ordered taken l) :
    kept (scan judge taken l) = l ∧ dropped (scan judge taken l) = [] := by
  induction l generalizing taken with
  | nil => exact ⟨rfl, rfl⟩
  | cons o l ih =>
    obtain ⟨hkept, hdropped⟩ := ih h.2
    rw [scan_judge_cons, if_neg (by have := h.1; omega), kept_cons_kept, dropped_cons_kept, hkept, hdropped]
    exact ⟨rfl, rfl⟩

end Stylesheet.Layout

namespace Stylesheet

/-! ## Who is kept -/

def Occurrence.Precedes (a b : Occurrence) : Prop :=
  a.offset < b.offset ∨ (a.offset = b.offset ∧ a.part.kind.code < b.part.kind.code)

theorem Occurrence.Precedes.shift {a b : Occurrence} (h : a.Precedes b) (d : Int) :
    (a.shift d).Precedes (b.shift d) := by
  unfold Occurrence.Precedes at h ⊢
  simp only [shift_offset, shift_part]
  omega

/-- Occurrences that are apart and leave no other one free: each of those starts inside a chosen one before it. -/
structure Choice (chosen occurrences : List Occurrence) : Prop where
  mem : ∀ o ∈ chosen, o ∈ occurrences
  apart : chosen.Pairwise fun a b => a.stop ≤ b.offset
  covered : ∀ o ∈ occurrences, o ∈ chosen ∨ ∃ k ∈ chosen, k.Precedes o ∧ o.offset < k.stop

theorem eq_or_of_pairwise {α : Type} {R : α → α → Prop} {l : List α} (h : l.Pairwise R) {a b : α} (ha : a ∈ l)
    (hb : b ∈ l) : a = b ∨ R a b ∨ R b a := by
  induction h with
  | nil => cases ha
  | cons hrel _ ih =>
    rcases List.mem_cons.mp ha with rfl | ha'
    · rcases List.mem_cons.mp hb with rfl | hb'
      · exact Or.inl rfl
      · exact Or.inr (Or.inl (hrel b hb'))
    · rcases List.mem_cons.mp hb with rfl | hb'
      · exact Or.inr (Or.inr (hrel a ha'))
      · exact ih ha' hb'

section

variable {l m occurrences : List Occurrence}

/-- If two choices agree on all that precedes an occurrence, what the one has the other has. -/
theorem Choice.mem_of_mem (hl : Choice l occurrences) (hm : Choice m occurrences) {o : Occurrence} (ho : o ∈ l)
    (hpos : o.offset < o.stop) (hbefore : ∀ k, k.Precedes o → k ∈ m → k ∈ l) : o ∈ m := by
  rcases hm.covered o (hl.mem o ho) with hmem | ⟨k, hk, hprecedes, hlt⟩
  · exact hmem
  · exfalso
    have hk' := hbefore k hprecedes hk
    unfold Occurrence.Precedes at hprecedes
    rcases eq_or_of_pairwise hl.apart hk' ho with rfl | h | h
    · omega
    · omega
    · omega

/-- There is one choice only. -/
theorem Choice.unique (hpos : ∀ o ∈ occurrences, 0 ≤ o.offset ∧ o.offset < o.stop) (hl : Choice l occurrences)
    (hm : Choice m occurrences) : l = m := by
  have code_le : ∀ k : Kind, k.code < 5 := by
    intro k
    cases k <;> decide
  have mem_iff : ∀ o ∈ occurrences, o ∈ l ↔ o ∈ m := by
    intro o ho
    induction hn : 5 * o.offset.toNat + o.part.kind.code using Nat.strongRecOn generalizing o with
    | ind n ih =>
      have before : ∀ k, k.Precedes o → k ∈ occurrences → (k ∈ l ↔ k ∈ m) := by
        intro k hk hmem
        have hkpos := hpos k hmem
        have hopos := hpos o ho
        have hcode := code_le k.part.kind
        refine ih _ ?_ k hmem rfl
        rcases hk with hk | hk <;> omega
      exact ⟨fun h => hl.mem_of_mem hm h (hpos o ho).2 fun k hk hmem => (before k hk (hm.mem k hmem)).mpr hmem,
        fun h => hm.mem_of_mem hl h (hpos o ho).2 fun k hk hmem => (before k hk (hl.mem k hmem)).mp hmem⟩
  have increasing : ∀ {x : List Occurrence}, Choice x occurrences → x.Pairwise fun a b => a.offset < b.offset := by
    intro x hx
    refine hx.apart.imp_of_mem fun {a b} ha _ hab => ?_
    have := hpos a (hx.mem a ha)
    omega
  have nodup : ∀ {x : List Occurrence}, Choice x occurrences → x.Nodup := by
    intro x hx
    refine (increasing hx).imp ?_
    rintro a b hab rfl
    omega
  have hperm : l.Perm m := by
    refine (List.perm_ext_iff_of_nodup (nodup hl) (nodup hm)).mpr fun o => ?_
    constructor
    · intro h
      exact (mem_iff o (hl.mem o h)).mp h
    · intro h
      exact (mem_iff o (hm.mem o h)).mpr h
  exact hperm.eq_of_pairwise (fun a b _ _ hab hba => by omega) (increasing hl) (increasing hm)

/-- What ends before a chosen occurrence is chosen, or covered by what is chosen before that one. -/
theorem Choice.covered_left {r : List Occurrence} {o f : Occurrence} (h : Choice (l ++ o :: r) occurrences)
    (hpos : ∀ f ∈ occurrences, f.offset < f.stop) (hf : f ∈ occurrences) (hle : f.stop ≤ o.offset) :
    f ∈ l ∨ ∃ k ∈ l, k.Precedes f ∧ f.offset < k.stop := by
  have hfpos := hpos f hf
  have hopos := hpos o (h.mem o (by simp))
  have hlater : ∀ k ∈ o :: r, o.offset ≤ k.offset := by
    intro k hk
    rcases List.mem_cons.mp hk with rfl | hk
    · exact Int.le_refl _
    · have := (List.pairwise_cons.mp (List.pairwise_append.mp h.apart).2.1).1 k hk
      omega
  rcases h.covered f hf with hk | ⟨k, hk, hprecedes, hlt⟩
  · rcases List.mem_append.mp hk with hk | hk
    · exact Or.inl hk
    · have := hlater f hk
      omega
  · rcases List.mem_append.mp hk with hk | hk
    · exact Or.inr ⟨k, hk, hprecedes, hlt⟩
    · have := hlater k hk
      unfold Occurrence.Precedes at hprecedes
      omega

/-- What starts after a chosen occurrence is chosen, or covered by what is chosen after that one. -/
theorem Choice.covered_right {r : List Occurrence} {o f : Occurrence} (h : Choice (l ++ o :: r) occurrences)
    (hpos : ∀ f ∈ occurrences, f.offset < f.stop) (hf : f ∈ occurrences) (hle : o.stop ≤ f.offset) :
    f ∈ r ∨ ∃ k ∈ r, k.Precedes f ∧ f.offset < k.stop := by
  have hfpos := hpos f hf
  have hopos := hpos o (h.mem o (by simp))
  have hearlier : ∀ k ∈ l, k.stop ≤ o.offset := fun k hk => (List.pairwise_append.mp h.apart).2.2 k hk o (by simp)
  rcases h.covered f hf with hk | ⟨k, hk, hprecedes, hlt⟩
  · rcases List.mem_append.mp hk with hk | hk
    · have := hearlier f hk
      omega
    rcases List.mem_cons.mp hk with rfl | hk
    · omega
    · exact Or.inl hk
  · rcases List.mem_append.mp hk with hk | hk
    · have := hearlier k hk
      omega
    rcases List.mem_cons.mp hk with rfl | hk
    · omega
    · exact Or.inr ⟨k, hk, hprecedes, hlt⟩

/-- What is kept is the choice there is, if those at one offset come kind by kind. -/
theorem choice_kept (hpos : ∀ o ∈ occurrences, 0 ≤ o.offset ∧ o.offset < o.stop)
    (horder : occurrences.Pairwise fun a b => a.offset = b.offset → a.part.kind.code < b.part.kind.code) :
    Choice (Layout.kept (Layout.verdicts occurrences)) occurrences := by
  refine ⟨fun o ho => Layout.mem_of_mem_kept ho, ?_, fun o ho => ?_⟩
  · exact Layout.pairwise_kept fun o ho => by have := hpos o ho; omega
  · have hsorted := Layout.pairwise_sorted_of horder
    rcases @Layout.scan_judge_kept_or_overlapped _ 0 _ hsorted o (Layout.mem_sorted.mpr ho) with h | h | h
    · exact Or.inl h
    · have := hpos o ho
      omega
    · exact Or.inr h

end

end Stylesheet
