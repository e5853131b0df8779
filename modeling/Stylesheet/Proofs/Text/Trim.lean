/-
  Stylesheet.Proofs.Text.Trim — what is left of a text without the blanks at its ends.

  `exists_trim` parts a text into its blanks and its trimmed text, and `trim_eq` says that there is no other way to do
  so; the other lemmas follow from these two.
-/

import Stylesheet.Proofs.Text.Letters

namespace Stylesheet.Text

structure Trimmed (t : Text) : Prop where
  head : ∀ c ∈ t.head?, isBlank c = false
  last : ∀ c ∈ t.getLast?, isBlank c = false

theorem allBlank_iff {t : Text} : allBlank t = true ↔ ∀ c ∈ t, isBlank c = true := List.all_eq_true

@[simp] theorem allBlank_nil : allBlank [] = true := rfl

@[simp] theorem allBlank_append (a b : Text) : allBlank (a ++ b) = (allBlank a && allBlank b) := List.all_append

theorem allBlank_takeWhile (t : Text) : allBlank (t.takeWhile isBlank) = true :=
  List.all_takeWhile

theorem allBlank_eq_of_lower_eq {a b : Text} (h : lower a = lower b) : allBlank a = allBlank b := by
  induction a generalizing b with
  | nil =>
    cases b with
    | nil => rfl
    | cons d b => cases h
  | cons c a ih =>
    cases b with
    | nil => cases h
    | cons d b =>
      obtain ⟨hc, ht⟩ := List.cons.inj h
      simp only [allBlank, List.all_cons] at ih ⊢
      rw [isBlank_eq_of_toLower_eq hc, ih ht]

/-! ## One end -/

theorem takeWhile_append_of_all {p : Char → Bool} {a t : Text} (ha : a.all p = true)
    (ht : ∀ c ∈ t.head?, p c = false) : (a ++ t).takeWhile p = a := by
  rw [List.takeWhile_append_of_pos (List.all_eq_true.mp ha)]
  cases t with
  | nil => simp
  | cons c t => simp [ht c rfl]

theorem dropWhile_append_of_all {p : Char → Bool} {a t : Text} (ha : a.all p = true)
    (ht : ∀ c ∈ t.head?, p c = false) : (a ++ t).dropWhile p = t := by
  rw [List.dropWhile_append, List.dropWhile_eq_nil_iff.mpr (by simpa using ha)]
  cases t with
  | nil => rfl
  | cons c t => simp [ht c rfl]

theorem trimStart_eq {a t : Text} (ha : allBlank a = true) (ht : ∀ c ∈ t.head?, isBlank c = false) :
    trimStart (a ++ t) = t :=
  dropWhile_append_of_all ha ht

theorem trimEnd_eq {t b : Text} (hb : allBlank b = true) (ht : ∀ c ∈ t.getLast?, isBlank c = false) :
    trimEnd (t ++ b) = t := by
  rw [trimEnd, List.reverse_append, dropWhile_append_of_all (by simpa [allBlank] using hb) (by simpa using ht),
    List.reverse_reverse]

theorem head_trimStart (t : Text) : ∀ c ∈ (trimStart t).head?, isBlank c = false := by
  intro c hc
  have := List.head?_dropWhile_not isBlank t
  rw [trimStart] at hc
  rwa [Option.mem_def.mp hc] at this

theorem exists_trimEnd (t : Text) :
    ∃ b, t = trimEnd t ++ b ∧ allBlank b = true ∧ ∀ c ∈ (trimEnd t).getLast?, isBlank c = false := by
  refine ⟨(t.reverse.takeWhile isBlank).reverse, ?_, ?_, ?_⟩
  · rw [trimEnd, ← List.reverse_append, List.takeWhile_append_dropWhile, List.reverse_reverse]
  · simp [allBlank]
  · intro c hc
    rw [trimEnd, List.getLast?_reverse] at hc
    exact head_trimStart t.reverse c hc

/-! ## Both ends -/

theorem trim_eq {a t b : Text} (ha : allBlank a = true) (hb : allBlank b = true) (ht : Trimmed t) :
    trim (a ++ t ++ b) = t := by
  cases t with
  | nil =>
    have : trimStart (a ++ b) = [] := by
      rw [← List.append_nil (a ++ b)]
      exact trimStart_eq (by simp [ha, hb]) (by simp)
    simp [trim, this, trimEnd]
  | cons c t =>
    rw [trim, List.append_assoc, trimStart_eq ha (by simpa using ht.head c rfl)]
    exact trimEnd_eq hb ht.last

theorem indent_eq {a t b : Text} (ha : allBlank a = true) (hne : t ≠ []) (ht : Trimmed t) :
    indent (a ++ t ++ b) = a.length := by
  obtain ⟨c, t, rfl⟩ := List.exists_cons_of_ne_nil hne
  rw [indent, List.append_assoc, List.takeWhile_append_of_pos (allBlank_iff.mp ha)]
  simp [ht.head c rfl]

theorem exists_trim (t : Text) :
    ∃ a b, t = a ++ trim t ++ b ∧ allBlank a = true ∧ allBlank b = true ∧ a.length = indent t ∧ Trimmed (trim t) := by
  obtain ⟨b, hb, hblank, hlast⟩ := exists_trimEnd (trimStart t)
  refine ⟨t.takeWhile isBlank, b, ?_, allBlank_takeWhile t, hblank, rfl, ⟨?_, hlast⟩⟩
  · rw [List.append_assoc, trim, ← hb, trimStart, List.takeWhile_append_dropWhile]
  · intro c hc
    refine head_trimStart t c ?_
    rw [hb]
    exact List.mem_head?_append_of_mem_head? hc

theorem indent_add_length_trim_le (t : Text) : indent t + (trim t).length ≤ t.length := by
  obtain ⟨w, v, ht, -, -, hindent, -⟩ := exists_trim t
  have := congrArg List.length ht
  simp only [List.length_append] at this
  omega

theorem trimmed_trim (t : Text) : Trimmed (trim t) := by
  obtain ⟨_, _, _, _, _, _, h⟩ := exists_trim t
  exact h

theorem trim_eq_self {t : Text} (h : Trimmed t) : trim t = t := by
  simpa using trim_eq (a := []) (b := []) rfl rfl h

theorem trim_pad {a t b : Text} (ha : allBlank a = true) (hb : allBlank b = true) : trim (a ++ t ++ b) = trim t := by
  obtain ⟨x, y, ht, hx, hy, -, h⟩ := exists_trim t
  have : a ++ t ++ b = (a ++ x) ++ trim t ++ (y ++ b) := by
    conv_lhs => rw [ht]
    simp
  rw [this, trim_eq (by simp [ha, hx]) (by simp [hy, hb]) h]

/-! ## Either case -/

theorem last_of_lower_eq {a b : Text} (hab : lower a = lower b) (h : ∀ c ∈ a.getLast?, isBlank c = false) :
    ∀ c ∈ b.getLast?, isBlank c = false := by
  intro c hc
  have hlast : (lower a).getLast? = some c.toLower := by
    rw [hab, lower, List.getLast?_map, Option.mem_def.mp hc]
    rfl
  rw [lower, List.getLast?_map] at hlast
  obtain ⟨d, hd, hdc⟩ := Option.map_eq_some_iff.mp hlast
  rw [← isBlank_eq_of_toLower_eq hdc]
  exact h d hd

theorem Trimmed.of_lower_eq {a b : Text} (h : Trimmed a) (hab : lower a = lower b) : Trimmed b := by
  refine ⟨fun c hc => ?_, last_of_lower_eq hab h.last⟩
  have hhead : (lower a).head? = some c.toLower := by
    rw [hab, lower, List.head?_map, Option.mem_def.mp hc]
    rfl
  rw [lower, List.head?_map] at hhead
  obtain ⟨d, hd, hdc⟩ := Option.map_eq_some_iff.mp hhead
  rw [← isBlank_eq_of_toLower_eq hdc]
  exact h.head d hd

theorem trim_of_lower_eq {a b : Text} (h : lower a = lower b) : lower (trim a) = lower (trim b) := by
  obtain ⟨x, y, ha, hx, hy, -, ht⟩ := exists_trim a
  rw [ha, List.append_assoc] at h
  obtain ⟨x', r, rfl, hxx, hr⟩ := exists_append_of_lower_eq h
  obtain ⟨t', y', rfl, htt, hyy⟩ := exists_append_of_lower_eq hr
  rw [← List.append_assoc, trim_eq (by rw [← allBlank_eq_of_lower_eq hxx, hx])
    (by rw [← allBlank_eq_of_lower_eq hyy, hy]) (ht.of_lower_eq htt)]
  exact htt

theorem indent_of_lower_eq {a b : Text} (h : lower a = lower b) : indent a = indent b := by
  induction a generalizing b with
  | nil =>
    cases b with
    | nil => rfl
    | cons d b => cases h
  | cons c a ih =>
    cases b with
    | nil => cases h
    | cons d b =>
      obtain ⟨hc, ht⟩ := List.cons.inj h
      have := ih ht
      unfold indent at this ⊢
      rw [List.takeWhile_cons, List.takeWhile_cons, isBlank_eq_of_toLower_eq hc]
      split
      · rw [List.length_cons, List.length_cons, this]
      · rfl

end Stylesheet.Text
