/-
  Stylesheet.Proofs.Text.Letters — texts that differ only in the case of their letters.

  Words are recognised in either case: what `afterWord?` takes off a text is whatever has the word for its lower-case
  form (`afterWord?_eq_some_iff`). Only letters have two cases, so a class of characters that has all letters or none
  does not tell two such texts apart (`class_eq_of_toLower_eq`).
-/

import Mathlib
import Stylesheet.Text.Blank

namespace Stylesheet.Text

def lower (t : Text) : Text := t.map Char.toLower

@[simp] theorem lower_nil : lower [] = [] := rfl

@[simp] theorem lower_cons (c : Char) (t : Text) : lower (c :: t) = c.toLower :: lower t := rfl

@[simp] theorem lower_append (a b : Text) : lower (a ++ b) = lower a ++ lower b := List.map_append

@[simp] theorem length_lower (t : Text) : (lower t).length = t.length := List.length_map _

theorem length_eq_of_lower_eq {a b : Text} (h : lower a = lower b) : a.length = b.length := by
  rw [← length_lower a, h, length_lower]

/-! ## One character -/

theorem eq_or_letters_of_toLower_eq {c d : Char} (h : c.toLower = d.toLower) :
    c = d ∨ (c.isAlpha = true ∧ d.isAlpha = true) := by
  by_cases hc : c.isUpper
  · have hd : d.toLower.isLower = true := by rw [← h]; simp [Char.isAlpha, hc]
    exact Or.inr ⟨by simp [Char.isAlpha, hc], by simpa using hd⟩
  · by_cases hd : d.isUpper
    · have hc' : c.toLower.isLower = true := by rw [h]; simp [Char.isAlpha, hd]
      exact Or.inr ⟨by simpa using hc', by simp [Char.isAlpha, hd]⟩
    · rw [Char.toLower_eq_of_not_isUpper hc, Char.toLower_eq_of_not_isUpper hd] at h
      exact Or.inl h

/-- A class that has every letter or none does not see the case. -/
theorem class_eq_of_toLower_eq {p : Char → Bool} (hp : ∀ c d : Char, c.isAlpha → d.isAlpha → p c = p d) {c d : Char}
    (h : c.toLower = d.toLower) : p c = p d := by
  rcases eq_or_letters_of_toLower_eq h with rfl | ⟨hc, hd⟩
  · rfl
  · exact hp c d hc hd

theorem toLower_eq_iff {c d : Char} (hd : d.isAlpha = false) : c.toLower = d ↔ c = d := by
  have hd' : d.toLower = d := Char.toLower_eq_of_not_isUpper (by simp_all [Char.isAlpha])
  constructor
  · intro h
    rcases eq_or_letters_of_toLower_eq (h.trans hd'.symm) with h | ⟨-, h⟩
    · exact h
    · simp [hd] at h
  · rintro rfl
    exact hd'

/-- A character that is no letter is told from others in either case. -/
theorem eq_iff_of_toLower_eq {c d x : Char} (hx : x.isAlpha = false) (h : c.toLower = d.toLower) : c = x ↔ d = x := by
  rw [← toLower_eq_iff hx, h, toLower_eq_iff hx]

theorem isBlank_eq_false_of_isAlpha {c : Char} (h : c.isAlpha = true) : isBlank c = false := by
  have hc : c.toNat = c.val.toNat := rfl
  simp only [Char.isAlpha, Char.isUpper, Char.isLower, Bool.or_eq_true, Bool.and_eq_true, decide_eq_true_eq, ge_iff_le,
    UInt32.le_iff_toNat_le, Char.reduceVal, UInt32.reduceToNat] at h
  simp only [isBlank, hc, Bool.or_eq_false_iff, Bool.and_eq_false_iff, decide_eq_false_iff_not, beq_eq_false_iff_ne]
  omega

theorem isBlank_eq_of_toLower_eq {c d : Char} (h : c.toLower = d.toLower) : isBlank c = isBlank d :=
  class_eq_of_toLower_eq (fun c d hc hd => by simp [isBlank_eq_false_of_isAlpha, hc, hd]) h

/-! ## Words -/

theorem afterWord?_eq_some_iff {word t rest : Text} :
    afterWord? word t = some rest ↔ ∃ w, t = w ++ rest ∧ lower w = word := by
  induction word generalizing t with
  | nil =>
    simp only [afterWord?, Option.some.injEq]
    constructor
    · rintro rfl
      exact ⟨[], rfl, rfl⟩
    · rintro ⟨w, rfl, hw⟩
      simp [List.map_eq_nil_iff.mp hw]
  | cons l word ih =>
    cases t with
    | nil =>
      simp only [afterWord?, reduceCtorEq, false_iff]
      rintro ⟨w, hw, hl⟩
      simp [(List.append_eq_nil_iff.mp hw.symm).1] at hl
    | cons c t =>
      simp only [afterWord?]
      constructor
      · intro h
        split at h
        · rename_i hc
          obtain ⟨w, rfl, hw⟩ := ih.mp h
          exact ⟨c :: w, rfl, by simp [hc, hw]⟩
        · cases h
      · rintro ⟨w, hw, hl⟩
        cases w with
        | nil => cases hl
        | cons d w =>
          obtain ⟨rfl, rfl⟩ := List.cons.inj hw
          obtain ⟨hc, hl⟩ := List.cons.inj hl
          rw [if_pos hc]
          exact ih.mpr ⟨w, rfl, hl⟩

/-- A text that has a word for its lower-case form up to a sign that is no letter ends in that sign. -/
theorem eq_append_of_lower_eq_append {t a b : Text} (h : lower t = a ++ b) (hb : ∀ c ∈ b, c.isAlpha = false) :
    ∃ s, t = s ++ b ∧ lower s = a := by
  obtain ⟨s, r, rfl, hs, hr⟩ := List.map_eq_append_iff.mp h
  refine ⟨s, ?_, hs⟩
  congr 1
  subst hr
  clear h
  induction r with
  | nil => rfl
  | cons c r ih =>
    have hc : c = c.toLower := (toLower_eq_iff (hb c.toLower (by simp))).mp rfl
    exact List.cons_eq_cons.mpr ⟨hc, ih fun d hd => hb d (by simp [hd])⟩

/-! ## Texts alike but for the case -/

theorem exists_append_of_lower_eq {a b t : Text} (h : lower (a ++ b) = lower t) :
    ∃ a' b', t = a' ++ b' ∧ lower a = lower a' ∧ lower b = lower b' := by
  rw [lower_append] at h
  obtain ⟨a', b', ht, ha, hb⟩ := List.map_eq_append_iff.mp h.symm
  exact ⟨a', b', ht, ha.symm, hb.symm⟩

theorem exists_cons_of_lower_eq {c : Char} (hc : c.isAlpha = false) {a t : Text} (h : lower (c :: a) = lower t) :
    ∃ a', t = c :: a' ∧ lower a = lower a' := by
  obtain ⟨d, a', ht, hd, ha⟩ := List.map_eq_cons_iff.mp h.symm
  have hcd : d = c := (toLower_eq_iff hc).mp (hd.trans ((toLower_eq_iff hc).mpr rfl))
  exact ⟨a', by rw [ht, hcd], ha.symm⟩

theorem exists_append_cons_of_lower_eq {c : Char} (hc : c.isAlpha = false) {a b t : Text}
    (h : lower (a ++ c :: b) = lower t) : ∃ a' b', t = a' ++ c :: b' ∧ lower a = lower a' ∧ lower b = lower b' := by
  obtain ⟨a', r, rfl, ha, hr⟩ := exists_append_of_lower_eq h
  obtain ⟨b', rfl, hb⟩ := exists_cons_of_lower_eq hc hr
  exact ⟨a', b', rfl, ha, hb⟩

theorem mem_of_lower_eq {c : Char} (hc : c.isAlpha = false) {a b : Text} (h : lower a = lower b) (hmem : c ∈ a) :
    c ∈ b := by
  obtain ⟨x, y, rfl⟩ := List.append_of_mem hmem
  obtain ⟨x', y', rfl, -, -⟩ := exists_append_cons_of_lower_eq hc h
  simp

end Stylesheet.Text
