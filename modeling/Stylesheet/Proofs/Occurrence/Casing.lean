/-
  Stylesheet.Proofs.Occurrence.Casing — what the recognisers find in a text in lower case.

  Selector lists and urls are read without regard to the case of letters: in the text in lower case they stand at the
  same places, in lower case themselves (`lists_lower`, `sites_lower`). Each step of their passes commutes with the
  change of case, and so do the passes (`scan_map`).
-/

import Stylesheet.Proofs.Occurrence.Selector
import Stylesheet.Proofs.Occurrence.Url

namespace Stylesheet

/-! ## Texts in lower case -/

def IgnoresCase (p : Char → Bool) : Prop := ∀ c : Char, p c.toLower = p c

theorem ignoresCase_of_alpha {p : Char → Bool} (h : ∀ c d : Char, c.isAlpha → d.isAlpha → p c = p d) : IgnoresCase p :=
  fun c => Text.class_eq_of_toLower_eq h (Char.toLower_toLower_eq_toLower c)

theorem ignoresCase_isBlank : IgnoresCase Text.isBlank :=
  fun c => Text.isBlank_eq_of_toLower_eq (Char.toLower_toLower_eq_toLower c)

theorem toLower_beq {d : Char} (hd : d.isAlpha = false) (c : Char) : (c.toLower == d) = (c == d) := by
  rw [Bool.eq_iff_iff, beq_iff_eq, beq_iff_eq]
  exact Text.toLower_eq_iff hd

namespace Text

theorem lower_takeWhile {p : Char → Bool} (h : IgnoresCase p) (t : Text) :
    (lower t).takeWhile p = lower (t.takeWhile p) := by
  rw [lower, List.takeWhile_map, show p ∘ Char.toLower = p from funext h, lower]

theorem lower_filter {p : Char → Bool} (h : IgnoresCase p) (t : Text) : (lower t).filter p = lower (t.filter p) := by
  rw [lower, List.filter_map, show p ∘ Char.toLower = p from funext h, lower]

theorem lower_take (n : Nat) (t : Text) : (lower t).take n = lower (t.take n) := List.map_take.symm

theorem lower_drop (n : Nat) (t : Text) : (lower t).drop n = lower (t.drop n) := List.map_drop.symm

theorem lower_reverse (t : Text) : (lower t).reverse = lower t.reverse := List.map_reverse.symm

theorem afterWord?_lower (word t : Text) : afterWord? word (lower t) = (afterWord? word t).map lower := by
  induction word generalizing t with
  | nil => cases t <;> rfl
  | cons w word ih =>
    cases t with
    | nil => rfl
    | cons c t =>
      simp only [lower_cons, afterWord?, Char.toLower_toLower_eq_toLower]
      split
      · exact ih t
      · rfl

end Text

/-! ## Urls -/

namespace Url

theorem ignoresCase_isQuote : IgnoresCase isQuote := by
  intro c
  unfold isQuote
  rw [toLower_beq (by decide), toLower_beq (by decide)]

theorem ignoresCase_isTextChar : IgnoresCase isTextChar := by
  intro c
  unfold isTextChar
  rw [toLower_beq (by decide), toLower_beq (by decide), ignoresCase_isQuote c, toLower_beq (by decide)]

def Form.lower (f : Form) : Form := ⟨Text.lower f.lead, Text.lower f.text, Text.lower f.trail⟩

def Site.lower (s : Site) : Site := { s with form := s.form.lower }

theorem Form.length_spelling_lower (f : Form) : f.lower.spelling.length = f.spelling.length := by
  simp [Form.spelling, Form.lower]

theorem quote_lower (t : Text) : quote (Text.lower t) = Text.lower (quote t) := by
  rw [quote, quote, Text.lower_take, Text.lower_filter ignoresCase_isQuote]

theorem trail?_lower (t : Text) : trail? (Text.lower t) = (trail? t).map Text.lower := by
  unfold trail?
  dsimp only
  simp only [quote_lower, Text.length_lower, Text.lower_drop, Text.lower_takeWhile ignoresCase_isBlank]
  cases t.drop ((quote t).length + ((t.drop (quote t).length).takeWhile Text.isBlank).length) with
  | nil => rfl
  | cons c rest =>
    rw [Text.lower_cons]
    by_cases hc : c = ')'
    · subst hc
      simp
    · have hl : c.toLower ≠ ')' := fun h => hc ((Text.toLower_eq_iff (by decide)).mp h)
      split
      · rename_i h
        exact absurd (List.cons.inj h).1 hl
      · split
        · rename_i h
          exact absurd (List.cons.inj h).1 hc
        · rfl

theorem running?_lower (lead t : Text) :
    running? (Text.lower lead) (Text.lower t) = (running? lead t).map Form.lower := by
  unfold running?
  dsimp only
  rw [Text.lower_takeWhile ignoresCase_isTextChar, Text.length_lower, Text.lower_drop, trail?_lower]
  cases t.takeWhile isTextChar with
  | nil => rfl
  | cons c text =>
    simp only [Text.lower_cons, List.isEmpty_cons, Bool.false_eq_true, if_false, Option.map_map]
    rfl

theorem blank?_lower (lead pad t : Text) :
    blank? (Text.lower lead) (Text.lower pad) (Text.lower t) = (blank? lead pad t).map Form.lower := by
  unfold blank?
  dsimp only
  rw [Text.lower_reverse, Text.lower_takeWhile (p := (· == '\n')) (toLower_beq (by decide)), Text.length_lower,
    Text.lower_drop]
  cases pad.reverse.drop (pad.reverse.takeWhile (· == '\n')).length with
  | nil => rfl
  | cons c before =>
    simp only [Text.lower_cons, ← Text.lower_append, trail?_lower, Option.map_map, Text.lower_reverse]
    rfl

theorem inside?_lower (lead t : Text) :
    inside? (Text.lower lead) (Text.lower t) = (inside? lead t).map Form.lower := by
  unfold inside?
  dsimp only
  rw [Text.lower_takeWhile ignoresCase_isBlank, Text.length_lower, Text.lower_drop, quote_lower, Text.length_lower,
    Text.lower_drop, ← Text.lower_append, ← Text.lower_append, running?_lower, blank?_lower]
  cases running? _ _ with
  | none => rfl
  | some f => rfl

theorem form?_lower (t : Text) : form? (Text.lower t) = (form? t).map Form.lower := by
  unfold form?
  rw [Text.afterWord?_lower]
  cases Text.afterWord? ['u', 'r', 'l'] t with
  | none => rfl
  | some rest =>
    dsimp only [Option.map_some]
    rw [Text.lower_takeWhile ignoresCase_isBlank, Text.length_lower, Text.lower_drop, Text.lower_take]
    cases rest.drop (rest.takeWhile Text.isBlank).length with
    | nil => rfl
    | cons c inner =>
      rw [Text.lower_cons]
      by_cases hc : c = '('
      · subst hc
        have := inside?_lower (t.take 3 ++ rest.takeWhile Text.isBlank ++ ['(']) inner
        simpa using this
      · have hl : c.toLower ≠ '(' := fun h => hc ((Text.toLower_eq_iff (by decide)).mp h)
        split
        · rename_i h
          exact absurd (List.cons.inj h).1 hl
        · split
          · rename_i h
            exact absurd (List.cons.inj h).1 hc
          · rfl

theorem step_lower (r : Reading) (c : Char) (rest : Text) :
    step r c.toLower (Text.lower rest) = ((step r c rest).1, (step r c rest).2.map Site.lower) := by
  have hsite : r.site? (c.toLower :: Text.lower rest) = (r.site? (c :: rest)).map Site.lower := by
    unfold Reading.site?
    cases r.colon with
    | none => rfl
    | some colon =>
      dsimp only
      rw [← Text.lower_cons, form?_lower, Option.map_map, Option.map_map]
      rfl
  have hcolon : c.toLower = ':' ↔ c = ':' := Text.toLower_eq_iff (by decide)
  have hline : c.toLower = '\n' ↔ c = '\n' := Text.toLower_eq_iff (by decide)
  unfold step
  cases r.skip with
  | succ skip => rfl
  | zero =>
    dsimp only
    rw [hsite]
    cases r.site? (c :: rest) with
    | none =>
      simp only [Option.map_none, hcolon, hline]
      rfl
    | some s =>
      simp only [Option.map_some, Site.lower, Form.length_spelling_lower]
      rfl

theorem sites_lower (t : Text) : sites (Text.lower t) = (sites t).map Site.lower :=
  scan_map (h := id) step_lower _ t

end Url

/-! ## Selector lists -/

namespace Selector

theorem ignoresCase_isListChar : IgnoresCase isListChar :=
  ignoresCase_of_alpha fun c d hc hd => by simp [isListChar, Char.isAlphanum, hc, hd]

theorem extend_lower (list : Option Text) (c : Char) :
    extend (list.map Text.lower) c.toLower = (extend list c).map Text.lower := by
  have hbrace : c.toLower = '}' ↔ c = '}' := Text.toLower_eq_iff (by decide)
  have hline : c.toLower = '\n' ↔ c = '\n' := Text.toLower_eq_iff (by decide)
  unfold extend
  simp only [hbrace, hline, ignoresCase_isListChar c]
  split
  · rfl
  · split
    · cases list with
      | none =>
        dsimp only [Option.map_none]
        split <;> rfl
      | some read => rfl
    · rfl

def Reading.lower (r : Reading) : Reading := { r with list := r.list.map Text.lower }

theorem Reading.list?_lower (r : Reading) :
    r.lower.list? = r.list?.map fun x => (x.1, Text.lower x.2) := by
  obtain ⟨offset, list⟩ := r
  unfold Reading.lower Reading.list?
  cases list with
  | none => rfl
  | some l =>
    cases l with
    | nil => rfl
    | cons c read =>
      simp only [Option.map_some, Text.lower_cons, Text.length_lower]
      rw [← Text.lower_cons, Text.lower_reverse]

theorem step_lower (r : Reading) (c : Char) (rest : Text) :
    step r.lower c.toLower (Text.lower rest) =
      ((step r c rest).1.lower, (step r c rest).2.map fun x => (x.1, Text.lower x.2)) := by
  have hbrace : c.toLower = '{' ↔ c = '{' := Text.toLower_eq_iff (by decide)
  unfold step
  rw [Reading.list?_lower]
  simp only [hbrace, Reading.lower, extend_lower]
  split
  · cases r.list? <;> rfl
  · rfl

theorem lists_lower (t : Text) : lists (Text.lower t) = (lists t).map fun x => (x.1, Text.lower x.2) :=
  scan_map step_lower ⟨0, some []⟩ t

end Selector

end Stylesheet
