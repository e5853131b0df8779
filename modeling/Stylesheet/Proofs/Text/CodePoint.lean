/-
  Stylesheet.Proofs.Text.CodePoint — which texts of code points are written alike.

  A text is written as its UTF-16 units are, one after the other (`string_flatMap_units`), and each unit can be read back
  from what is written, with the rest of the text behind it (`readUnit?_escape`). So two texts are written alike exactly
  when they are the same once their surrogate pairs are read as characters (`string_append_inj`, `string_joined`). A
  text without a high surrogate directly before a low one has no such pair (`Unpaired.joined`).
-/

import Mathlib
import Stylesheet.Proofs.Json.Writing
import Stylesheet.Text.CodePoint

namespace Stylesheet

theorem Json.escapeChar_of_le {c : Char} (h : 0x10000 ≤ c.toNat) :
    escapeChar c =
      escapeUnit (0xD800 + (c.toNat - 0x10000) / 0x400) ++ escapeUnit (0xDC00 + (c.toNat - 0x10000) % 0x400) := by
  have hshort : shortEscape? c = none := by
    unfold shortEscape?
    repeat' split
    all_goals
      first
      | rfl
      | subst_vars
        exact absurd h (by decide)
  simp only [escapeChar, hshort]
  rw [if_neg (by omega), if_neg (by omega)]

namespace CodePoint

/-! ## Characters -/

theorem val_ofChar (c : Char) : (ofChar c).val = c.toNat := rfl

theorem not_surrogate_ofChar (c : Char) : ¬((ofChar c).IsHigh ∨ (ofChar c).IsLow) := by
  have := Text.toNat_valid c
  simp only [IsHigh, IsLow, val_ofChar]
  omega

theorem exists_ofChar {p : CodePoint} (h : ¬(p.IsHigh ∨ p.IsLow)) : ∃ c, p = ofChar c := by
  simp only [IsHigh, IsLow] at h
  have hvalid : p.val.isValidChar := by
    have := p.isLt
    by_cases hlow : p.val < 0xD800
    · exact .inl hlow
    · exact .inr ⟨by omega, p.isLt⟩
  refine ⟨Char.ofNat p.val, Fin.ext ?_⟩
  rw [val_ofChar, Char.toNat_ofNat, if_pos hvalid]

theorem escape_ofChar (c : Char) : escape (ofChar c) = Json.escapeChar c := by
  rw [escape, if_neg (not_surrogate_ofChar c), val_ofChar, Char.ofNat_toNat]

theorem string_map_ofChar (t : Text) : string (t.map ofChar) = Json.string t := by
  simp only [string, Json.string, List.flatMap_map, escape_ofChar]

/-! ## Units -/

def pair (p q : CodePoint) : CodePoint := Fin.ofNat _ (0x10000 + (p.val - 0xD800) * 0x400 + (q.val - 0xDC00))

def high (p : CodePoint) : CodePoint where
  val := 0xD800 + (p.val - 0x10000) / 0x400
  isLt := by
    have := p.isLt
    omega

def low (p : CodePoint) : CodePoint where
  val := 0xDC00 + (p.val - 0x10000) % 0x400
  isLt := by omega

def units (p : CodePoint) : List CodePoint := if p.val < 0x10000 then [p] else [p.high, p.low]

theorem units_of_lt {p : CodePoint} (h : p.val < 0x10000) : p.units = [p] := if_pos h

theorem IsHigh.lt {p : CodePoint} (h : p.IsHigh) : p.val < 0x10000 := Nat.lt_trans h.2 (by decide)

theorem IsLow.lt {p : CodePoint} (h : p.IsLow) : p.val < 0x10000 := Nat.lt_trans h.2 (by decide)

theorem val_high (p : CodePoint) : p.high.val = 0xD800 + (p.val - 0x10000) / 0x400 := rfl

theorem val_low (p : CodePoint) : p.low.val = 0xDC00 + (p.val - 0x10000) % 0x400 := rfl

theorem isHigh_high (p : CodePoint) : p.high.IsHigh := by
  have := p.isLt
  rw [IsHigh, val_high]
  omega

theorem isLow_low (p : CodePoint) : p.low.IsLow := by
  rw [IsLow, val_low]
  omega

theorem val_pair {p q : CodePoint} (hp : p.IsHigh) (hq : q.IsLow) :
    (pair p q).val = 0x10000 + (p.val - 0xD800) * 0x400 + (q.val - 0xDC00) := by
  simp only [IsHigh, IsLow] at hp hq
  exact Nat.mod_eq_of_lt (by omega)

theorem pair_high_low {p : CodePoint} (h : ¬p.val < 0x10000) : pair p.high p.low = p := by
  apply Fin.ext
  rw [val_pair p.isHigh_high p.isLow_low, val_high, val_low]
  omega

theorem units_pair {p q : CodePoint} (hp : p.IsHigh) (hq : q.IsLow) : (pair p q).units = [p, q] := by
  have hhigh : (pair p q).high = p := by
    apply Fin.ext
    rw [val_high, val_pair hp hq]
    simp only [IsHigh, IsLow] at hp hq
    omega
  have hlow : (pair p q).low = q := by
    apply Fin.ext
    rw [val_low, val_pair hp hq]
    simp only [IsHigh, IsLow] at hp hq
    omega
  rw [units, if_neg (by rw [val_pair hp hq]; omega), hhigh, hlow]

theorem lt_of_mem_units {p u : CodePoint} (hu : u ∈ p.units) : u.val < 0x10000 := by
  unfold units at hu
  split at hu
  case isTrue h =>
    rw [List.mem_singleton.mp hu]
    exact h
  case isFalse =>
    rcases List.mem_cons.mp hu with rfl | hu
    · exact p.isHigh_high.lt
    · rw [List.mem_singleton.mp hu]
      exact p.isLow_low.lt

theorem escape_eq_flatMap_units (p : CodePoint) : escape p = p.units.flatMap escape := by
  by_cases hp : p.val < 0x10000
  · rw [units_of_lt hp, List.flatMap_singleton]
  · obtain ⟨c, rfl⟩ : ∃ c, p = ofChar c := by
      apply exists_ofChar
      simp only [IsHigh, IsLow]
      omega
    have hhigh : escape (ofChar c).high = Json.escapeUnit (0xD800 + (c.toNat - 0x10000) / 0x400) := by
      rw [escape, if_pos (.inl (isHigh_high _)), val_high, val_ofChar]
    have hlow : escape (ofChar c).low = Json.escapeUnit (0xDC00 + (c.toNat - 0x10000) % 0x400) := by
      rw [escape, if_pos (.inr (isLow_low _)), val_low, val_ofChar]
    rw [units, if_neg hp, escape_ofChar, Json.escapeChar_of_le (Nat.le_of_not_lt hp)]
    simp [hhigh, hlow]

theorem string_flatMap_units (t : List CodePoint) : string (t.flatMap units) = string t := by
  simp only [string, List.flatMap_assoc, ← escape_eq_flatMap_units]

/-! ## Pairs -/

/-- Each high surrogate directly before a low one gives way, with it, to the character they are the units of. -/
def joined : List CodePoint → List CodePoint
  | p :: q :: t => if p.IsHigh ∧ q.IsLow then pair p q :: joined t else p :: joined (q :: t)
  | [p] => [p]
  | [] => []

theorem joined_cons {p : CodePoint} {t : List CodePoint} (h : ∀ q ∈ t.head?, ¬(p.IsHigh ∧ q.IsLow)) :
    joined (p :: t) = p :: joined t := by
  cases t with
  | nil => rfl
  | cons q t => rw [joined, if_neg (h q rfl)]

theorem joined_pair {p q : CodePoint} (hp : p.IsHigh) (hq : q.IsLow) (t : List CodePoint) :
    joined (p :: q :: t) = pair p q :: joined t := by
  rw [joined, if_pos ⟨hp, hq⟩]

/-- No high surrogate stands directly before a low one. -/
def Unpaired (t : List CodePoint) : Prop := t.IsChain fun p q => ¬(p.IsHigh ∧ q.IsLow)

instance (t : List CodePoint) : Decidable (Unpaired t) := inferInstanceAs (Decidable (List.IsChain _ t))

theorem Unpaired.joined {t : List CodePoint} (h : Unpaired t) : joined t = t := by
  induction h with
  | nil => rfl
  | singleton p => rfl
  | cons_cons hpq _ ih =>
    rw [joined_cons, ih]
    intro r hr
    cases hr
    exact hpq

theorem flatMap_units_joined (t : List CodePoint) : (joined t).flatMap units = t.flatMap units := by
  induction t using joined.induct with
  | case1 p q t h ih =>
    rw [joined_pair h.1 h.2, List.flatMap_cons, List.flatMap_cons, List.flatMap_cons, ih, units_pair h.1 h.2,
      units_of_lt h.1.lt, units_of_lt h.2.lt]
    rfl
  | case2 p q t h ih => rw [joined, if_neg h, List.flatMap_cons, ih, ← List.flatMap_cons]
  | case3 p => rfl
  | case4 => rfl

theorem joined_units_append {p : CodePoint} {t : List CodePoint} (h : ∀ q ∈ t.head?, ¬(p.IsHigh ∧ q.IsLow)) :
    joined (p.units ++ t) = p :: joined t := by
  by_cases hp : p.val < 0x10000
  · rw [units_of_lt hp]
    exact joined_cons h
  · rw [units, if_neg hp]
    show joined (p.high :: p.low :: t) = p :: joined t
    rw [joined_pair p.isHigh_high p.isLow_low, pair_high_low hp]

theorem eq_of_mem_head?_units {q u : CodePoint} {t : List CodePoint} (hu : u ∈ (q.units ++ t).head?)
    (hlow : u.IsLow) : u = q := by
  by_cases hq : q.val < 0x10000
  · rw [units_of_lt hq] at hu
    cases hu
    rfl
  · rw [units, if_neg hq] at hu
    cases hu
    have := q.isHigh_high.2
    have := hlow.1
    omega

theorem joined_flatMap_units (t : List CodePoint) : joined (t.flatMap units) = joined t := by
  induction t using joined.induct with
  | case1 p q t h ih =>
    rw [joined_pair h.1 h.2, List.flatMap_cons, List.flatMap_cons, units_of_lt h.1.lt, units_of_lt h.2.lt, ← ih]
    exact joined_pair h.1 h.2 _
  | case2 p q t h ih =>
    rw [List.flatMap_cons, joined_units_append, ih, joined, if_neg h]
    intro u hu hpu
    rw [List.flatMap_cons] at hu
    rw [eq_of_mem_head?_units hu hpu.2] at hpu
    exact h hpu
  | case3 p => exact joined_units_append (by simp)
  | case4 => rfl

/-! ## Reading units back -/

def readUnit? : Text → Option (Nat × Text)
  | '\\' :: 'u' :: a :: b :: c :: d :: t => (Json.unit? a b c d).map fun n => (n, t)
  | '\\' :: letter :: t => (Json.unescape? letter).map fun c => (c.toNat, t)
  | c :: t => if c = '"' then none else some (c.toNat, t)
  | [] => none

theorem readUnit?_of_spellsChar {w : Text} {c : Char} (h : Json.SpellsChar w c) (hc : c.toNat < 0x10000) (t : Text) :
    readUnit? (w ++ t) = some (c.toNat, t) := by
  cases h with
  | plain control quote backslash => simp [readUnit?, quote, backslash]
  | @letter letter _ h =>
    have hu : letter ≠ 'u' := by
      intro hu
      rw [hu] at h
      cases h
    simp [readUnit?, h, hu]
  | unit h => simp [readUnit?, h]
  | pair _ _ _ _ h => omega

theorem readUnit?_escape {p : CodePoint} (hp : p.val < 0x10000) (t : Text) :
    readUnit? (escape p ++ t) = some (p.val, t) := by
  by_cases hs : p.IsHigh ∨ p.IsLow
  · obtain ⟨a, b, d, e, heq, hn⟩ := Json.exists_escapeUnit_eq hp
    rw [escape, if_pos hs, heq]
    simp [readUnit?, hn]
  · obtain ⟨c, rfl⟩ := exists_ofChar hs
    rw [escape_ofChar]
    exact readUnit?_of_spellsChar (Json.spellsChar_escapeChar c) hp t

theorem readUnit?_cons {p : CodePoint} (hp : p.val < 0x10000) (s : List CodePoint) (t : Text) :
    readUnit? ((p :: s).flatMap escape ++ t) = some (p.val, s.flatMap escape ++ t) := by
  rw [List.flatMap_cons, List.append_assoc, readUnit?_escape hp]

/-! ## Strings -/

theorem flatMap_escape_append_inj {s t : List CodePoint} {a b : Text} (hs : ∀ p ∈ s, p.val < 0x10000)
    (ht : ∀ p ∈ t, p.val < 0x10000) (h : s.flatMap escape ++ '"' :: a = t.flatMap escape ++ '"' :: b) :
    s = t ∧ a = b := by
  induction s generalizing t with
  | nil =>
    cases t with
    | nil => exact ⟨rfl, (List.cons.inj h).2⟩
    | cons q t =>
      have hread := congrArg readUnit? h
      rw [readUnit?_cons (ht q List.mem_cons_self)] at hread
      cases hread
  | cons p s ih =>
    cases t with
    | nil =>
      have hread := congrArg readUnit? h
      rw [readUnit?_cons (hs p List.mem_cons_self)] at hread
      cases hread
    | cons q t =>
      have hread := congrArg readUnit? h
      rw [readUnit?_cons (hs p List.mem_cons_self), readUnit?_cons (ht q List.mem_cons_self)] at hread
      simp only [Option.some.injEq, Prod.mk.injEq] at hread
      obtain ⟨hpq, hrest⟩ := hread
      obtain ⟨hst, hab⟩ := ih (fun r hr => hs r (List.mem_cons_of_mem _ hr))
        (fun r hr => ht r (List.mem_cons_of_mem _ hr)) hrest
      exact ⟨by rw [Fin.ext hpq, hst], hab⟩

/-- A string says its text up to surrogate pairs, and where it ends. -/
theorem string_append_inj {s t : List CodePoint} {a b : Text} (h : string s ++ a = string t ++ b) :
    joined s = joined t ∧ a = b := by
  have hlt : ∀ (s : List CodePoint), ∀ p ∈ s.flatMap units, p.val < 0x10000 := by
    intro s p hp
    obtain ⟨q, -, hq⟩ := List.mem_flatMap.mp hp
    exact lt_of_mem_units hq
  rw [← string_flatMap_units s, ← string_flatMap_units t] at h
  simp only [string, List.append_assoc, List.cons_append, List.nil_append, List.cons.injEq, true_and] at h
  obtain ⟨hunits, hab⟩ := flatMap_escape_append_inj (hlt s) (hlt t) h
  rw [← joined_flatMap_units s, ← joined_flatMap_units t, hunits]
  exact ⟨rfl, hab⟩

theorem string_joined (t : List CodePoint) : string (joined t) = string t := by
  rw [← string_flatMap_units (joined t), flatMap_units_joined, string_flatMap_units]

end CodePoint

end Stylesheet
