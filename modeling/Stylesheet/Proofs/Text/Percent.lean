/-
  Stylesheet.Proofs.Text.Percent — percent-encoded texts hold plain characters only, and are read as what they stand for.

  A byte is written as a plain character, or as a percent sign and two digits (`encodeByte_cases`). The percent sign is
  not plain, so that one in front tells the reader which of the two it has to do with (`bytes?_encodeByte_append`), and
  a percent sign in the text itself is never taken for that of a byte.
-/

import Mathlib
import Stylesheet.Proofs.Text.Utf8
import Stylesheet.Text.Percent

namespace Stylesheet.Text

/-! ## Upper-case digits -/

namespace Hex

def isUpperDigit (c : Char) : Bool := c.isDigit || ('A' ≤ c && c ≤ 'F')

theorem isUpperDigit_digitChar {n : Nat} (h : n < 16) : isUpperDigit (Nat.digitChar n).toUpper = true :=
  (by decide : ∀ n < 16, isUpperDigit (Nat.digitChar n).toUpper = true) n h

theorem digit?_toUpper_digitChar {n : Nat} (h : n < 16) : digit? (Nat.digitChar n).toUpper = some n :=
  (by decide : ∀ n < 16, digit? (Nat.digitChar n).toUpper = some n) n h

theorem upper_two (n : Nat) : upper 2 n = [(Nat.digitChar (n / 16 % 16)).toUpper, (Nat.digitChar (n % 16)).toUpper] :=
  rfl

theorem isAlphanum_of_isUpperDigit {c : Char} (h : isUpperDigit c = true) : c.isAlphanum = true := by
  simp only [isUpperDigit, Bool.or_eq_true, Bool.and_eq_true, decide_eq_true_eq] at h
  rcases h with h | ⟨hlow, hhigh⟩
  · simp [Char.isAlphanum, h]
  · have hupper : c.isUpper = true := by
      simp only [Char.isUpper, decide_eq_true_eq]
      exact ⟨hlow, le_trans hhigh (by decide)⟩
    simp [Char.isAlphanum, Char.isAlpha, hupper]

end Hex

/-! ## Bytes -/

namespace Percent

/-- How a byte is written: as a plain character, or as a percent sign and its two digits. -/
theorem encodeByte_cases (b : UInt8) :
    (∃ c, isPlain c = true ∧ UInt8.ofNat c.toNat = b ∧ encodeByte b = [c]) ∨
      ∃ high low, (Hex.isUpperDigit high = true ∧ Hex.digit? high = some (b.toNat / 16)) ∧
        (Hex.isUpperDigit low = true ∧ Hex.digit? low = some (b.toNat % 16)) ∧ encodeByte b = ['%', high, low] := by
  have hb : b.toNat < 256 := UInt8.toNat_lt_size b
  by_cases hplain : isPlain (Char.ofNat b.toNat) = true
  · left
    have hchar : (Char.ofNat b.toNat).toNat = b.toNat := by
      rw [Char.toNat_ofNat, if_pos (Or.inl (by omega))]
    refine ⟨Char.ofNat b.toNat, hplain, ?_, ?_⟩
    · rw [hchar, UInt8.ofNat_toNat]
    · rw [encodeByte, if_pos hplain]
  · right
    have hhigh : b.toNat / 16 % 16 = b.toNat / 16 := Nat.mod_eq_of_lt (by omega)
    have hlow : b.toNat % 16 < 16 := Nat.mod_lt _ (by decide)
    refine ⟨_, _, ⟨Hex.isUpperDigit_digitChar (by omega), Hex.digit?_toUpper_digitChar (by omega)⟩,
      ⟨Hex.isUpperDigit_digitChar hlow, Hex.digit?_toUpper_digitChar hlow⟩, ?_⟩
    rw [encodeByte, if_neg hplain, Hex.upper_two, hhigh]

theorem ne_percent {p : Char → Bool} {c : Char} (h : p c = true) (hp : p '%' = false) : c ≠ '%' := by
  rintro rfl
  exact absurd h (by simp [hp])

/-- A byte that is written in front of a text is read before it. -/
theorem bytes?_encodeByte_append (b : UInt8) (t : Text) : bytes? (encodeByte b ++ t) = (bytes? t).map (b :: ·) := by
  rcases encodeByte_cases b with ⟨c, hplain, hc, hbyte⟩ | ⟨high, low, ⟨-, hhigh⟩, ⟨-, hlow⟩, hbyte⟩
  · rw [hbyte, List.singleton_append, bytes?, if_pos hplain, hc]
    exact fun _ _ _ hpercent _ => ne_percent hplain rfl hpercent
  · have hvalue : UInt8.ofNat (b.toNat / 16 * 16 + b.toNat % 16) = b := by
      rw [Nat.div_add_mod', UInt8.ofNat_toNat]
    rw [hbyte]
    simp only [List.cons_append, List.nil_append, bytes?, hhigh, hlow, Option.bind_eq_bind, Option.bind_some, hvalue]
    cases bytes? t <;> rfl

theorem bytes?_flatMap (bytes : List UInt8) : bytes? (bytes.flatMap encodeByte) = some bytes := by
  induction bytes with
  | nil => rfl
  | cons b bytes ih =>
    rw [List.flatMap_cons, bytes?_encodeByte_append, ih]
    rfl

/-! ## Texts -/

/-- A percent-encoded text is read as the text. -/
theorem decode?_encode (t : Text) : decode? (encode t) = some t := by
  rw [decode?, encode, bytes?_flatMap, Option.bind_some, Utf8.decode_encode]
  rfl

theorem mem_of_isPlain {c : Char} (h : isPlain c = true) : c.isAlphanum = true ∨ c ∈ ['_', '.', '-', '~', '%'] := by
  simp only [isPlain, Bool.or_eq_true, beq_iff_eq] at h
  simp only [List.mem_cons, List.not_mem_nil, or_false]
  tauto

theorem mem_of_mem_encode {c : Char} {t : Text} (h : c ∈ encode t) :
    c.isAlphanum = true ∨ c ∈ ['_', '.', '-', '~', '%'] := by
  obtain ⟨b, -, hc⟩ := List.mem_flatMap.mp h
  rcases encodeByte_cases b with ⟨d, hplain, -, hbyte⟩ | ⟨high, low, ⟨hhigh, -⟩, ⟨hlow, -⟩, hbyte⟩
  · rw [hbyte, List.mem_singleton] at hc
    exact mem_of_isPlain (hc ▸ hplain)
  · rw [hbyte] at hc
    simp only [List.mem_cons, List.not_mem_nil, or_false] at hc
    rcases hc with rfl | rfl | rfl
    · exact Or.inr (by decide)
    · exact Or.inl (Hex.isAlphanum_of_isUpperDigit hhigh)
    · exact Or.inl (Hex.isAlphanum_of_isUpperDigit hlow)

/-- Two upper-case digits follow every percent sign of encoded bytes. The induction is on the bytes: a percent sign is
    the first character of what one byte is written as, and none of the others. -/
theorem exists_digits_of_suffix {bytes : List UInt8} {rest : Text}
    (h : '%' :: rest <:+ bytes.flatMap encodeByte) : ∃ high low tail, rest = high :: low :: tail ∧
      Hex.isUpperDigit high = true ∧ Hex.isUpperDigit low = true := by
  induction bytes with
  | nil => simp at h
  | cons b bytes ih =>
    rw [List.flatMap_cons] at h
    rcases encodeByte_cases b with ⟨c, hplain, -, hbyte⟩ | ⟨high, low, ⟨hhigh, -⟩, ⟨hlow, -⟩, hbyte⟩
    · rw [hbyte, List.singleton_append, List.suffix_cons_iff] at h
      rcases h with heq | h
      · exact absurd (List.cons.inj heq).1.symm (ne_percent hplain rfl)
      · exact ih h
    · rw [hbyte, List.cons_append, List.cons_append, List.singleton_append, List.suffix_cons_iff,
        List.suffix_cons_iff, List.suffix_cons_iff] at h
      rcases h with heq | heq | heq | h
      · exact ⟨high, low, _, (List.cons.inj heq).2, hhigh, hlow⟩
      · exact absurd (List.cons.inj heq).1.symm (ne_percent hhigh rfl)
      · exact absurd (List.cons.inj heq).1.symm (ne_percent hlow rfl)
      · exact ih h

end Percent

end Stylesheet.Text
