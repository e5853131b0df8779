/-
  Stylesheet.Proofs.Text.Utf8 — bytes that stand for a text are read as that text.

  A character that no surrogate is stands within the bounds that its first byte sets for the second one, so that the
  reader takes just its bytes and comes back to where it stood between characters (`decodeFrom_encodeChar`).
-/

import Stylesheet.Text.Utf8

namespace Stylesheet.Text.Utf8

/-! ## Byte by byte -/

section

variable {pos n start bits owed low high : Nat} {lead : UInt8} {read : Text} {rest : List UInt8}

theorem toNat_ofNat_of_lt (h : n < 0x100) : (UInt8.ofNat n).toNat = n := by
  rw [UInt8.toNat_ofNat', Nat.mod_eq_of_lt h]

theorem decodeFrom_ascii (h : n < 0x80) :
    decodeFrom pos none read (.ofNat n :: rest) = decodeFrom (pos + 1) none (Char.ofNat n :: read) rest := by
  rw [decodeFrom, toNat_ofNat_of_lt (by omega), if_pos h]

theorem decodeFrom_lead {p : Pending} (h : 0x80 ≤ n) (hn : n < 0x100) (hp : announce? pos (.ofNat n) = some p) :
    decodeFrom pos none read (.ofNat n :: rest) = decodeFrom (pos + 1) (some p) read rest := by
  rw [decodeFrom, toNat_ofNat_of_lt hn, if_neg (by omega), hp]

theorem decodeFrom_more (hlow : low ≤ n) (hhigh : n ≤ high) (hn : n < 0x100) :
    decodeFrom pos (some ⟨start, lead, bits, owed + 2, low, high⟩) read (.ofNat n :: rest) =
      decodeFrom (pos + 1) (some ⟨start, lead, bits * 0x40 + (n - 0x80), owed + 1, 0x80, 0xBF⟩) read rest := by
  rw [decodeFrom, toNat_ofNat_of_lt hn, if_pos ⟨hlow, hhigh⟩]
  rfl

theorem decodeFrom_last (hlow : low ≤ n) (hhigh : n ≤ high) (hn : n < 0x100) :
    decodeFrom pos (some ⟨start, lead, bits, 1, low, high⟩) read (.ofNat n :: rest) =
      decodeFrom (pos + 1) none (Char.ofNat (bits * 0x40 + (n - 0x80)) :: read) rest := by
  rw [decodeFrom, toNat_ofNat_of_lt hn, if_pos ⟨hlow, hhigh⟩]
  rfl

/-! ## What a first byte announces -/

theorem announce?_two (h : 0xC2 ≤ n) (hn : n < 0xE0) :
    announce? pos (.ofNat n) = some ⟨pos, .ofNat n, n - 0xC0, 1, 0x80, 0xBF⟩ := by
  rw [announce?, toNat_ofNat_of_lt (by omega), if_neg (by omega), if_pos hn]

theorem announce?_three (h : 0xE0 ≤ n) (hn : n < 0xF0) : announce? pos (.ofNat n) =
    some ⟨pos, .ofNat n, n - 0xE0, 2, if n = 0xE0 then 0xA0 else 0x80, if n = 0xED then 0x9F else 0xBF⟩ := by
  rw [announce?, toNat_ofNat_of_lt (by omega), if_neg (by omega), if_neg (by omega), if_pos hn]

theorem announce?_four (h : 0xF0 ≤ n) (hn : n < 0xF5) : announce? pos (.ofNat n) =
    some ⟨pos, .ofNat n, n - 0xF0, 3, if n = 0xF0 then 0x90 else 0x80, if n = 0xF4 then 0x8F else 0xBF⟩ := by
  rw [announce?, toNat_ofNat_of_lt (by omega), if_neg (by omega), if_neg (by omega), if_neg (by omega), if_pos hn]

end

/-! ## Characters and texts -/

/-- The bytes of a character are read as the character. -/
theorem decodeFrom_encodeChar (c : Char) (pos : Nat) (read : Text) (rest : List UInt8) : ∃ pos',
    decodeFrom pos none read (encodeChar c ++ rest) = decodeFrom pos' none (c :: read) rest := by
  have hvalid := toNat_valid c
  have hc := Char.ofNat_toNat c
  unfold encodeChar
  generalize c.toNat = n at hvalid hc
  subst hc
  dsimp only
  split
  case isTrue h => exact ⟨_, decodeFrom_ascii h⟩
  case isFalse h =>
    split
    case isTrue h2 =>
      have hbits : (0xC0 + n / 0x40 - 0xC0) * 0x40 + (0x80 + n % 0x40 - 0x80) = n := by omega
      refine ⟨pos + 1 + 1, ?_⟩
      rw [List.cons_append, List.singleton_append,
        decodeFrom_lead (by omega) (by omega) (announce?_two (by omega) (by omega)),
        decodeFrom_last (by omega) (by omega) (by omega), hbits]
    case isFalse h2 =>
      split
      case isTrue h3 =>
        have hbits : ((0xE0 + n / 0x1000 - 0xE0) * 0x40 + (0x80 + n / 0x40 % 0x40 - 0x80)) * 0x40 +
            (0x80 + n % 0x40 - 0x80) = n := by omega
        refine ⟨pos + 1 + 1 + 1, ?_⟩
        rw [List.cons_append, List.cons_append, List.singleton_append,
          decodeFrom_lead (by omega) (by omega) (announce?_three (by omega) (by omega)),
          decodeFrom_more (by split <;> omega) (by split <;> omega) (by omega),
          decodeFrom_last (by omega) (by omega) (by omega), hbits]
      case isFalse h3 =>
        have hbits : (((0xF0 + n / 0x40000 - 0xF0) * 0x40 + (0x80 + n / 0x1000 % 0x40 - 0x80)) * 0x40 +
            (0x80 + n / 0x40 % 0x40 - 0x80)) * 0x40 + (0x80 + n % 0x40 - 0x80) = n := by omega
        refine ⟨pos + 1 + 1 + 1 + 1, ?_⟩
        rw [List.cons_append, List.cons_append, List.cons_append, List.singleton_append,
          decodeFrom_lead (by omega) (by omega) (announce?_four (by omega) (by omega)),
          decodeFrom_more (by split <;> omega) (by split <;> omega) (by omega),
          decodeFrom_more (by omega) (by omega) (by omega), decodeFrom_last (by omega) (by omega) (by omega), hbits]

theorem decodeFrom_encode (t : Text) (pos : Nat) (read : Text) :
    decodeFrom pos none read (encode t) = .ok (read.reverse ++ t) := by
  induction t generalizing pos read with
  | nil => simp [encode, decodeFrom]
  | cons c t ih =>
    obtain ⟨pos', hread⟩ := decodeFrom_encodeChar c pos read (encode t)
    show decodeFrom pos none read (encodeChar c ++ encode t) = _
    rw [hread, ih]
    simp

theorem decode_encode (t : Text) : decode (encode t) = .ok t := decodeFrom_encode t 0 []

theorem encodeChar_eq (c : Char) : encodeChar c = String.utf8EncodeChar c := by
  have hvalid := toNat_valid c
  have hval : c.val.toNat = c.toNat := rfl
  unfold encodeChar String.utf8EncodeChar
  rw [hval]
  generalize c.toNat = n at hvalid
  dsimp only
  by_cases h1 : n < 0x80
  · rw [if_pos h1, if_pos (by omega)]
  by_cases h2 : n < 0x800
  · rw [if_neg h1, if_pos h2, if_neg (by omega), if_pos (by omega),
      show n / 0x40 % 32 + 192 = 0xC0 + n / 0x40 by omega, Nat.add_comm (n % 64)]
  by_cases h3 : n < 0x10000
  · rw [if_neg h1, if_neg h2, if_pos h3, if_neg (by omega), if_neg (by omega), if_pos (by omega),
      show n / 4096 % 16 + 224 = 0xE0 + n / 0x1000 by omega, Nat.add_comm (n / 64 % 64), Nat.add_comm (n % 64)]
  · rw [if_neg h1, if_neg h2, if_neg h3, if_neg (by omega), if_neg (by omega), if_neg (by omega),
      show n / 262144 % 8 + 240 = 0xF0 + n / 0x40000 by omega, Nat.add_comm (n / 4096 % 64), Nat.add_comm (n / 64 % 64),
      Nat.add_comm (n % 64)]

/-- The bytes of a text are read as the text. -/
theorem decode_flatMap (t : Text) : decode (t.flatMap String.utf8EncodeChar) = .ok t := by
  rw [← funext encodeChar_eq]
  exact decode_encode t

end Stylesheet.Text.Utf8
