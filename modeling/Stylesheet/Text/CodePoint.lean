/-
  Stylesheet.Text.CodePoint — texts of code points.

  Where a text is not known to be well-formed Unicode it is a sequence of code points, and a surrogate may stand in it
  alone. `Text` has room for characters only. A character above U+FFFF has two UTF-16 units, a high surrogate and a low
  one, and escapes name units: so a written text does not tell such a character from the two surrogates in a row.
-/

import Stylesheet.Json.Basic

namespace Stylesheet

abbrev CodePoint := Fin 0x110000

namespace CodePoint

def ofChar (c : Char) : CodePoint where
  val := c.toNat
  isLt := by
    have := Text.toNat_valid c
    omega

def IsHigh (p : CodePoint) : Prop := 0xD800 ≤ p.val ∧ p.val < 0xDC00

def IsLow (p : CodePoint) : Prop := 0xDC00 ≤ p.val ∧ p.val < 0xE000

instance (p : CodePoint) : Decidable p.IsHigh := inferInstanceAs (Decidable (_ ∧ _))

instance (p : CodePoint) : Decidable p.IsLow := inferInstanceAs (Decidable (_ ∧ _))

/-- A surrogate is written as the escape of its unit, a character as in any text. -/
def escape (p : CodePoint) : Text :=
  if p.IsHigh ∨ p.IsLow then Json.escapeUnit p.val else Json.escapeChar (Char.ofNat p.val)

def string (t : List CodePoint) : Text := '"' :: t.flatMap escape ++ ['"']

end CodePoint

end Stylesheet
