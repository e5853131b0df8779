/-
  Stylesheet.Text.Hex — hexadecimal numerals of a fixed width.
-/

import Stylesheet.Text.Basic

namespace Stylesheet.Text.Hex

/-- The last `width` hexadecimal digits of a number, in lower case. -/
def lower : Nat → Nat → Text
  | 0, _ => []
  | width + 1, n => lower width (n / 16) ++ [Nat.digitChar (n % 16)]

def upper (width n : Nat) : Text := (lower width n).map Char.toUpper

def digit? (c : Char) : Option Nat :=
  if '0' ≤ c ∧ c ≤ '9' then some (c.toNat - '0'.toNat)
  else if 'a' ≤ c ∧ c ≤ 'f' then some (c.toNat - 'a'.toNat + 10)
  else if 'A' ≤ c ∧ c ≤ 'F' then some (c.toNat - 'A'.toNat + 10)
  else none

end Stylesheet.Text.Hex
