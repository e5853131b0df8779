/-
  Stylesheet.Text.Blank — blank characters, and trimming.

  The blanks are the white space and line separators of Unicode; U+180E, U+200B, U+2060 and U+FEFF are not among them.
-/

import Stylesheet.Text.Basic

namespace Stylesheet.Text

def isBlank (c : Char) : Bool :=
  let n := c.toNat
  (0x09 ≤ n && n ≤ 0x0D) || (0x1C ≤ n && n ≤ 0x20) || n == 0x85 || n == 0xA0 || n == 0x1680 ||
    (0x2000 ≤ n && n ≤ 0x200A) || n == 0x2028 || n == 0x2029 || n == 0x202F || n == 0x205F || n == 0x3000

def allBlank (t : Text) : Bool := t.all isBlank

def indent (t : Text) : Nat := (t.takeWhile isBlank).length

def trimStart (t : Text) : Text := t.dropWhile isBlank

def trimEnd (t : Text) : Text := (t.reverse.dropWhile isBlank).reverse

def trim (t : Text) : Text := trimEnd (trimStart t)

end Stylesheet.Text
