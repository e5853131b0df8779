/-
  Stylesheet.Text.Percent — percent-encoding.

  ASCII letters, digits and `_ . - ~` stand for themselves; every other byte of the text's UTF-8 form is written as a
  percent sign and two upper-case hexadecimal digits. `decode` reads such a text back.
-/

import Stylesheet.Text.Utf8

namespace Stylesheet.Text.Percent

def isPlain (c : Char) : Bool := c.isAlphanum || c == '_' || c == '.' || c == '-' || c == '~'

def encodeByte (b : UInt8) : Text :=
  let c := Char.ofNat b.toNat
  if isPlain c then [c] else '%' :: Hex.upper 2 b.toNat

def encode (t : Text) : Text := (Utf8.encode t).flatMap encodeByte

def bytes? : Text → Option (List UInt8)
  | [] => some []
  | '%' :: h :: l :: t => do
    let high ← Hex.digit? h
    let low ← Hex.digit? l
    let rest ← bytes? t
    some (.ofNat (high * 16 + low) :: rest)
  | c :: t => if isPlain c then (bytes? t).map (.ofNat c.toNat :: ·) else none

def decode? (t : Text) : Option Text := (bytes? t).bind fun bytes => (Utf8.decode bytes).toOption

end Stylesheet.Text.Percent
