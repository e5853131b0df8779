/-
  Stylesheet.Text.Basic — texts, and how they are cut, searched and replaced.

  A text is a list of characters, so that every position counts whole characters and every function on texts is
  plain list recursion. Surrogates are no characters: a text has none (see `CodePoint` for those that may).
-/

import Stylesheet.Scan

namespace Stylesheet

abbrev Text := List Char

namespace Text

/-- No character is a surrogate. -/
theorem toNat_valid (c : Char) : c.toNat < 0xD800 ∨ 0xDFFF < c.toNat ∧ c.toNat < 0x110000 := c.valid

/-! ## Numbers -/

def ofNat (n : Nat) : Text := Nat.toDigits 10 n

def ofInt : Int → Text
  | .ofNat n => ofNat n
  | .negSucc n => '-' :: ofNat (n + 1)

/-! ## Cutting -/

/-- The place an index names in a text of `n` characters: a negative index counts from the end, and an index outside
    the text names its nearer end. -/
def place (n : Nat) (i : Int) : Nat := if i < 0 then (n + i).toNat else min n i.toNat

def slice (chars : Array Char) (first last : Int) : Text :=
  (chars.extract (place chars.size first) (place chars.size last)).toList

theorem slice_toArray (t : Text) (first last : Int) :
    slice t.toArray first last = (t.take (place t.length last)).drop (place t.length first) := by
  simp [slice, List.extract, List.drop_take]

/-- The pieces of a text between the separators, each with its offset when the text starts at `base`. -/
def pieces (base : Nat) (sep : Char) (t : Text) : List (Nat × Text) :=
  scan (fun offset piece _ => (offset + piece.length + 1, [(offset, piece)])) base (t.splitOn sep)

/-! ## Searching -/

/-- What follows a word at the start of a text, the word's letters standing in either case. The word itself is
    written in lower case; only the letters A to Z have two cases here. -/
def afterWord? : Text → Text → Option Text
  | [], t => some t
  | _ :: _, [] => none
  | w :: word, c :: t => if c.toLower = w then afterWord? word t else none

/-- Replaces what `found?` recognises, from the left and without overlap: at a place where it answers `(n, new)`, the
    `n + 1` characters that start there give way to `new`. -/
def replaceEach (found? : Char → Text → Option (Nat × Text)) : Text → Text :=
  scan (fun skip c rest =>
    match skip with
    | skip + 1 => (skip, [])
    | 0 =>
      match found? c rest with
      | some (n, new) => (n, new)
      | none => (0, [c])) 0

/-- Replaces every occurrence of `old` from the left; the empty text occurs around every character. -/
def replace (old new : Text) (t : Text) : Text :=
  match old with
  | [] => new ++ t.flatMap fun c => c :: new
  | _ :: _ => replaceEach (fun c rest => if old.isPrefixOf (c :: rest) then some (old.length - 1, new) else none) t

/-! ## Padding -/

def padRight (width : Nat) (t : Text) : Text := t ++ List.replicate (width - t.length) ' '

def line (t : Text) : Text := t ++ ['\n']

end Text

end Stylesheet
