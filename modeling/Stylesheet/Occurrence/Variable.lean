/-
  Stylesheet.Occurrence.Variable — references `var(--name)`.

  The word `var` stands in either case, and a name has letters and digits only. A reference is marked for escaping if
  an equals sign stands two characters before it, as in `attr='var(--x)'`, or a single quote right after it.
-/

import Stylesheet.Occurrence.Basic

namespace Stylesheet.Variable

/-- The letters and digits of ASCII, and the four characters that equal one of them when case is ignored: dotted
    capital I, dotless small i, long s and the kelvin sign. -/
def isNameChar (c : Char) : Bool :=
  c.isAlphanum || ['\u0130', '\u0131', '\u017f', '\u212a'].contains c

/-- The name of the reference a text starts with, and what follows the reference. -/
def token? (t : Text) : Option (Text × Text) :=
  match Text.afterWord? ['v', 'a', 'r', '(', '-', '-'] t with
  | none => none
  | some rest =>
    match rest.takeWhile isNameChar, rest.dropWhile isNameChar with
    | c :: name, ')' :: after => some (c :: name, after)
    | _, _ => none

/-- Where the pass stands: the offset, the character just read and the one before it. -/
structure Reading where
  offset : Nat
  last : Option Char
  older : Option Char

def occurrence? (r : Reading) (t : Text) : Option Occurrence :=
  match token? t with
  | some (name, after) =>
    some ⟨⟨.var, .text name, r.older == some '=' || after.head? == some '\''⟩, r.offset, ↑(name.length + 7)⟩
  | none => none

def step (r : Reading) (c : Char) (rest : Text) : Reading × List Occurrence :=
  (⟨r.offset + 1, some c, r.last⟩, (occurrence? r (c :: rest)).toList)

def occurrences (source : Text) : List Occurrence := scan step ⟨0, none, none⟩ source

end Stylesheet.Variable
