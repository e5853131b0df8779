/-
  Stylesheet.Occurrence.Declaration — the custom properties of the root block.

  The root block belongs to the first opening brace that has `:root`, in either case, before it on the same line and
  after any earlier opening brace. It runs to the next closing brace; where there is none, the text has no root block.
  Its pieces between semicolons are declarations: a colon with a name before it and a value after it. Any other piece
  that is not blank is noted as incomplete.
-/

import Stylesheet.Diagnostic
import Stylesheet.Text.Blank

namespace Stylesheet.Declaration

/-! ## The root block -/

structure Block where
  /-- The offset of the body, right after the opening brace. -/
  base : Nat
  body : Text
  deriving DecidableEq, Repr

def isRoot (t : Text) : Bool := (Text.afterWord? [':', 'r', 'o', 'o', 't'] t).isSome

/-- What follows the root block's opening brace, with its offset. `seen` tells whether `:root` was read on this line
    since the last opening brace. -/
def afterBrace? (offset : Nat) (seen : Bool) : Text → Option (Nat × Text)
  | [] => none
  | c :: t =>
    if c = '{' then if seen then some (offset + 1, t) else afterBrace? (offset + 1) false t
    else if c = '\n' then afterBrace? (offset + 1) false t
    else afterBrace? (offset + 1) (seen || isRoot (c :: t)) t

def block? (source : Text) : Option Block :=
  match afterBrace? 0 false source with
  | some (base, t) => if t.contains '}' then some ⟨base, t.takeWhile (· ≠ '}')⟩ else none
  | none => none

/-! ## Its declarations -/

def undashed : Text → Text
  | '-' :: '-' :: name => name
  | name => name

/-- The property a piece declares: its first colon parts the name from the value, and both are trimmed. -/
def property? (piece : Text) : Option Property :=
  let name := Text.trim (piece.takeWhile (· ≠ ':'))
  let value := Text.trim ((piece.dropWhile (· ≠ ':')).drop 1)
  if name.isEmpty || value.isEmpty then none else some ⟨undashed name, value⟩

def occurrence? (offset : Nat) (piece : Text) : Option Occurrence :=
  (property? piece).map fun p =>
    ⟨⟨.property, .property p, false⟩, ↑(offset + Text.indent piece), (Text.trim piece).length⟩

def note? (offset : Nat) (piece : Text) : Option Diagnostic :=
  if (property? piece).isSome || Text.allBlank piece then none
  else some (.incomplete (Text.trim piece) (offset + Text.indent piece))

def pieces (source : Text) : List (Nat × Text) :=
  match block? source with
  | some b => Text.pieces b.base ';' b.body
  | none => []

def occurrences (source : Text) : List Occurrence :=
  (pieces source).filterMap fun (offset, piece) => occurrence? offset piece

def notes (source : Text) : List Diagnostic :=
  (pieces source).filterMap fun (offset, piece) => note? offset piece

/-- A text has a place for declarations if it has a root block. -/
def hasSite (source : Text) : Bool := (block? source).isSome

end Stylesheet.Declaration
