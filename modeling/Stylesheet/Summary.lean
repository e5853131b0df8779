/-
  Stylesheet.Summary — a parsed stylesheet in numbers.
-/

import Stylesheet.Css
import Stylesheet.Parse

namespace Stylesheet

structure Summary where
  segments : Nat
  /-- The number of parts of each kind. -/
  parts : Kind → Nat
  escaped : Nat
  longestLiteral : Nat
  diagnostics : Nat
  cssLength : Nat
  /-- Whether the segments are written back as the very text they were cut from. -/
  roundTrip : Bool

def Segment.literalLength : Segment → Nat
  | .literal t => t.length
  | .part _ => 0

def summary (source : Text) (parsed : Parsed) : Except CssError Summary :=
  (css parsed.segments).map fun written =>
    let found := parts parsed.segments
    { segments := parsed.segments.length
      parts := fun kind => found.countP (·.kind == kind)
      escaped := found.countP (·.escape)
      longestLiteral := parsed.segments.foldl (fun longest s => max longest s.literalLength) 0
      diagnostics := parsed.diagnostics.length
      cssLength := written.length
      roundTrip := written == source }

end Stylesheet
