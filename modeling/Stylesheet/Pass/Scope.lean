/-
  Stylesheet.Pass.Scope — selectors put under an outer selector.
-/

import Stylesheet.Pass.Basic
import Stylesheet.Text.Blank

namespace Stylesheet

/-- Every selector gets the outer one, trimmed, and a space before it; a blank outer selector changes nothing. -/
def scope (outer : Text) (segments : List Segment) : List Segment :=
  let outer := Text.trim outer
  if outer.isEmpty then segments
  else segments.map (revalue .selector fun v => .text (outer ++ ' ' :: v.display))

end Stylesheet
