/-
  Stylesheet.Occurrence.Basic — a part together with the stretch of source text it was found at.
-/

import Stylesheet.Part

namespace Stylesheet

/-- Offsets and lengths found in a text are natural numbers; those of a caller may be any. -/
structure Occurrence where
  part : Part
  offset : Int
  length : Int
  deriving DecidableEq, Repr

def Occurrence.stop (o : Occurrence) : Int := o.offset + o.length

end Stylesheet
