/-
  Stylesheet.Pass.Basic — changes made to every part of one kind.
-/

import Stylesheet.Part

namespace Stylesheet

def revalue (kind : Kind) (f : Value → Value) : Segment → Segment
  | .literal t => .literal t
  | .part p => .part (if p.kind = kind then { p with value := f p.value } else p)

end Stylesheet
