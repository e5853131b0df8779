/-
  Stylesheet.Pass.Urls — urls exchanged for others.
-/

import Stylesheet.Pass.Basic

namespace Stylesheet

def mapUrls (f : Text → Text) (segments : List Segment) : List Segment :=
  segments.map (revalue .url fun v => .text (f v.display))

inductive Exchange where
  | before (t : Text)
  | after (t : Text)
  | each (old new : Text)
  | always (t : Text)
  deriving DecidableEq, Repr

def Exchange.apply : Exchange → Text → Text
  | .before t, u => t ++ u
  | .after t, u => u ++ t
  | .each old new, u => Text.replace old new u
  | .always t, _ => t

end Stylesheet
