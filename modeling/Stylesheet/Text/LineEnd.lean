/-
  Stylesheet.Text.LineEnd — one spelling of the line end.
-/

import Stylesheet.Text.Basic

namespace Stylesheet.Text

/-- Every carriage return with the line feed after it, and every carriage return alone, becomes a line feed. -/
def unifyLineEnds (t : Text) : Text :=
  scan (fun _ c rest => ((), if c = '\r' then (if rest.head? = some '\n' then [] else ['\n']) else [c])) () t

end Stylesheet.Text
