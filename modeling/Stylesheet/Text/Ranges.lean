/-
  Stylesheet.Text.Ranges — classes of characters given as ranges of code points.
-/

import Stylesheet.Text.Basic

namespace Stylesheet.Text

/-- Ranges of code points in increasing order, both ends included. -/
abbrev Ranges := Array (Nat × Nat)

def Ranges.has (ranges : Ranges) (n : Nat) : Bool := (ranges.binSearch (n, n) fun a b => a.2 < b.1).isSome

end Stylesheet.Text
