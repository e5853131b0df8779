/-
  Stylesheet.Pass.Inline — values put in place of variable references.

  A value given by the caller goes before a declared one, and of two declarations of a name the last one counts. A
  reference marked for escaping gets the percent-encoded value. References to unknown names stay.
-/

import Stylesheet.Merge
import Stylesheet.Text.Percent

namespace Stylesheet

def Segment.declared? : Segment → Option (Text × Text)
  | .part ⟨_, .property p, _⟩ => some (p.name, p.value)
  | _ => none

def declarations (segments : List Segment) : List (Text × Text) := segments.filterMap Segment.declared?

/-- The values known to a pass, those that count first in front. -/
def known (values : List (Text × Text)) (useDeclared : Bool) (segments : List Segment) : List (Text × Text) :=
  values ++ if useDeclared then (declarations segments).reverse else []

def Segment.inline (table : List (Text × Text)) : Segment → Segment
  | .part ⟨.var, .text name, escape⟩ =>
    match table.lookup name with
    | some value => .literal (if escape then Text.Percent.encode value else value)
    | none => .part ⟨.var, .text name, escape⟩
  | s => s

/-- Puts values in place of references, and joins the literals that meet. -/
def inline (values : List (Text × Text)) (useDeclared : Bool) (segments : List Segment) : List Segment :=
  merge (segments.map (Segment.inline (known values useDeclared segments)))

end Stylesheet
