/-
  Stylesheet.Css — segments written back as CSS.

  Literals, selectors and urls are written as they are, variable references as `var(--name)` and properties as
  `--name: value`.
-/

import Stylesheet.Part

namespace Stylesheet

inductive CssError where
  /-- A property part with a plain text for a value. -/
  | plainProperty
  deriving DecidableEq, Repr

def CssError.message : CssError → Text
  | .plainProperty => "property part value must be a Property, got str".toList

def Part.css (p : Part) : Except CssError Text :=
  match p.kind, p.value with
  | .property, .property q => .ok q.declaration
  | .property, .text _ => .error .plainProperty
  | .var, v => .ok (['v', 'a', 'r', '(', '-', '-'] ++ v.display ++ [')'])
  | .selector, v => .ok v.display
  | .url, v => .ok v.display

def Segment.css : Segment → Except CssError Text
  | .literal t => .ok t
  | .part p => p.css

/-- The CSS text of some segments; the first one that has none decides the error. -/
def css (segments : List Segment) : Except CssError Text := (segments.mapM Segment.css).map List.flatten

@[simp] theorem css_nil : css [] = .ok [] := rfl

theorem css_cons (s : Segment) (rest : List Segment) :
    css (s :: rest) = s.css.bind fun t => (css rest).map (t ++ ·) := by
  unfold css
  rw [List.mapM_cons]
  cases s.css with
  | error e => rfl
  | ok t => cases rest.mapM Segment.css <;> rfl

/-- A stylesheet, as plain text or cut into segments. -/
inductive Sheet where
  | plain (t : Text)
  | cut (segments : List Segment)
  deriving DecidableEq, Repr

def Sheet.css : Sheet → Except CssError Text
  | .plain t => .ok t
  | .cut segments => Stylesheet.css segments

end Stylesheet
