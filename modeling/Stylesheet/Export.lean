/-
  Stylesheet.Export — segments as data for other programs.

  A literal is exported as a string, a part as an object with the code of its kind and its value; a part marked for
  escaping says so. `ofJson?` reads such data back. A module is a line of JavaScript that exports the compact form.
-/

import Stylesheet.Json.Basic
import Stylesheet.Part

namespace Stylesheet

def typeField : Text := ['t', 'y', 'p', 'e']

def nameField : Text := ['n', 'a', 'm', 'e']

def valueField : Text := ['v', 'a', 'l', 'u', 'e']

def encodeField : Text := ['e', 'n', 'c', 'o', 'd', 'e']

def Value.json : Value → Json
  | .text t => .text t
  | .property p => .object [(nameField, .text p.name), (valueField, .text p.value)]

def Part.json (p : Part) : Json :=
  .object ([(typeField, .number p.kind.code), (valueField, p.value.json)] ++
    if p.escape then [(encodeField, .bool true)] else [])

def Segment.json : Segment → Json
  | .literal t => .text t
  | .part p => p.json

def json (segments : List Segment) : Json := .list (segments.map Segment.json)

/-! ## Reading back -/

def Value.ofJson? : Json → Option Value
  | .text t => some (.text t)
  | .object [(n, .text name), (v, .text value)] =>
    if n = nameField ∧ v = valueField then some (.property ⟨name, value⟩) else none
  | _ => none

def escapeOfJson? : List (Text × Json) → Option Bool
  | [] => some false
  | [(e, .bool true)] => if e = encodeField then some true else none
  | _ => none

def Part.ofJson? : Json → Option Part
  | .object ((t, .number (.ofNat code)) :: (v, value) :: more) =>
    if t = typeField ∧ v = valueField then do
      let kind ← Kind.ofCode? code
      let value ← Value.ofJson? value
      let escape ← escapeOfJson? more
      some ⟨kind, value, escape⟩
    else none
  | _ => none

def Segment.ofJson? : Json → Option Segment
  | .text t => some (.literal t)
  | j => (Part.ofJson? j).map .part

/-- The segments that exported data stand for. -/
def ofJson? : Json → Option (List Segment)
  | .list items => items.mapM Segment.ofJson?
  | _ => none

@[simp] theorem Value.ofJson?_json (v : Value) : Value.ofJson? v.json = some v := by
  cases v <;> simp [Value.json, Value.ofJson?]

@[simp] theorem Part.ofJson?_json (p : Part) : Part.ofJson? p.json = some p := by
  obtain ⟨kind, value, escape⟩ := p
  cases escape <;> simp [Part.json, Part.ofJson?, escapeOfJson?]

@[simp] theorem Segment.ofJson?_json (s : Segment) : Segment.ofJson? s.json = some s := by
  cases s with
  | literal t => rfl
  | part p =>
    show (Part.ofJson? p.json).map Segment.part = some (.part p)
    rw [Part.ofJson?_json]
    rfl

theorem ofJson?_json (segments : List Segment) : ofJson? (json segments) = some segments := by
  show (segments.map Segment.json).mapM Segment.ofJson? = some segments
  induction segments with
  | nil => rfl
  | cons s rest ih => simp [List.mapM_cons, ih]

/-! ## Modules -/

def moduleText (segments : List Segment) : Text :=
  "module.exports = ".toList ++ (json segments).write .compact 0

end Stylesheet
