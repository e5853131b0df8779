/-
  Stylesheet.Part — what a stylesheet is cut into.

  A segment is a literal, which stands for itself, or a part: a selector of a rule, a reference to a variable, a custom
  property declared in the root block, or the text of a url.
-/

import Stylesheet.Text.Quoted

namespace Stylesheet

/-! ## Kinds -/

inductive Kind where
  | selector
  | var
  | property
  | url
  deriving DecidableEq, Repr

namespace Kind

def all : List Kind := [.selector, .var, .property, .url]

def name : Kind → Text
  | .selector => "SELECTOR".toList
  | .var => "VARIABLE".toList
  | .property => "PROPERTY".toList
  | .url => "URL".toList

/-- The name in lower case, as messages and the command line spell it. -/
def label : Kind → Text
  | .selector => "selector".toList
  | .var => "variable".toList
  | .property => "property".toList
  | .url => "url".toList

def code : Kind → Nat
  | .selector => 1
  | .var => 2
  | .property => 3
  | .url => 4

def ofName? (t : Text) : Option Kind := all.find? (·.name == t)

def ofLabel? (t : Text) : Option Kind := all.find? (·.label == t)

def ofCode? (n : Nat) : Option Kind := all.find? (·.code == n)

@[simp] theorem ofName?_name (k : Kind) : ofName? k.name = some k := by cases k <;> decide

@[simp] theorem ofLabel?_label (k : Kind) : ofLabel? k.label = some k := by cases k <;> decide

@[simp] theorem ofCode?_code (k : Kind) : ofCode? k.code = some k := by cases k <;> decide

end Kind

/-! ## Parts and segments -/

/-- A custom property; the name is kept without the two dashes in front of it. -/
structure Property where
  name : Text
  value : Text
  deriving DecidableEq, Repr

inductive Value where
  | text (t : Text)
  | property (p : Property)
  deriving DecidableEq, Repr

/-- `escape` marks a variable reference inside an attribute value or a quoted string. -/
structure Part where
  kind : Kind
  value : Value
  escape : Bool
  deriving DecidableEq, Repr

inductive Segment where
  | literal (t : Text)
  | part (p : Part)
  deriving DecidableEq, Repr

namespace Property

def display (p : Property) : Text :=
  "Property(name=".toList ++ Text.quoted p.name ++ ", value=".toList ++ Text.quoted p.value ++ [')']

def declaration (p : Property) : Text := '-' :: '-' :: p.name ++ ':' :: ' ' :: p.value

end Property

namespace Value

def display : Value → Text
  | .text t => t
  | .property p => p.display

def quoted : Value → Text
  | .text t => Text.quoted t
  | .property p => p.display

end Value

namespace Segment

def part? : Segment → Option Part
  | .literal _ => none
  | .part p => some p

end Segment

def parts (segments : List Segment) : List Part := segments.filterMap Segment.part?

@[simp] theorem parts_nil : parts [] = [] := rfl

@[simp] theorem parts_literal (t : Text) (rest : List Segment) : parts (.literal t :: rest) = parts rest := rfl

@[simp] theorem parts_part (p : Part) (rest : List Segment) : parts (.part p :: rest) = p :: parts rest := rfl

theorem parts_append (a b : List Segment) : parts (a ++ b) = parts a ++ parts b := List.filterMap_append

end Stylesheet
