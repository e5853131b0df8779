/-
  Stylesheet.Diagnostic — findings about a text that do not stop its parsing.
-/

import Stylesheet.Occurrence.Basic

namespace Stylesheet

inductive Severity where
  | warning
  | info
  deriving DecidableEq, Repr

namespace Severity

def name : Severity → Text
  | .warning => "WARNING".toList
  | .info => "INFO".toList

def ofName? (t : Text) : Option Severity := [warning, info].find? (·.name == t)

end Severity

structure Diagnostic where
  rule : Text
  severity : Severity
  message : Text
  offset : Option Int
  kind : Option Kind
  deriving DecidableEq, Repr

namespace Diagnostic

def isWarning (d : Diagnostic) : Bool := d.severity == .warning

def display (d : Diagnostic) : Text :=
  let location :=
    match d.offset with
    | some offset => " [offset=".toList ++ Text.ofInt offset ++ [']']
    | none => []
  d.severity.name ++ location ++ ": ".toList ++ d.message

/-- The note about a declaration that lacks its name or its value. -/
def incomplete (declaration : Text) (offset : Nat) : Diagnostic where
  rule := "incomplete_declaration".toList
  severity := .info
  message := "Skipped declaration without name or value: ".toList ++ Text.quoted declaration
  offset := some offset
  kind := some .property

/-- The note about an occurrence that starts inside an earlier one. -/
def overlap (o : Occurrence) : Diagnostic where
  rule := "overlap".toList
  severity := .warning
  message := o.part.kind.label ++ [' '] ++ o.part.value.quoted ++ " overlaps an earlier part and was dropped".toList
  offset := some o.offset
  kind := some o.part.kind

end Diagnostic

end Stylesheet
