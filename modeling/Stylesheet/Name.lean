/-
  Stylesheet.Name — kinds and severities read by their names.
-/

import Stylesheet.Diagnostic

namespace Stylesheet

inductive NameError where
  | kind (name : Text)
  | severity (name : Text)
  deriving DecidableEq, Repr

def NameError.message : NameError → Text
  | .kind name => Text.quoted name
  | .severity name => Text.quoted name ++ " is not a valid Severity".toList

def Kind.ofName (name : Text) : Except NameError Kind :=
  match Kind.ofName? name with
  | some kind => .ok kind
  | none => .error (.kind name)

def Severity.ofName (name : Text) : Except NameError Severity :=
  match Severity.ofName? name with
  | some severity => .ok severity
  | none => .error (.severity name)

end Stylesheet
