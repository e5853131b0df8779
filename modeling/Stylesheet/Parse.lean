/-
  Stylesheet.Parse — a text, cut into its segments.
-/

import Stylesheet.Findings
import Stylesheet.Layout

namespace Stylesheet

structure Options where
  /-- The greatest number of characters a text may have. -/
  limit : Int := 1000000
  /-- Whether literals that have only blanks are left out. -/
  dropBlank : Bool := false
  /-- The kinds of parts to look for. -/
  kinds : List Kind := Kind.all
  deriving DecidableEq, Repr

def Options.choose (options : Options) (kinds : Option (List Kind)) : Options :=
  { options with kinds := kinds.getD options.kinds }

structure Parsed where
  segments : List Segment
  diagnostics : List Diagnostic
  deriving DecidableEq, Repr

inductive ParseError where
  | tooLong (length : Nat) (limit : Int)
  /-- The search engine gave up on a kind. -/
  | exhausted (kind : Kind) (reason : Text)
  /-- A failure that is not the search engine's, passed on as it is. -/
  | foreign (reason : Text)
  deriving DecidableEq, Repr

namespace ParseError

def message : ParseError → Text
  | .tooLong length limit =>
    "Input of ".toList ++ Text.ofNat length ++ " characters exceeds the limit of ".toList ++ Text.ofInt limit ++
      " characters".toList
  | .exhausted kind reason => kind.label ++ " matcher failed: ".toList ++ reason
  | .foreign reason => reason

def kind? : ParseError → Option Kind
  | .exhausted kind _ => some kind
  | _ => none

end ParseError

def arrange (source : Text) (occurrences : List Occurrence) (dropBlank : Bool) : Parsed :=
  let judged := Layout.verdicts occurrences
  ⟨Layout.segments source judged dropBlank, Layout.warnings judged⟩

/-- Cuts a text into segments; the only way to fail is to be too long. -/
def parse (source : Text) (options : Options) : Except ParseError Parsed :=
  if options.limit < source.length then .error (.tooLong source.length options.limit)
  else
    let found := findings source options.kinds
    let arranged := arrange source found.occurrences options.dropBlank
    .ok ⟨arranged.segments, found.notes ++ arranged.diagnostics⟩

/-! ## Searches that break down -/

inductive Breakdown where
  | engine (reason : Text)
  | foreign (reason : Text)
  deriving DecidableEq, Repr

def Breakdown.error (kind : Kind) : Breakdown → ParseError
  | .engine reason => .exhausted kind reason
  | .foreign reason => .foreign reason

/-- The findings of a search in which looking at any site of `kind` fails. -/
def findingsUnder (source : Text) (kinds : List Kind) (kind : Kind) (failure : Breakdown) :
    Except ParseError Findings :=
  if kinds.contains kind && kind.hasSite source then .error (failure.error kind) else .ok (findings source kinds)

end Stylesheet
