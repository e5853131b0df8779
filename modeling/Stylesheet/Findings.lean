/-
  Stylesheet.Findings — everything that is recognised in a text.

  Each kind of part is looked for in the whole text, by itself. Findings come kind by kind; whether they overlap is
  settled later.
-/

import Stylesheet.Occurrence.Selector
import Stylesheet.Occurrence.Variable
import Stylesheet.Occurrence.Declaration
import Stylesheet.Occurrence.Url

namespace Stylesheet

namespace Kind

def occurrences : Kind → Text → List Occurrence
  | .selector => Selector.occurrences
  | .var => Variable.occurrences
  | .property => Declaration.occurrences
  | .url => Url.occurrences

def notes : Kind → Text → List Diagnostic
  | .property => Declaration.notes
  | _ => fun _ => []

/-- Whether the search for a kind finds a place to look at, be there an occurrence or not. -/
def hasSite : Kind → Text → Bool
  | .selector => Selector.hasSite
  | .property => Declaration.hasSite
  | kind => fun source => !(kind.occurrences source).isEmpty

/-- The kinds asked for, in the order in which they are looked for. -/
def ordered (kinds : List Kind) : List Kind := all.filter kinds.contains

end Kind

structure Findings where
  occurrences : List Occurrence
  notes : List Diagnostic
  deriving DecidableEq, Repr

def findings (source : Text) (kinds : List Kind) : Findings where
  occurrences := (Kind.ordered kinds).flatMap (·.occurrences source)
  notes := (Kind.ordered kinds).flatMap (·.notes source)

end Stylesheet
