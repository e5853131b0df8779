/-
  Stylesheet.Session — a list of segments worked on step by step.
-/

import Stylesheet.Css
import Stylesheet.Export
import Stylesheet.Parse
import Stylesheet.Pass.Sequence

namespace Stylesheet.Session

inductive Step where
  | parse (source : Text) (options : Options)
  /-- Writes the current segments as CSS and parses that. -/
  | reparse (options : Options)
  | set (segments : List Segment)
  | append (segments : List Segment)
  | merge
  | passes (passes : List Pass)
  | css
  | json

inductive Answer where
  | segments (segments : List Segment)
  | css (t : Text)
  | json (j : Json)

inductive Error where
  | parse (e : ParseError)
  | css (e : CssError)

def ofParse (result : Except ParseError Parsed) : Except Error Answer :=
  match result with
  | .ok parsed => .ok (.segments parsed.segments)
  | .error e => .error (.parse e)

def ofCss (result : Except CssError Text) : Except Error Answer :=
  match result with
  | .ok t => .ok (.css t)
  | .error e => .error (.css e)

/-- What a step answers when `current` are the segments at hand. -/
def answer (current : List Segment) : Step → Except Error Answer
  | .parse source options => ofParse (Stylesheet.parse source options)
  | .reparse options =>
    match Stylesheet.css current with
    | .ok source => ofParse (Stylesheet.parse source options)
    | .error e => .error (.css e)
  | .set segments => .ok (.segments segments)
  | .append segments => .ok (.segments (current ++ segments))
  | .merge => .ok (.segments (Stylesheet.merge current))
  | .passes passes => .ok (.segments (applyAll passes current))
  | .css => ofCss (Stylesheet.css current)
  | .json => .ok (.json (Stylesheet.json current))

/-- The segments at hand after an answer: those it has, if it has any. -/
def next (current : List Segment) : Except Error Answer → List Segment
  | .ok (.segments segments) => segments
  | _ => current

end Stylesheet.Session
