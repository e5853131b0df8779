/-
  Stylesheet.Occurrence.Selector — the selectors in front of each opening brace.

  A selector list stands between an anchor and an opening brace and has list characters only. Anchors are the start of
  the text, a closing brace and a line end; the list starts at the first anchor from which list characters lead up to
  the brace without a gap. Each entry between commas is a selector, except `:root`, `from` and `to`.
-/

import Stylesheet.Occurrence.Basic
import Stylesheet.Text.Blank

namespace Stylesheet.Selector

/-- The characters a selector list may have: letters and digits of ASCII and those named here. -/
def isListChar (c : Char) : Bool :=
  c.isAlphanum ||
    [' ', '=', '_', ',', '+', '^', '*', '$', '"', '\'', '>', '\t', '\r', '\n', '[', ']', '(', ')', ':', '-', '.',
      '#'].contains c

/-- Entries of a selector list that name no selector of their own. -/
def isIgnored (entry : Text) : Bool :=
  [[], [':', 'r', 'o', 'o', 't'], ['f', 'r', 'o', 'm'], ['t', 'o']].contains entry

/-! ## Selector lists -/

/-- The list after one more character, in reverse, if there is an anchor for it. A line end is an anchor only where no
    earlier one reaches it. -/
def extend (list : Option Text) (c : Char) : Option Text :=
  if c = '}' then some []
  else if isListChar c then
    match list with
    | some read => some (c :: read)
    | none => if c = '\n' then some [] else none
  else none

/-- Where the pass stands: the offset, and the list read since its anchor, in reverse, if there is one. -/
structure Reading where
  offset : Nat
  list : Option Text

/-- The list that ends at an opening brace, with the offset of its start. -/
def Reading.list? (r : Reading) : Option (Nat × Text) :=
  match r.list with
  | some (c :: read) => some (r.offset - (read.length + 1), (c :: read).reverse)
  | _ => none

def step (r : Reading) (c : Char) (_ : Text) : Reading × List (Nat × Text) :=
  (⟨r.offset + 1, extend r.list c⟩, if c = '{' then r.list?.toList else [])

def lists (source : Text) : List (Nat × Text) := scan step ⟨0, some []⟩ source

/-! ## Their entries -/

def entry? (offset : Nat) (entry : Text) : Option Occurrence :=
  let name := Text.trim entry
  if isIgnored name then none
  else some ⟨⟨.selector, .text name, false⟩, ↑(offset + Text.indent entry), name.length⟩

def entries (base : Nat) (list : Text) : List Occurrence :=
  (Text.pieces base ',' list).filterMap fun (offset, entry) => entry? offset entry

def occurrences (source : Text) : List Occurrence :=
  (lists source).flatMap fun (base, list) => entries base list

/-- A text has a place for selectors wherever it has an opening brace. -/
def hasSite (source : Text) : Bool := source.contains '{'

end Stylesheet.Selector
