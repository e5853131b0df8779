/-
  Stylesheet.Occurrence.Url — the texts inside `url(...)`.

  A url is the word `url` in either case, blanks, an opening parenthesis, blanks, a quote or none, the text, a quote or
  none, blanks and a closing parenthesis. The text is not empty and has no parenthesis, quote or line end; the two
  quotes need not agree. Before the word, a colon stands on the same line, and no url lies between the two.
-/

import Stylesheet.Occurrence.Basic
import Stylesheet.Text.Blank

namespace Stylesheet.Url

def isQuote (c : Char) : Bool := c == '\'' || c == '"'

def isTextChar (c : Char) : Bool := !(c == '(' || c == ')' || isQuote c || c == '\n')

/-- A url cut at the two ends of its text. -/
structure Form where
  lead : Text
  text : Text
  trail : Text
  deriving DecidableEq, Repr

namespace Form

def spelling (f : Form) : Text := f.lead ++ f.text ++ f.trail

end Form

def quote (t : Text) : Text := (t.take 1).filter isQuote

/-- The end of a url at the start of a text: a quote or none, blanks, a closing parenthesis. -/
def trail? (t : Text) : Option Text :=
  let mark := quote t
  let gap := (t.drop mark.length).takeWhile Text.isBlank
  match t.drop (mark.length + gap.length) with
  | ')' :: _ => some (mark ++ gap ++ [')'])
  | _ => none

def running? (lead t : Text) : Option Form :=
  let text := t.takeWhile isTextChar
  if text.isEmpty then none else (trail? (t.drop text.length)).map fun trail => ⟨lead, text, trail⟩

/-- The url whose text is the last blank of `pad` that is no line end. -/
def blank? (lead pad t : Text) : Option Form :=
  let ends := pad.reverse.takeWhile (· == '\n')
  match pad.reverse.drop ends.length with
  | [] => none
  | c :: before => (trail? (ends ++ t)).map fun trail => ⟨lead ++ before.reverse, [c], trail⟩

/-- The url after `lead`, which ends in the opening parenthesis. Blanks and a quote belong to the lead as far as they
    can; where no text is left then, the last blank is the text. -/
def inside? (lead t : Text) : Option Form :=
  let pad := t.takeWhile Text.isBlank
  let rest := t.drop pad.length
  let mark := quote rest
  match running? (lead ++ pad ++ mark) (rest.drop mark.length) with
  | some f => some f
  | none => blank? lead pad rest

def form? (t : Text) : Option Form :=
  match Text.afterWord? ['u', 'r', 'l'] t with
  | none => none
  | some rest =>
    let gap := rest.takeWhile Text.isBlank
    match rest.drop gap.length with
    | '(' :: inner => inside? (t.take 3 ++ gap ++ ['(']) inner
    | _ => none

/-! ## Urls in a text -/

/-- A url in its place: the offsets of the colon before it and of its word. -/
structure Site where
  colon : Nat
  word : Nat
  form : Form
  deriving DecidableEq, Repr

namespace Site

def stop (s : Site) : Nat := s.word + s.form.spelling.length

def occurrence (s : Site) : Occurrence :=
  ⟨⟨.url, .text s.form.text, false⟩, ↑(s.word + s.form.lead.length), s.form.text.length⟩

end Site

/-- Where the pass stands: the offset, the last colon on this line since the last url, and how many characters still
    belong to that url. -/
structure Reading where
  offset : Nat
  colon : Option Nat
  skip : Nat

def Reading.site? (r : Reading) (t : Text) : Option Site :=
  match r.colon with
  | some colon => (form? t).map fun form => ⟨colon, r.offset, form⟩
  | none => none

def step (r : Reading) (c : Char) (rest : Text) : Reading × List Site :=
  match r.skip with
  | skip + 1 => (⟨r.offset + 1, none, skip⟩, [])
  | 0 =>
    match r.site? (c :: rest) with
    | some s => (⟨r.offset + 1, none, s.form.spelling.length - 1⟩, [s])
    | none => (⟨r.offset + 1, if c = ':' then some r.offset else if c = '\n' then none else r.colon, 0⟩, [])

/-- The urls of a text, from the left and without overlap. -/
def sites (source : Text) : List Site := scan step ⟨0, none, 0⟩ source

def occurrences (source : Text) : List Occurrence := (sites source).map Site.occurrence

end Stylesheet.Url
