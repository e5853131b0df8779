/-
  Stylesheet.Text.Terminal — text on its way to a terminal that shows no colours.

  A control sequence is an escape character, an opening bracket, any number of digits, semicolons and question marks,
  and a letter.
-/

import Stylesheet.Text.Basic

namespace Stylesheet.Text.Terminal

def escape : Char := '\x1b'

def isParameter (c : Char) : Bool := c.isDigit || c == ';' || c == '?'

/-- How many characters after an escape character complete a control sequence. -/
def sequenceLength? : Text → Option Nat
  | '[' :: t =>
    let parameters := t.takeWhile isParameter
    match t.drop parameters.length with
    | c :: _ => if c.isAlpha then some (parameters.length + 2) else none
    | [] => none
  | _ => none

def plain (t : Text) : Text :=
  replaceEach (fun c rest => if c = escape then (sequenceLength? rest).map fun n => (n, []) else none) t

end Stylesheet.Text.Terminal
