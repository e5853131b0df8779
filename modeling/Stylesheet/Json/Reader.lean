/-
  Stylesheet.Json.Reader — JSON texts read as values.

  The reader follows the JSON grammar: white space may stand around every value, a string may use any escape, and two
  escapes of a surrogate pair make one character. Numbers with a fraction or an exponent are refused, as the values
  here are whole numbers. Each function answers what it has read and what follows that. Each step takes at least one
  character, so the length of the text bounds their number.
-/

import Stylesheet.Json.Basic

namespace Stylesheet.Json

def isSpace (c : Char) : Bool := c == ' ' || c == '\n' || c == '\r' || c == '\t'

def skipSpace (t : Text) : Text := t.dropWhile isSpace

/-! ## Strings -/

def unit? (a b c d : Char) : Option Nat := do
  let a ← Text.Hex.digit? a
  let b ← Text.Hex.digit? b
  let c ← Text.Hex.digit? c
  let d ← Text.Hex.digit? d
  some (((a * 16 + b) * 16 + c) * 16 + d)

def unescape? (letter : Char) : Option Char :=
  if letter = '"' then some '"'
  else if letter = '\\' then some '\\'
  else if letter = '/' then some '/'
  else if letter = 'n' then some '\n'
  else if letter = 'r' then some '\r'
  else if letter = 't' then some '\t'
  else if letter = 'f' then some '\x0c'
  else if letter = 'b' then some '\x08'
  else none

/-- The character of an escape that starts with the unit `n`, and what follows it. A high surrogate needs a low one
    right after it, and a low one does not stand alone. -/
def escapedUnit? (n : Nat) (t : Text) : Option (Char × Text) :=
  if 0xD800 ≤ n ∧ n < 0xDC00 then
    match t with
    | '\\' :: 'u' :: a :: b :: c :: d :: rest => do
      let low ← unit? a b c d
      if 0xDC00 ≤ low ∧ low < 0xE000 then
        some (Char.ofNat (0x10000 + (n - 0xD800) * 0x400 + (low - 0xDC00)), rest)
      else none
    | _ => none
  else if 0xDC00 ≤ n ∧ n < 0xE000 then none
  else some (Char.ofNat n, t)

def char? : Text → Option (Char × Text)
  | '\\' :: 'u' :: a :: b :: c :: d :: t => (unit? a b c d).bind fun n => escapedUnit? n t
  | '\\' :: letter :: t => (unescape? letter).map fun c => (c, t)
  | c :: t => if c.toNat < 0x20 ∨ c = '\\' then none else some (c, t)
  | [] => none

/-- A string's body up to its closing quote, and what follows that. -/
def body? : Nat → Text → Option (Text × Text)
  | 0, _ => none
  | _ + 1, '"' :: t => some ([], t)
  | fuel + 1, t => do
    let (c, t) ← char? t
    let (s, t) ← body? fuel t
    some (c :: s, t)

/-! ## Values -/

def digits? (t : Text) : Option (Nat × Text) :=
  let digits := t.takeWhile Char.isDigit
  let rest := t.dropWhile Char.isDigit
  if digits = [] ∨ (digits.head? = some '0' ∧ digits ≠ ['0']) then none
  else
    match rest.head? with
    | some '.' => none
    | some 'e' => none
    | some 'E' => none
    | _ => some (digits.foldl (fun n c => n * 10 + (c.toNat - '0'.toNat)) 0, rest)

def number? : Text → Option (Json × Text)
  | '-' :: t => (digits? t).map fun (n, t) => (.number (-n), t)
  | t => (digits? t).map fun (n, t) => (.number n, t)

def word? (t : Text) : Option (Json × Text) :=
  let word := t.takeWhile Char.isAlpha
  let rest := t.dropWhile Char.isAlpha
  if word = ['n', 'u', 'l', 'l'] then some (.null, rest)
  else if word = ['t', 'r', 'u', 'e'] then some (.bool true, rest)
  else if word = ['f', 'a', 'l', 's', 'e'] then some (.bool false, rest)
  else none

mutual

def value? : Nat → Text → Option (Json × Text)
  | 0, _ => none
  | fuel + 1, t =>
    match skipSpace t with
    | '"' :: t => (body? fuel t).map fun (s, t) => (.text s, t)
    | '[' :: t =>
      match skipSpace t with
      | ']' :: t => some (.list [], t)
      | _ => (items? fuel t).map fun (items, t) => (.list items, t)
    | '{' :: t =>
      match skipSpace t with
      | '}' :: t => some (.object [], t)
      | _ => (fields? fuel t).map fun (fields, t) => (.object fields, t)
    | t => (number? t).or (word? t)

def items? : Nat → Text → Option (List Json × Text)
  | 0, _ => none
  | fuel + 1, t => do
    let (item, t) ← value? fuel t
    match skipSpace t with
    | ']' :: t => some ([item], t)
    | ',' :: t =>
      let (items, t) ← items? fuel t
      some (item :: items, t)
    | _ => none

def fields? : Nat → Text → Option (List (Text × Json) × Text)
  | 0, _ => none
  | fuel + 1, t =>
    match skipSpace t with
    | '"' :: t => do
      let (name, t) ← body? fuel t
      match skipSpace t with
      | ':' :: t =>
        let (v, t) ← value? fuel t
        match skipSpace t with
        | '}' :: t => some ([(name, v)], t)
        | ',' :: t =>
          let (fields, t) ← fields? fuel t
          some ((name, v) :: fields, t)
        | _ => none
      | _ => none
    | _ => none

end

/-- The value a text spells, white space around it allowed. -/
def read? (t : Text) : Option Json :=
  match value? (t.length + 1) t with
  | some (v, rest) => if (skipSpace rest).isEmpty then some v else none
  | none => none

end Stylesheet.Json
