/-
  Stylesheet.Json.Basic — JSON values and how they are written.

  The text is pure ASCII: a character outside U+0020 to U+007E is written as one escape of four hexadecimal digits, or
  as two where it lies above U+FFFF. Fields keep their order. Numbers are whole numbers.
-/

import Stylesheet.Text.Hex

namespace Stylesheet

inductive Json where
  | null
  | bool (b : Bool)
  | number (n : Int)
  | text (t : Text)
  | list (items : List Json)
  | object (fields : List (Text × Json))

namespace Json

/-! ## Strings -/

def escapeUnit (n : Nat) : Text := '\\' :: 'u' :: Text.Hex.lower 4 n

def shortEscape? (c : Char) : Option Char :=
  if c = '"' then some '"'
  else if c = '\\' then some '\\'
  else if c = '\n' then some 'n'
  else if c = '\r' then some 'r'
  else if c = '\t' then some 't'
  else if c = '\x0c' then some 'f'
  else if c = '\x08' then some 'b'
  else none

def escapeChar (c : Char) : Text :=
  match shortEscape? c with
  | some letter => ['\\', letter]
  | none =>
    let n := c.toNat
    if 0x20 ≤ n ∧ n < 0x7F then [c]
    else if n < 0x10000 then escapeUnit n
    else escapeUnit (0xD800 + (n - 0x10000) / 0x400) ++ escapeUnit (0xDC00 + (n - 0x10000) % 0x400)

def string (t : Text) : Text := '"' :: t.flatMap escapeChar ++ ['"']

/-! ## Values -/

/-- How a value is spread out: what stands at each line break of a given depth, and after a field's name. -/
structure Style where
  lineBreak : Nat → Text
  colon : Text

def Style.compact : Style := ⟨fun _ => [], [':']⟩

def Style.indented : Style := ⟨fun depth => '\n' :: List.replicate (2 * depth) ' ', [':', ' ']⟩

def bracketed (style : Style) (depth : Nat) (opening closing : Char) (items : List Text) : Text :=
  if items.isEmpty then [opening, closing]
  else
    opening :: style.lineBreak (depth + 1) ++ List.intercalate (',' :: style.lineBreak (depth + 1)) items ++
      style.lineBreak depth ++ [closing]

/-- A value as text, inside `depth` brackets. -/
def write (style : Style) (depth : Nat) : Json → Text
  | .null => ['n', 'u', 'l', 'l']
  | .bool true => ['t', 'r', 'u', 'e']
  | .bool false => ['f', 'a', 'l', 's', 'e']
  | .number n => Text.ofInt n
  | .text t => string t
  | .list items => bracketed style depth '[' ']' (items.map fun item => write style (depth + 1) item)
  | .object fields =>
    bracketed style depth '{' '}'
      (fields.map fun field => string field.1 ++ style.colon ++ write style (depth + 1) field.2)
termination_by v => sizeOf v
decreasing_by
  · simp only [list.sizeOf_spec]
    have := List.sizeOf_lt_of_mem ‹item ∈ items›
    omega
  · simp only [object.sizeOf_spec]
    have := List.sizeOf_lt_of_mem ‹field ∈ fields›
    cases field
    simp only [Prod.mk.sizeOf_spec] at *
    omega

theorem write_list (style : Style) (depth : Nat) (items : List Json) :
    write style depth (.list items) = bracketed style depth '[' ']' (items.map (write style (depth + 1))) := by
  rw [write]

theorem write_object (style : Style) (depth : Nat) (fields : List (Text × Json)) :
    write style depth (.object fields) =
      bracketed style depth '{' '}'
        (fields.map fun field => string field.1 ++ style.colon ++ write style (depth + 1) field.2) := by
  rw [write]

end Json

end Stylesheet
