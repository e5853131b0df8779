/-
  Stylesheet.Text.Quoted — texts as messages show them.

  A quoted text stands on one line between single quotes, or between double quotes if it has a single quote and no
  double one. The quote in use, the backslash and every character that is not printable are escaped.
-/

import Stylesheet.Text.Hex
import Stylesheet.Text.Printable

namespace Stylesheet.Text

def quoteFor (t : Text) : Char := if t.contains '\'' && !t.contains '"' then '"' else '\''

def escapeIn (quote c : Char) : Text :=
  if c = quote ∨ c = '\\' then ['\\', c]
  else if c = '\n' then ['\\', 'n']
  else if c = '\r' then ['\\', 'r']
  else if c = '\t' then ['\\', 't']
  else if isPrintable c then [c]
  else if c.toNat < 0x100 then '\\' :: 'x' :: Hex.lower 2 c.toNat
  else if c.toNat < 0x10000 then '\\' :: 'u' :: Hex.lower 4 c.toNat
  else '\\' :: 'U' :: Hex.lower 8 c.toNat

def quoted (t : Text) : Text :=
  let quote := quoteFor t
  quote :: t.flatMap (escapeIn quote) ++ [quote]

end Stylesheet.Text
