/-
  Stylesheet.Raw — segments whose texts are sequences of code points.

  A segment may come from outside, where nothing keeps a surrogate from standing alone in a text. Raw segments have the
  shape of segments and are exported in the same way; `Segment.raw` is the raw form of a segment, whose texts have
  characters only.
-/

import Stylesheet.Export
import Stylesheet.Text.CodePoint

namespace Stylesheet

namespace Raw

inductive Value where
  | text (t : List CodePoint)
  | property (name value : List CodePoint)
  deriving DecidableEq, Repr

inductive Segment where
  | literal (t : List CodePoint)
  | part (kind : Kind) (value : Value) (escape : Bool)
  deriving DecidableEq, Repr

/-! ## Export -/

def field (name value : Text) : Text := Json.string name ++ ':' :: value

def Value.compact : Value → Text
  | .text t => CodePoint.string t
  | .property name value =>
    Json.bracketed .compact 0 '{' '}'
      [field nameField (CodePoint.string name), field valueField (CodePoint.string value)]

def Segment.compact : Segment → Text
  | .literal t => CodePoint.string t
  | .part kind value escape =>
    Json.bracketed .compact 0 '{' '}'
      ([field typeField (Text.ofNat kind.code), field valueField value.compact] ++
        if escape then [field encodeField ['t', 'r', 'u', 'e']] else [])

def compact (segments : List Segment) : Text := Json.bracketed .compact 0 '[' ']' (segments.map Segment.compact)

end Raw

def Value.raw : Value → Raw.Value
  | .text t => .text (t.map CodePoint.ofChar)
  | .property p => .property (p.name.map CodePoint.ofChar) (p.value.map CodePoint.ofChar)

def Segment.raw : Segment → Raw.Segment
  | .literal t => .literal (t.map CodePoint.ofChar)
  | .part p => .part p.kind p.value.raw p.escape

end Stylesheet
