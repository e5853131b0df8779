/-
  Stylesheet.Layout — from occurrences to segments.

  Occurrences are taken in the order of their offsets, those at the same offset in the order in which they came. One
  that starts before the end of the last kept one is dropped with a warning; the text between kept ones is literal.
-/

import Stylesheet.Diagnostic
import Stylesheet.Text.Blank

namespace Stylesheet

/-! ## Which occurrences are kept -/

inductive Verdict where
  /-- Kept, with the offset at which the text before it starts. -/
  | kept (o : Occurrence) (start : Int)
  /-- Dropped, with the offset up to which the text was taken. -/
  | dropped (o : Occurrence) (taken : Int)
  deriving DecidableEq, Repr

namespace Verdict

def kept? : Verdict → Option Occurrence
  | .kept o _ => some o
  | .dropped _ _ => none

def dropped? : Verdict → Option Occurrence
  | .kept _ _ => none
  | .dropped o _ => some o

end Verdict

namespace Layout

def sorted (occurrences : List Occurrence) : List Occurrence := occurrences.mergeSort fun a b => a.offset ≤ b.offset

/-- Judges one occurrence; the state is the end of the last kept one. -/
def judge (taken : Int) (o : Occurrence) (_ : List Occurrence) : Int × List Verdict :=
  if o.offset < taken then (taken, [.dropped o taken]) else (o.stop, [.kept o taken])

def verdicts (occurrences : List Occurrence) : List Verdict := scan judge 0 (sorted occurrences)

def kept (judged : List Verdict) : List Occurrence := judged.filterMap Verdict.kept?

def dropped (judged : List Verdict) : List Occurrence := judged.filterMap Verdict.dropped?

/-! ## The segments around them -/

/-- A kept occurrence's part, after the literal before it. -/
def segmentsOf (chars : Array Char) : Verdict → List Segment
  | .kept o start => [.literal (Text.slice chars start o.offset), .part o.part]
  | .dropped _ _ => []

def remainder (chars : Array Char) (judged : List Verdict) : List Segment :=
  let start := ((kept judged).getLast?.map Occurrence.stop).getD 0
  if start < chars.size then [.literal (Text.slice chars start chars.size)] else []

/-- Whether a literal is left out: if it is empty or, on request, blank. -/
def isVoid (dropBlank : Bool) : Segment → Bool
  | .literal t => if dropBlank then Text.allBlank t else t.isEmpty
  | .part _ => false

/-- A text without occurrences is one literal, whatever it has; any other text is cut at the kept ones. -/
def segments (source : Text) (judged : List Verdict) (dropBlank : Bool) : List Segment :=
  if judged.isEmpty then [.literal source]
  else
    let chars := source.toArray
    (judged.flatMap (segmentsOf chars) ++ remainder chars judged).filter fun s => !isVoid dropBlank s

def warnings (judged : List Verdict) : List Diagnostic := (dropped judged).map .overlap

end Layout

end Stylesheet
