/-
  Stylesheet.Scan — one pass over a list with a state.

  Every recogniser of this library reads its text once, from left to right. `scan` is that pass: a step sees the
  state, the element at hand and all that follows it, and answers the next state and what it found. The pass keeps
  what it found in reverse, so that its depth does not grow with the text; `scan_cons` is the equation to reason with.
-/

namespace Stylesheet

variable {σ α β : Type}

/-- The pass behind `scan`, with what was found so far in reverse. -/
def scanOnto (step : σ → α → List α → σ × List β) : σ → List α → List β → List β
  | _, [], found => found.reverse
  | s, a :: rest, found =>
    let next := step s a rest
    scanOnto step next.1 rest (next.2.reverse ++ found)

/-- All that `step` finds in a list, read from the left with a state. -/
def scan (step : σ → α → List α → σ × List β) (s : σ) (l : List α) : List β :=
  scanOnto step s l []

theorem scanOnto_eq (step : σ → α → List α → σ × List β) (s : σ) (l : List α) (found : List β) :
    scanOnto step s l found = found.reverse ++ scan step s l := by
  induction l generalizing s found with
  | nil => simp [scanOnto, scan]
  | cons a rest ih =>
    rw [scan, scanOnto, scanOnto, ih, ih]
    simp

@[simp] theorem scan_nil (step : σ → α → List α → σ × List β) (s : σ) : scan step s [] = [] := rfl

theorem scan_cons (step : σ → α → List α → σ × List β) (s : σ) (a : α) (rest : List α) :
    scan step s (a :: rest) = (step s a rest).2 ++ scan step (step s a rest).1 rest := by
  rw [scan, scanOnto, scanOnto_eq]
  simp

end Stylesheet
