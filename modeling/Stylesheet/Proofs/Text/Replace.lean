/-
  Stylesheet.Proofs.Text.Replace — texts that a replacement leaves alone, and line ends.

  A carriage return and the line feed after it give way to one line feed, and any other carriage return does too; this
  is the same as replacing the pairs first and then what is left of the carriage returns (`unifyLineEnds_eq`). A text
  without escape characters goes to a terminal as it is (`plain_eq_self`).
-/

import Stylesheet.Proofs.Scan
import Stylesheet.Text.LineEnd
import Stylesheet.Text.Terminal

namespace Stylesheet.Text

/-! ## Replacing -/

section

variable {found? : Char → Text → Option (Nat × Text)} {c : Char} {t : Text}

theorem replaceEach_cons_of_none (h : found? c t = none) : replaceEach found? (c :: t) = c :: replaceEach found? t := by
  rw [replaceEach, scan_cons]
  dsimp only
  rw [h]
  rfl

theorem replaceEach_of_some {new : Text} (skipped : Text) (h : found? c (skipped ++ t) = some (skipped.length, new)) :
    replaceEach found? (c :: (skipped ++ t)) = new ++ replaceEach found? t := by
  unfold replaceEach
  rw [scan_cons]
  dsimp only
  rw [h]
  exact congrArg (new ++ ·) (scan_over (f := fun _ k => k) (fun _ _ _ _ => rfl) 0 skipped t)

theorem replaceEach_eq_self (h : ∀ c ∈ t, ∀ rest, found? c rest = none) : replaceEach found? t = t := by
  induction t with
  | nil => rfl
  | cons c t ih =>
    rw [replaceEach_cons_of_none (h c List.mem_cons_self t), ih fun d hd => h d (List.mem_cons_of_mem c hd)]

end

/-- Without an escape character there is no control sequence. -/
theorem Terminal.plain_eq_self {t : Text} (h : Terminal.escape ∉ t) : Terminal.plain t = t := by
  refine replaceEach_eq_self fun c hc rest => if_neg ?_
  rintro rfl
  exact h hc

/-! ## Line ends -/

theorem replace_pair_cons_of_ne {c : Char} (hc : c ≠ '\r') (t new : Text) :
    replace ['\r', '\n'] new (c :: t) = c :: replace ['\r', '\n'] new t :=
  replaceEach_cons_of_none (by simp [List.isPrefixOf, Ne.symm hc])

theorem replace_pair_cons_of_head {t : Text} (h : t.head? ≠ some '\n') (new : Text) :
    replace ['\r', '\n'] new ('\r' :: t) = '\r' :: replace ['\r', '\n'] new t := by
  refine replaceEach_cons_of_none ?_
  cases t with
  | nil => rfl
  | cons d t =>
    have hd : '\n' ≠ d := by
      rintro rfl
      exact h rfl
    simp [List.isPrefixOf, hd]

theorem replace_pair (t new : Text) :
    replace ['\r', '\n'] new ('\r' :: '\n' :: t) = new ++ replace ['\r', '\n'] new t :=
  replaceEach_of_some ['\n'] (by simp [List.isPrefixOf])

theorem replace_return_cons (c : Char) (t : Text) :
    replace ['\r'] ['\n'] (c :: t) = (if c = '\r' then '\n' else c) :: replace ['\r'] ['\n'] t := by
  by_cases hc : c = '\r'
  · subst hc
    exact @replaceEach_of_some _ '\r' t ['\n'] [] (by simp [List.isPrefixOf])
  · rw [if_neg hc]
    exact replaceEach_cons_of_none (by simp [List.isPrefixOf, Ne.symm hc])

theorem unifyLineEnds_cons (c : Char) (t : Text) : unifyLineEnds (c :: t) =
    (if c = '\r' then (if t.head? = some '\n' then [] else ['\n']) else [c]) ++ unifyLineEnds t := scan_cons _ _ _ _

/-- The line ends of a text are made one by replacing the pairs first and then each carriage return left. -/
theorem unifyLineEnds_eq (t : Text) :
    unifyLineEnds t = replace ['\r'] ['\n'] (replace ['\r', '\n'] ['\n'] t) := by
  induction t with
  | nil => rfl
  | cons c t ih =>
    rw [unifyLineEnds_cons]
    by_cases hc : c = '\r'
    · subst hc
      rw [if_pos rfl]
      by_cases ht : t.head? = some '\n'
      · obtain ⟨t, rfl⟩ : ∃ u, t = '\n' :: u := List.head?_eq_some_iff.mp ht
        rw [if_pos ht, List.nil_append, ih, replace_pair, replace_pair_cons_of_ne (by decide)]
        rfl
      · rw [if_neg ht, replace_pair_cons_of_head ht, replace_return_cons, if_pos rfl, ih]
        rfl
    · rw [if_neg hc, replace_pair_cons_of_ne hc, replace_return_cons, if_neg hc, ih]
      rfl

end Stylesheet.Text
