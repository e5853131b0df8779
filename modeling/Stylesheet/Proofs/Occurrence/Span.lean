/-
  Stylesheet.Proofs.Occurrence.Span — where an occurrence stands in its text.

  Each recogniser is described by the text of its occurrences and by what stands before and after it (`Placed`). The
  lemmas on positions let two such descriptions of one source be compared. Where the text before an occurrence grows or
  shrinks, the occurrence is moved along (`shift`).
-/

import Stylesheet.Occurrence.Basic
import Stylesheet.Proofs.Text.Pieces

namespace Stylesheet

/-- An occurrence covers `span`, which stands in the source between `before` and `after`. -/
structure Occurrence.Placed (o : Occurrence) (source before span after : Text) : Prop where
  source_eq : source = before ++ span ++ after
  offset_eq : o.offset = before.length
  length_eq : o.length = span.length

namespace Occurrence.Placed

variable {o : Occurrence} {source before span after : Text}

theorem stop_eq (h : o.Placed source before span after) : o.stop = ↑(before.length + span.length) := by
  rw [Occurrence.stop, h.offset_eq, h.length_eq]
  omega

theorem offset_nonneg (h : o.Placed source before span after) : 0 ≤ o.offset := by
  rw [h.offset_eq]
  omega

theorem offset_le_stop (h : o.Placed source before span after) : o.offset ≤ o.stop := by
  rw [h.offset_eq, h.stop_eq]
  omega

theorem stop_le (h : o.Placed source before span after) : o.stop ≤ source.length := by
  rw [h.stop_eq, h.source_eq]
  simp

theorem eq_mk (h : o.Placed source before span after) : o = ⟨o.part, before.length, span.length⟩ := by
  rw [← h.offset_eq, ← h.length_eq]

end Occurrence.Placed

namespace Text

theorem getElem?_before (a m b : Text) {i : Nat} (h : i < a.length) : (a ++ m ++ b)[i]? = a[i]? := by
  rw [List.append_assoc, List.getElem?_append_left h]

theorem getElem?_middle (a m b : Text) {i : Nat} (h : i < m.length) : (a ++ m ++ b)[a.length + i]? = m[i]? := by
  rw [List.append_assoc, List.getElem?_append_right (by omega), Nat.add_sub_cancel_left, List.getElem?_append_left h]

theorem getElem?_after (a m b : Text) (i : Nat) : (a ++ m ++ b)[a.length + m.length + i]? = b[i]? := by
  rw [List.getElem?_append_right (by simp), List.length_append, Nat.add_sub_cancel_left]

theorem mem_getLast?_append {a b : Text} {c : Char} (h : c ∈ (a ++ b).getLast?) : c ∈ b.getLast? ∨ c ∈ a.getLast? := by
  rw [List.getLast?_append, Option.mem_def, Option.or_eq_some_iff] at h
  exact h.imp id And.right

theorem mem_head?_append {a b : Text} {c : Char} (h : c ∈ (a ++ b).head?) : c ∈ a.head? ∨ c ∈ b.head? := by
  rw [List.head?_append, Option.mem_def, Option.or_eq_some_iff] at h
  exact h.imp id And.right

theorem exists_append_of_length_le {a b c d : Text} (h : a ++ b = c ++ d) (hle : a.length ≤ c.length) :
    ∃ z, c = a ++ z ∧ b = z ++ d := by
  rcases List.append_eq_append_iff.mp h with hz | ⟨z, hz, hb⟩
  · exact hz
  · have hlength := congrArg List.length hz
    rw [List.length_append] at hlength
    obtain rfl : z = [] := List.eq_nil_of_length_eq_zero (by omega)
    exact ⟨[], by simpa using hz.symm, by simpa using hb.symm⟩

/-- A stretch that lacks a character of the text stands before that character or after it. -/
theorem append_cons_eq_append {x y a m b : Text} {c : Char} (h : x ++ c :: y = a ++ m ++ b) (hc : c ∉ m) :
    (∃ z, x = a ++ m ++ z) ∨ ∃ z, a = x ++ c :: z ∧ y = z ++ m ++ b := by
  by_cases hle : (a ++ m).length ≤ x.length
  · obtain ⟨z, hz, -⟩ := exists_append_of_length_le h.symm hle
    exact Or.inl ⟨z, hz⟩
  by_cases hlt : x.length < a.length
  · rw [List.append_assoc, List.append_cons] at h
    obtain ⟨z, hz, hy⟩ := exists_append_of_length_le h (by simpa using hlt)
    exact Or.inr ⟨z, by simpa using hz, by simpa using hy⟩
  · have hget : (a ++ m ++ b)[x.length]? = some c := by
      rw [← h]
      simp
    obtain ⟨i, hi⟩ := Nat.exists_eq_add_of_le (Nat.le_of_not_lt hlt)
    rw [List.length_append] at hle
    rw [hi, getElem?_middle _ _ _ (by omega)] at hget
    exact absurd (List.mem_of_getElem? hget) hc

theorem cut_unique {a m b c n d : Text} (h : a ++ m ++ b = c ++ n ++ d) (hl : a.length = c.length)
    (hm : m.length = n.length) : a = c ∧ m = n ∧ b = d := by
  rw [List.append_assoc, List.append_assoc] at h
  obtain ⟨ha, h⟩ := List.append_inj h hl
  exact ⟨ha, List.append_inj h hm⟩

end Text

theorem Occurrence.Placed.unique {o : Occurrence} {source a m b c n d : Text} (h : o.Placed source a m b)
    (h' : o.Placed source c n d) : a = c ∧ m = n ∧ b = d := by
  have hoffset := h.offset_eq.symm.trans h'.offset_eq
  have hlength := h.length_eq.symm.trans h'.length_eq
  exact Text.cut_unique (h.source_eq.symm.trans h'.source_eq) (by omega) (by omega)

def Occurrence.Parted (source : Text) (a b : Occurrence) : Prop :=
  ∃ (i : Nat) (c : Char), source[i]? = some c ∧ Text.isBlank c = false ∧ a.stop ≤ i ∧ (i : Int) < b.offset

/-! ## Moved along -/

def Occurrence.shift (d : Int) (o : Occurrence) : Occurrence := { o with offset := o.offset + d }

namespace Occurrence

@[simp] theorem shift_part (d : Int) (o : Occurrence) : (o.shift d).part = o.part := rfl

@[simp] theorem shift_offset (d : Int) (o : Occurrence) : (o.shift d).offset = o.offset + d := rfl

@[simp] theorem shift_length (d : Int) (o : Occurrence) : (o.shift d).length = o.length := rfl

theorem shift_stop (d : Int) (o : Occurrence) : (o.shift d).stop = o.stop + d := by
  rw [stop, stop, shift_offset, shift_length]
  omega

theorem shift_shift (d e : Int) (o : Occurrence) : (o.shift d).shift e = o.shift (d + e) := by
  rw [shift, shift, shift, Int.add_assoc]

theorem shift_zero (o : Occurrence) : o.shift 0 = o := by
  rw [shift, Int.add_zero]

/-- What is found in pieces that are moved along. -/
theorem filterMap_add {find? : Nat → Text → Option Occurrence} {k : Nat}
    (h : ∀ offset piece, find? (offset + k) piece = (find? offset piece).map (shift k)) (l : List (Nat × Text)) :
    (l.map fun x => (x.1 + k, x.2)).filterMap (fun x => find? x.1 x.2) =
      (l.filterMap fun x => find? x.1 x.2).map (shift k) := by
  rw [List.filterMap_map, List.map_filterMap]
  exact List.filterMap_congr fun x _ => h x.1 x.2

end Occurrence

end Stylesheet
