/-
  Stylesheet.Proofs.Text.Pattern — patterns of characters, and a backtracking search for them.

  A pattern reads a text in several ways, one preferred to the next: a repetition tries to take as much as it can, or as
  little as it can. `lengths` lists the ways in that order, as a backtracking search tries them; which ways there are
  does not depend on the order, and `Takes` says it without the text that follows (`mem_lengths`).

  A capture has a group between two patterns. `Capture.search` finds its matches from the left and without overlap; the
  match at a place is the first way in which the capture can be read there. It is for those that no empty text matches.
  The first match of all is read at the first place where there is one (`mem_head?_scan`), and where the part before the
  group takes as little as it can, it has the first group that can be read there (`base_le_of_lazy`).
-/

import Stylesheet.Proofs.Scan
import Stylesheet.Text.Basic

namespace Stylesheet

inductive Pattern where
  /-- The start of the text. -/
  | start
  | one (p : Char → Bool)
  /-- Any number of characters, as many as can be. -/
  | many (p : Char → Bool)
  /-- Any number of characters, as few as can be. -/
  | few (p : Char → Bool)
  | seq (a b : Pattern)
  /-- The first pattern, and the second where the first does not do. -/
  | alt (a b : Pattern)

namespace Pattern

/-- How many characters the pattern can take at an offset where `t` follows, the preferred number first. -/
def lengths : Pattern → Nat → Text → List Nat
  | start, offset, _ => if offset = 0 then [0] else []
  | one p, _, t => t.head?.toList.filterMap fun c => if p c then some 1 else none
  | many p, _, t => (List.range ((t.takeWhile p).length + 1)).reverse
  | few p, _, t => List.range ((t.takeWhile p).length + 1)
  | seq a b, offset, t =>
    (a.lengths offset t).flatMap fun n => (b.lengths (offset + n) (t.drop n)).map fun k => n + k
  | alt a b, offset, t => a.lengths offset t ++ b.lengths offset t

def Takes : Pattern → Nat → Text → Prop
  | start, offset, x => offset = 0 ∧ x = []
  | one p, _, x => ∃ c, x = [c] ∧ p c = true
  | many p, _, x => ∀ c ∈ x, p c = true
  | few p, _, x => ∀ c ∈ x, p c = true
  | seq a b, offset, x => ∃ y z, x = y ++ z ∧ a.Takes offset y ∧ b.Takes (offset + y.length) z
  | alt a b, offset, x => a.Takes offset x ∨ b.Takes offset x

theorem lt_length_takeWhile_iff {p : Char → Bool} {t : Text} {n : Nat} :
    n < (t.takeWhile p).length + 1 ↔ ∃ x y, t = x ++ y ∧ x.length = n ∧ ∀ c ∈ x, p c = true := by
  constructor
  · intro h
    refine ⟨t.take n, t.drop n, (List.take_append_drop n t).symm, ?_, fun c hc => ?_⟩
    · have := (List.takeWhile_prefix p (l := t)).length_le
      rw [List.length_take]
      omega
    · have hstart : t.take n <+: t.takeWhile p :=
        List.prefix_of_prefix_length_le (List.take_prefix n t) (List.takeWhile_prefix p)
          (by rw [List.length_take]; omega)
      exact List.all_eq_true.mp List.all_takeWhile c (hstart.subset hc)
  · rintro ⟨x, y, rfl, rfl, hx⟩
    rw [List.takeWhile_append_of_pos hx, List.length_append]
    omega

/-- The ways to read a pattern, each with what it takes. -/
theorem mem_lengths {p : Pattern} {offset n : Nat} {t : Text} :
    n ∈ p.lengths offset t ↔ ∃ x y, t = x ++ y ∧ x.length = n ∧ p.Takes offset x := by
  induction p generalizing offset n t with
  | start =>
    rw [lengths]
    split
    case isTrue h => simp [Takes, h, eq_comm]
    case isFalse h => simp [Takes, h]
  | one p =>
    cases t with
    | nil => simp [lengths, Takes]
    | cons c t =>
      simp only [lengths, List.head?_cons, Option.toList_some, List.filterMap_cons, List.filterMap_nil, Takes]
      constructor
      · intro h
        by_cases hc : p c = true
        · rw [if_pos hc] at h
          exact ⟨[c], t, rfl, (List.mem_singleton.mp h).symm, c, rfl, hc⟩
        · rw [if_neg hc] at h
          cases h
      · rintro ⟨_, y, hsplit, rfl, d, rfl, hd⟩
        obtain ⟨rfl, rfl⟩ := List.cons.inj hsplit
        simp [hd]
  | many p => rw [lengths, List.mem_reverse, List.mem_range, lt_length_takeWhile_iff]; rfl
  | few p => rw [lengths, List.mem_range, lt_length_takeWhile_iff]; rfl
  | seq a b iha ihb =>
    simp only [lengths, List.mem_flatMap, List.mem_map, iha, ihb, Takes]
    constructor
    · rintro ⟨_, ⟨x, y, rfl, rfl, hx⟩, _, ⟨z, rest, hz, rfl, hz'⟩, rfl⟩
      rw [List.drop_left] at hz
      exact ⟨x ++ z, rest, by rw [hz, List.append_assoc], by simp, x, z, rfl, hx, hz'⟩
    · rintro ⟨_, rest, rfl, rfl, x, z, rfl, hx, hz⟩
      exact ⟨_, ⟨x, z ++ rest, by simp, rfl, hx⟩, _, ⟨z, rest, by simp, rfl, hz⟩, by simp⟩
  | alt a b iha ihb =>
    simp only [lengths, List.mem_append, iha, ihb, Takes]
    constructor
    · rintro (⟨x, y, ht, hn, hx⟩ | ⟨x, y, ht, hn, hx⟩)
      · exact ⟨x, y, ht, hn, Or.inl hx⟩
      · exact ⟨x, y, ht, hn, Or.inr hx⟩
    · rintro ⟨x, y, ht, hn, hx | hx⟩
      · exact Or.inl ⟨x, y, ht, hn, hx⟩
      · exact Or.inr ⟨x, y, ht, hn, hx⟩

/-! ### Words, and the shortest way first -/

def word (w : Text) (p : Pattern) : Pattern := w.foldr (fun l q => .seq (.one (·.toLower == l)) q) p

/-- The shortest way to read the pattern is tried first, and each of the others before the longer ones. -/
def Lazy (p : Pattern) : Prop := ∀ offset t, (p.lengths offset t).Pairwise (· < ·)

theorem takes_word_iff {w : Text} {p : Pattern} {offset : Nat} {x : Text} : (word w p).Takes offset x ↔
    ∃ y z, x = y ++ z ∧ y.map Char.toLower = w ∧ p.Takes (offset + y.length) z := by
  induction w generalizing offset x with
  | nil =>
    constructor
    · exact fun h => ⟨[], x, rfl, rfl, h⟩
    · rintro ⟨y, z, rfl, hy, hz⟩
      obtain rfl := List.map_eq_nil_iff.mp hy
      exact hz
  | cons l w ih =>
    show (∃ y z, x = y ++ z ∧ (∃ c, y = [c] ∧ _) ∧ (word w p).Takes _ z) ↔ _
    simp only [ih, beq_iff_eq]
    constructor
    · rintro ⟨_, _, rfl, ⟨c, rfl, hc⟩, y, z, rfl, hy, hz⟩
      refine ⟨c :: y, z, rfl, by rw [List.map_cons, hc, hy], ?_⟩
      rwa [List.length_singleton, Nat.add_assoc, Nat.add_comm 1] at hz
    · rintro ⟨y, z, rfl, hy, hz⟩
      obtain ⟨c, y, rfl, hc, hy⟩ := List.map_eq_cons_iff.mp hy
      refine ⟨[c], y ++ z, rfl, ⟨c, rfl, hc⟩, y, z, rfl, hy, ?_⟩
      rwa [List.length_singleton, Nat.add_assoc, Nat.add_comm 1]

theorem lengths_one (p : Char → Bool) (offset : Nat) (t : Text) :
    (one p).lengths offset t = [] ∨ (one p).lengths offset t = [1] := by
  cases t with
  | nil => exact Or.inl rfl
  | cons c t => by_cases hc : p c = true <;> simp [lengths, hc]

theorem lazy_few_one (p q : Char → Bool) : (seq (few p) (one q)).Lazy := by
  intro offset t
  refine List.pairwise_flatMap.mpr ⟨fun n _ => ?_, List.pairwise_lt_range.imp fun {n n'} hlt a ha b hb => ?_⟩
  · rcases lengths_one q (offset + n) (t.drop n) with h | h <;> simp [h]
  · rcases lengths_one q (offset + n) (t.drop n) with h | h <;>
      rcases lengths_one q (offset + n') (t.drop n') with h' | h' <;> simp [h, h'] at ha hb
    omega

theorem Lazy.word {p : Pattern} (h : p.Lazy) (w : Text) : (word w p).Lazy := by
  induction w with
  | nil => exact h
  | cons l w ih =>
    intro offset t
    refine List.pairwise_flatMap.mpr ⟨fun n _ => List.pairwise_map.mpr ((ih _ _).imp fun hlt => by omega), ?_⟩
    rcases lengths_one (·.toLower == l) offset t with h | h <;> simp [h]

end Pattern

/-! ## Captures -/

/-- A pattern with a group in its midst. -/
structure Capture where
  before : Pattern
  group : Pattern
  after : Pattern

namespace Capture

structure Match where
  base : Nat
  group : Text
  length : Nat
  deriving DecidableEq, Repr

def readings (p : Capture) (offset : Nat) (t : Text) : List Match :=
  (p.before.lengths offset t).flatMap fun n =>
    (p.group.lengths (offset + n) (t.drop n)).flatMap fun k =>
      (p.after.lengths (offset + n + k) (t.drop (n + k))).map fun l => ⟨offset + n, (t.drop n).take k, n + k + l⟩

theorem mem_readings {p : Capture} {offset : Nat} {t : Text} {m : Match} :
    m ∈ p.readings offset t ↔ ∃ x y z rest, t = x ++ y ++ z ++ rest ∧ p.before.Takes offset x ∧
      p.group.Takes (offset + x.length) y ∧ p.after.Takes (offset + x.length + y.length) z ∧
      m = ⟨offset + x.length, y, x.length + y.length + z.length⟩ := by
  simp only [readings, List.mem_flatMap, List.mem_map, Pattern.mem_lengths]
  constructor
  · rintro ⟨_, ⟨x, t', rfl, rfl, hx⟩, _, ⟨y, t'', hy, rfl, hy'⟩, _, ⟨z, rest, hz, rfl, hz'⟩, rfl⟩
    obtain rfl : t' = y ++ t'' := by simpa using hy
    obtain rfl : t'' = z ++ rest := by simpa [← List.drop_drop] using hz
    exact ⟨x, y, z, rest, by simp, hx, hy', hz', by simp⟩
  · rintro ⟨x, y, z, rest, rfl, hx, hy, hz, rfl⟩
    exact ⟨_, ⟨x, y ++ z ++ rest, by simp, rfl, hx⟩, _, ⟨y, z ++ rest, by simp, rfl, hy⟩, _,
      ⟨z, rest, by simp [← List.drop_drop], rfl, hz⟩, by simp⟩

/-- Where the part before the group takes as little as it can, no other reading has an earlier group. -/
theorem base_le_of_lazy {p : Capture} (h : p.before.Lazy) {offset : Nat} {t : Text} {m m' : Match}
    (hm : m ∈ (p.readings offset t).head?) (hm' : m' ∈ p.readings offset t) : m.base ≤ m'.base := by
  have hbase : ∀ n, ∀ a ∈ (p.group.lengths (offset + n) (t.drop n)).flatMap (fun k =>
      (p.after.lengths (offset + n + k) (t.drop (n + k))).map fun l =>
        (⟨offset + n, (t.drop n).take k, n + k + l⟩ : Match)), a.base = offset + n := by
    intro n a ha
    obtain ⟨k, -, ha⟩ := List.mem_flatMap.mp ha
    obtain ⟨l, -, rfl⟩ := List.mem_map.mp ha
    rfl
  have hsorted : (p.readings offset t).Pairwise fun a b => a.base ≤ b.base := by
    refine List.pairwise_flatMap.mpr ⟨fun n _ => ?_, (h offset t).imp fun {n n'} hlt a ha b hb => ?_⟩
    · refine List.pairwise_of_forall_mem_list fun a ha b hb => ?_
      exact Nat.le_of_eq ((hbase n a ha).trans (hbase n b hb).symm)
    · rw [hbase n a ha, hbase n' b hb]
      omega
  obtain ⟨rest, hrest⟩ := List.head?_eq_some_iff.mp hm
  rw [hrest] at hsorted hm'
  rcases List.mem_cons.mp hm' with rfl | hm'
  · exact Nat.le_refl _
  · exact List.rel_of_pairwise_cons hsorted hm'

structure Reading where
  offset : Nat
  skip : Nat

def step (p : Capture) (r : Reading) (c : Char) (rest : Text) : Reading × List Match :=
  match r.skip with
  | skip + 1 => (⟨r.offset + 1, skip⟩, [])
  | 0 =>
    match (p.readings r.offset (c :: rest)).head? with
    | some m => (⟨r.offset + 1, m.length - 1⟩, [m])
    | none => (⟨r.offset + 1, 0⟩, [])

def search (p : Capture) (source : Text) : List Match := scan p.step ⟨0, 0⟩ source

variable {p : Capture}

theorem scan_skip (offset : Nat) (a t : Text) :
    scan p.step ⟨offset, a.length⟩ (a ++ t) = scan p.step ⟨offset + a.length, 0⟩ t :=
  scan_over (f := Reading.mk) (fun _ _ _ _ => rfl) offset a t

theorem scan_of_head?_eq_some {offset : Nat} {a t : Text} {m : Match} (hlength : m.length = a.length) (hne : a ≠ [])
    (h : (p.readings offset (a ++ t)).head? = some m) :
    scan p.step ⟨offset, 0⟩ (a ++ t) = m :: scan p.step ⟨offset + a.length, 0⟩ t := by
  obtain ⟨c, a, rfl⟩ := List.exists_cons_of_ne_nil hne
  rw [List.cons_append] at h ⊢
  rw [scan_cons, step]
  dsimp only
  rw [h]
  dsimp only
  rw [hlength, List.length_cons, Nat.add_sub_cancel, scan_skip, List.singleton_append, Nat.add_right_comm,
    Nat.add_assoc]

theorem scan_of_readings_eq_nil {offset : Nat} {c : Char} {t : Text} (h : p.readings offset (c :: t) = []) :
    scan p.step ⟨offset, 0⟩ (c :: t) = scan p.step ⟨offset + 1, 0⟩ t := by
  rw [scan_cons, step]
  dsimp only
  rw [h]
  rfl

/-- The first match of a search is the preferred reading at the first place where the capture can be read. -/
theorem mem_head?_scan {t : Text} {m : Match} : ∀ {offset : Nat},
    m ∈ (scan p.step ⟨offset, 0⟩ t).head? ↔ ∃ i < t.length, m ∈ (p.readings (offset + i) (t.drop i)).head? ∧
      ∀ j < i, p.readings (offset + j) (t.drop j) = [] := by
  induction t with
  | nil => simp
  | cons c t ih =>
    intro offset
    cases hread : (p.readings offset (c :: t)).head? with
    | some found =>
      have hhead : (scan p.step ⟨offset, 0⟩ (c :: t)).head? = some found := by
        rw [scan_cons, step]
        dsimp only
        rw [hread]
        rfl
      rw [hhead]
      constructor
      · intro h
        exact ⟨0, Nat.succ_pos _, hread.trans h, fun j hj => absurd hj (Nat.not_lt_zero j)⟩
      · rintro ⟨i, -, hm, hnone⟩
        cases i with
        | zero => exact hread.symm.trans hm
        | succ i =>
          have hnil : p.readings offset (c :: t) = [] := hnone 0 (Nat.succ_pos i)
          rw [hnil] at hread
          cases hread
    | none =>
      have hnil : p.readings offset (c :: t) = [] := List.head?_eq_none_iff.mp hread
      have hnext : ∀ i, p.readings (offset + 1 + i) (t.drop i) = p.readings (offset + (i + 1)) ((c :: t).drop (i + 1)) :=
        fun i => by rw [Nat.add_assoc, Nat.add_comm 1, List.drop_succ_cons]
      rw [scan_of_readings_eq_nil hnil, ih]
      simp only [hnext]
      constructor
      · rintro ⟨i, hi, hm, hnone⟩
        refine ⟨i + 1, Nat.succ_lt_succ hi, hm, fun j hj => ?_⟩
        cases j with
        | zero => exact hnil
        | succ j => exact hnone j (Nat.lt_of_succ_lt_succ hj)
      · rintro ⟨i, hi, hm, hnone⟩
        cases i with
        | zero =>
          have hm : m ∈ (p.readings offset (c :: t)).head? := hm
          rw [hread] at hm
          cases hm
        | succ i => exact ⟨i, Nat.lt_of_succ_lt_succ hi, hm, fun j hj => hnone (j + 1) (Nat.succ_lt_succ hj)⟩

end Capture

end Stylesheet
