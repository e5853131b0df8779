/-
  Stylesheet.Proofs.Scan — what a pass finds, and where it stands when it finds it.

  A pass sees what it has read only through its state. `mem_scan` says that it finds just what its step finds at some
  place of the list, in the state reached there; `reached_invariant` carries what one step keeps over all it reads.
  What is found at one place comes before what is found at a later one (`pairwise_scan`). What is found first does not
  depend on a rest that no step looks at so early (`exists_scan_append`), and a pass that does not see a change of the
  list's elements or of its state finds the same but for that change (`scan_map`). What a pass skips, it counts down
  (`scan_over`).
-/

import Stylesheet.Scan

namespace Stylesheet

variable {σ α β : Type} {step : σ → α → List α → σ × List β}

/-- The state a pass has reached after `read`, when `rest` follows. -/
def reached (step : σ → α → List α → σ × List β) : σ → List α → List α → σ
  | s, [], _ => s
  | s, a :: read, rest => reached step (step s a (read ++ rest)).1 read rest

theorem reached_append_cons (s : σ) (read : List α) (a : α) (mid rest : List α) :
    reached step s (read ++ a :: mid) rest =
      reached step (step (reached step s read (a :: (mid ++ rest))) a (mid ++ rest)).1 mid rest := by
  induction read generalizing s with
  | nil => rfl
  | cons b read ih =>
    rw [List.cons_append, reached, reached, ih]
    simp

/-- What holds at the start and is kept by every step holds of every state a pass reaches. -/
theorem reached_invariant {P : List α → σ → Prop} {s : σ} (hs : P [] s)
    (keep : ∀ read t a rest, P read t → P (read ++ [a]) (step t a rest).1) (read rest : List α) :
    P read (reached step s read rest) := by
  suffices ∀ done s, P done s → P (done ++ read) (reached step s read rest) from this [] s hs
  induction read with
  | nil =>
    intro done s h
    simpa [reached] using h
  | cons a read ih =>
    intro done s h
    have := ih _ _ (keep done s a (read ++ rest) h)
    simpa [reached] using this

/-- A pass finds what its step finds at one place of the list, in the state reached there. -/
theorem mem_scan {s : σ} {l : List α} {x : β} :
    x ∈ scan step s l ↔
      ∃ read a rest, l = read ++ a :: rest ∧ x ∈ (step (reached step s read (a :: rest)) a rest).2 := by
  induction l generalizing s with
  | nil => simp
  | cons b l ih =>
    rw [scan_cons, List.mem_append, ih]
    constructor
    · rintro (h | ⟨read, a, rest, rfl, h⟩)
      · exact ⟨[], b, l, rfl, h⟩
      · exact ⟨b :: read, a, rest, rfl, h⟩
    · rintro ⟨read, a, rest, hl, h⟩
      cases read with
      | nil =>
        obtain ⟨rfl, rfl⟩ := List.cons.inj hl
        exact Or.inl h
      | cons c read =>
        obtain ⟨rfl, rfl⟩ := List.cons.inj hl
        exact Or.inr ⟨read, a, rest, rfl, h⟩

/-- What a pass finds is ordered if it is so within a step and from one step to any later one. -/
theorem pairwise_scan {R : β → β → Prop} {s : σ} {l : List α}
    (one : ∀ read a rest, l = read ++ a :: rest → (step (reached step s read (a :: rest)) a rest).2.Pairwise R)
    (two : ∀ read a mid b rest, l = read ++ a :: (mid ++ b :: rest) →
      ∀ x ∈ (step (reached step s read (a :: (mid ++ b :: rest))) a (mid ++ b :: rest)).2,
      ∀ y ∈ (step (reached step s (read ++ a :: mid) (b :: rest)) b rest).2, R x y) :
    (scan step s l).Pairwise R := by
  induction l generalizing s with
  | nil => exact List.Pairwise.nil
  | cons a l ih =>
    rw [scan_cons, List.pairwise_append]
    refine ⟨one [] a l rfl, ih (fun read b rest hl => ?_) (fun read b mid c rest hl => ?_), fun x hx y hy => ?_⟩
    · subst hl
      exact one (a :: read) b rest rfl
    · subst hl
      have htwo := two (a :: read) b mid c rest rfl
      simp only [List.cons_append, reached, List.append_assoc] at htwo
      exact htwo
    · obtain ⟨mid, b, rest, rfl, hy⟩ := mem_scan.mp hy
      exact two [] a mid b rest rfl x hx y hy

/-- A pass finds the same in what it reads first, whatever comes after that, if no step there looks so far ahead. -/
theorem exists_scan_append (step : σ → α → List α → σ × List β) (s : σ) (l b : List α) :
    ∃ found, ∀ b', (∀ x a y, l = x ++ a :: y → ∀ t, step t a (y ++ b') = step t a (y ++ b)) →
      scan step s (l ++ b') = found ++ scan step (reached step s l b) b' := by
  induction l generalizing s with
  | nil => exact ⟨[], fun b' _ => rfl⟩
  | cons a l ih =>
    obtain ⟨found, hfound⟩ := ih (step s a (l ++ b)).1
    refine ⟨(step s a (l ++ b)).2 ++ found, fun b' h => ?_⟩
    have hrest : ∀ x c y, l = x ++ c :: y → ∀ t, step t c (y ++ b') = step t c (y ++ b) := by
      rintro x c y rfl
      exact h (a :: x) c y rfl
    rw [List.cons_append, scan_cons, h [] a l rfl, hfound b' hrest, reached, List.append_assoc]

/-- A pass over another list runs in step with it if each of its steps does, in the states that keep to `P`. -/
theorem scan_map_of {P : σ → Prop} {f : α → α} {g : β → β} {h : σ → σ}
    (hstep : ∀ s a rest, P s →
      step (h s) (f a) (rest.map f) = (h (step s a rest).1, (step s a rest).2.map g) ∧ P (step s a rest).1)
    {s : σ} (hs : P s) (l : List α) : scan step (h s) (l.map f) = (scan step s l).map g := by
  induction l generalizing s with
  | nil => rfl
  | cons a l ih =>
    obtain ⟨heq, hnext⟩ := hstep s a l hs
    rw [List.map_cons, scan_cons, scan_cons, heq, ih hnext, List.map_append]

theorem scan_map {f : α → α} {g : β → β} {h : σ → σ}
    (hstep : ∀ s a rest, step (h s) (f a) (rest.map f) = (h (step s a rest).1, (step s a rest).2.map g)) (s : σ)
    (l : List α) : scan step (h s) (l.map f) = (scan step s l).map g :=
  scan_map_of (P := fun _ => True) (fun s a rest _ => ⟨hstep s a rest, trivial⟩) trivial l

/-- A pass that counts how many elements it still passes over finds nothing in them. -/
theorem scan_over {f : Nat → Nat → σ} (h : ∀ n k a rest, step (f n (k + 1)) a rest = (f (n + 1) k, [])) (n : Nat)
    (l rest : List α) : scan step (f n l.length) (l ++ rest) = scan step (f (n + l.length) 0) rest := by
  induction l generalizing n with
  | nil => rfl
  | cons a l ih =>
    rw [List.cons_append, scan_cons, List.length_cons, h, ih, List.nil_append, Nat.add_assoc, Nat.add_comm 1]

end Stylesheet
