/-
  Stylesheet.Proofs.Text.Overwrite — a text with other texts in place of some of its stretches.

  What is overwritten is told by offset: `new` answers at the offset of each stretch how long it is and what it gives
  way to. A text whose stretches lie on one side of a cut or the other is overwritten side by side (`overwrite_append`),
  and so the pieces of an overwritten text are its overwritten pieces (`map_snd_pieces_overwrite`).
-/

import Stylesheet.Proofs.Text.Pieces

namespace Stylesheet.Text

variable {new : Nat → Option (Nat × Text)}

/-- Overwrites a text that starts at an offset, once some characters are skipped: where `new` answers `(k, u)`, the
    `k + 1` characters that start there give way to `u`. -/
def overwrite (new : Nat → Option (Nat × Text)) : Nat → Nat → Text → Text
  | _, _, [] => []
  | n, k + 1, _ :: t => overwrite new (n + 1) k t
  | n, 0, c :: t =>
    match new n with
    | some (k, u) => u ++ overwrite new (n + 1) k t
    | none => c :: overwrite new (n + 1) 0 t

@[simp] theorem overwrite_nil (n k : Nat) : overwrite new n k [] = [] := by
  unfold overwrite
  rfl

theorem overwrite_skip (n : Nat) (a t : Text) :
    overwrite new n a.length (a ++ t) = overwrite new (n + a.length) 0 t := by
  induction a generalizing n with
  | nil => rfl
  | cons c a ih =>
    rw [List.length_cons, List.cons_append, overwrite, ih]
    congr 1
    omega

theorem overwrite_span {n : Nat} {span u t : Text} (hne : span ≠ []) (h : new n = some (span.length - 1, u)) :
    overwrite new n 0 (span ++ t) = u ++ overwrite new (n + span.length) 0 t := by
  obtain ⟨c, a, rfl⟩ := List.exists_cons_of_ne_nil hne
  rw [List.cons_append, overwrite, h]
  dsimp only
  rw [List.length_cons, Nat.add_sub_cancel, overwrite_skip]
  congr 2
  omega

theorem overwrite_gap {n : Nat} {a t : Text} (h : ∀ i, n ≤ i → i < n + a.length → new i = none) :
    overwrite new n 0 (a ++ t) = a ++ overwrite new (n + a.length) 0 t := by
  induction a generalizing n with
  | nil => rfl
  | cons c a ih =>
    have hn : new n = none := h n (Nat.le_refl n) (by simp)
    have hrest := @ih (n + 1) fun i h1 h2 => h i (by omega) (by simp; omega)
    rw [List.cons_append, overwrite, hn]
    dsimp only
    rw [hrest, List.length_cons, List.cons_append]
    congr 3
    omega

theorem overwrite_eq_self {n : Nat} {a : Text} (h : ∀ i, n ≤ i → i < n + a.length → new i = none) :
    overwrite new n 0 a = a := by
  simpa using overwrite_gap (t := []) h

theorem overwrite_middle {n : Nat} {w t v u : Text} (hne : t ≠ []) (h : new (n + w.length) = some (t.length - 1, u))
    (hother : ∀ i, n ≤ i → i < n + (w ++ t ++ v).length → i ≠ n + w.length → new i = none) :
    overwrite new n 0 (w ++ t ++ v) = w ++ u ++ v := by
  have hpos := List.length_pos_of_ne_nil hne
  have hlen : (w ++ t ++ v).length = w.length + t.length + v.length := by simp; omega
  rw [List.append_assoc, overwrite_gap fun i h1 h2 => hother i h1 (by omega) (by omega), overwrite_span hne h,
    overwrite_eq_self fun i h1 h2 => hother i (by omega) (by omega) (by omega), List.append_assoc]

/-- Side by side, if no stretch lies on both sides. -/
theorem overwrite_append {n : Nat} {a b : Text}
    (h : ∀ i k u, n ≤ i → i < n + a.length → new i = some (k, u) → i + k < n + a.length) :
    overwrite new n 0 (a ++ b) = overwrite new n 0 a ++ overwrite new (n + a.length) 0 b := by
  suffices ∀ (a : Text) (n skip : Nat), skip ≤ a.length →
      (∀ i k u, n ≤ i → i < n + a.length → new i = some (k, u) → i + k < n + a.length) →
      overwrite new n skip (a ++ b) = overwrite new n skip a ++ overwrite new (n + a.length) 0 b from
    this a n 0 (Nat.zero_le _) h
  intro a
  induction a with
  | nil =>
    intro n skip hskip _
    obtain rfl : skip = 0 := by simpa using hskip
    simp
  | cons c a ih =>
    intro n skip hskip h
    have hlen : n + (c :: a).length = n + 1 + a.length := by simp; omega
    have hrest : ∀ i k u, n + 1 ≤ i → i < n + 1 + a.length → new i = some (k, u) → i + k < n + 1 + a.length := by
      intro i k u h1 h2 hi
      rw [← hlen] at h2 ⊢
      exact h i k u (by omega) h2 hi
    rw [hlen]
    cases skip with
    | succ skip =>
      rw [List.cons_append, overwrite, overwrite]
      exact ih (n + 1) skip (by simpa using hskip) hrest
    | zero =>
      rw [List.cons_append, overwrite, overwrite]
      cases hn : new n with
      | none =>
        dsimp only
        rw [ih (n + 1) 0 (Nat.zero_le _) hrest, List.cons_append]
      | some edit =>
        obtain ⟨k, u⟩ := edit
        dsimp only
        have := h n k u (Nat.le_refl n) (by simp) hn
        rw [ih (n + 1) k (by omega) hrest, List.append_assoc]

theorem mem_overwrite {n k : Nat} {t : Text} {c : Char} (h : c ∈ overwrite new n k t) :
    c ∈ t ∨ ∃ i j u, new i = some (j, u) ∧ c ∈ u := by
  induction t generalizing n k with
  | nil => simp at h
  | cons d t ih =>
    have skipped : ∀ {k}, c ∈ overwrite new (n + 1) k t → c ∈ d :: t ∨ ∃ i j u, new i = some (j, u) ∧ c ∈ u :=
      fun h => (ih h).imp (List.mem_cons_of_mem _) id
    cases k with
    | succ k =>
      rw [overwrite] at h
      exact skipped h
    | zero =>
      rw [overwrite] at h
      cases hn : new n with
      | none =>
        rw [hn] at h
        dsimp only at h
        rcases List.mem_cons.mp h with rfl | h
        · exact Or.inl (by simp)
        · exact skipped h
      | some edit =>
        obtain ⟨j, u⟩ := edit
        rw [hn] at h
        dsimp only at h
        rcases List.mem_append.mp h with h | h
        · exact Or.inr ⟨n, j, u, hn, h⟩
        · exact skipped h

/-! ## Overwritten pieces -/

/-- Where every stretch lies in one piece and no new text has a separator, the pieces are overwritten one by one. -/
theorem map_snd_pieces_overwrite {sep : Char} {t : Text} {base base' : Nat}
    (h : ∀ i k u, base ≤ i → i < base + t.length → new i = some (k, u) →
      ∃ x ∈ pieces base sep t, x.1 ≤ i ∧ i + k < x.1 + x.2.length)
    (hsep : ∀ i k u, new i = some (k, u) → sep ∉ u) :
    (pieces base' sep (overwrite new base 0 t)).map Prod.snd =
      (pieces base sep t).map fun x => overwrite new x.1 0 x.2 := by
  have notMem : ∀ {n : Nat} {p : Text}, sep ∉ p → sep ∉ overwrite new n 0 p := by
    intro n p hp hmem
    rcases mem_overwrite hmem with hmem | ⟨i, k, u, hi, hmem⟩
    · exact hp hmem
    · exact hsep i k u hi hmem
  induction t using pieces_induction sep generalizing base base' with
  | last p hp => rw [pieces_of_notMem hp, pieces_of_notMem (notMem hp)]; rfl
  | cons p t hp ih =>
    have hlen : base + (p ++ sep :: t).length = base + p.length + 1 + t.length := by simp; omega
    rw [pieces_append_cons hp] at h ⊢
    have hfirst : ∀ i k u, base ≤ i → i < base + p.length + 1 → new i = some (k, u) → i + k < base + p.length := by
      intro i k u h1 h2 hi
      obtain ⟨x, hx, hle, hlt⟩ := h i k u h1 (by omega) hi
      rcases List.mem_cons.mp hx with rfl | hx
      · exact hlt
      · have := start_le_of_mem_pieces hx
        omega
    have hrest : ∀ i k u, base + p.length + 1 ≤ i → i < base + p.length + 1 + t.length → new i = some (k, u) →
        ∃ x ∈ pieces (base + p.length + 1) sep t, x.1 ≤ i ∧ i + k < x.1 + x.2.length := by
      intro i k u h1 h2 hi
      obtain ⟨x, hx, hle, hlt⟩ := h i k u (by omega) (by omega) hi
      rcases List.mem_cons.mp hx with rfl | hx
      · dsimp only at hlt
        omega
      · exact ⟨x, hx, hle, hlt⟩
    have hnone : new (base + p.length) = none := by
      cases hn : new (base + p.length) with
      | none => rfl
      | some edit =>
        have := hfirst _ edit.1 edit.2 (by omega) (by omega) hn
        omega
    have hcut : overwrite new base 0 (p ++ sep :: t) =
        overwrite new base 0 p ++ sep :: overwrite new (base + p.length + 1) 0 t := by
      rw [overwrite_append fun i k u h1 h2 hi => hfirst i k u h1 (by omega) hi, overwrite, hnone]
    rw [hcut, pieces_append_cons (notMem hp), List.map_cons, List.map_cons, ih hrest]

end Stylesheet.Text
