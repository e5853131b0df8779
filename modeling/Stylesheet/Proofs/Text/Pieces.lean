/-
  Stylesheet.Proofs.Text.Pieces — a text cut at a separator.

  A text is a piece without separators, or such a piece, a separator and another text (`pieces_induction`); the pieces
  follow the same two cases. `mem_pieces` places each piece in the text: what is before it ends in the separator, and
  what is after it starts with one. Whatever piece stands there, the other pieces are the same (`exists_pieces_append`).
-/

import Stylesheet.Proofs.Text.Trim

namespace Stylesheet.Text

theorem pieces_induction (sep : Char) {P : Text → Prop} (last : ∀ p, sep ∉ p → P p)
    (cons : ∀ p t, sep ∉ p → P t → P (p ++ sep :: t)) (t : Text) : P t := by
  suffices ∀ n t, t.length = n → P t from this _ t rfl
  intro n
  induction n using Nat.strongRecOn with
  | ind n ih =>
  intro t ht
  by_cases h : sep ∈ t
  · obtain ⟨p, u, rfl, hp⟩ := List.eq_append_cons_of_mem h
    exact cons p u hp (ih u.length (by simp at ht; omega) u rfl)
  · exact last t h

theorem pieces_of_notMem {base : Nat} {sep : Char} {p : Text} (h : sep ∉ p) : pieces base sep p = [(base, p)] := by
  rw [pieces, List.splitOn_eq_singleton h, scan_cons, scan_nil]
  rfl

theorem pieces_append_cons {base : Nat} {sep : Char} {p t : Text} (h : sep ∉ p) :
    pieces base sep (p ++ sep :: t) = (base, p) :: pieces (base + p.length + 1) sep t := by
  rw [pieces, List.splitOn_append_cons_self_of_not_mem h, scan_cons]
  rfl

theorem mem_pieces {base : Nat} {sep : Char} {t : Text} {offset : Nat} {p : Text}
    (h : (offset, p) ∈ pieces base sep t) :
    ∃ before after, t = before ++ p ++ after ∧ offset = base + before.length ∧ sep ∉ p ∧
      (∀ c ∈ before.getLast?, c = sep) ∧ (∀ c ∈ after.head?, c = sep) := by
  induction t using pieces_induction sep generalizing base with
  | last q hq =>
    rw [pieces_of_notMem hq] at h
    simp only [List.mem_singleton, Prod.mk.injEq] at h
    obtain ⟨rfl, rfl⟩ := h
    exact ⟨[], [], by simp, by simp, hq, by simp, by simp⟩
  | cons q t hq ih =>
    rw [pieces_append_cons hq, List.mem_cons] at h
    rcases h with h | h
    · obtain ⟨rfl, rfl⟩ := Prod.mk.inj h
      exact ⟨[], sep :: t, by simp, by simp, hq, by simp, by simp⟩
    · obtain ⟨before, after, rfl, hoff, hp, hlast, hhead⟩ := ih h
      refine ⟨q ++ sep :: before, after, by simp, by simp [hoff]; omega, hp, ?_, hhead⟩
      intro c hc
      cases before with
      | nil => simpa using hc.symm
      | cons d before =>
        refine hlast c ?_
        simpa [List.getLast?_append, List.getLast?_cons_cons] using hc

theorem start_le_of_mem_pieces {base : Nat} {sep : Char} {t : Text} {x : Nat × Text} (h : x ∈ pieces base sep t) :
    base ≤ x.1 := by
  obtain ⟨before, after, -, hoffset, -⟩ := @mem_pieces base sep t x.1 x.2 h
  omega

theorem stop_le_of_mem_pieces {base : Nat} {sep : Char} {t : Text} {x : Nat × Text} (h : x ∈ pieces base sep t) :
    x.1 + x.2.length ≤ base + t.length := by
  obtain ⟨before, after, ht, hoffset, -⟩ := @mem_pieces base sep t x.1 x.2 h
  have := congrArg List.length ht
  simp only [List.length_append] at this
  omega

/-- The pieces follow one another, with a separator between them. -/
theorem pairwise_pieces (base : Nat) (sep : Char) (t : Text) :
    (pieces base sep t).Pairwise fun x y => x.1 + x.2.length < y.1 := by
  induction t using pieces_induction sep generalizing base with
  | last p hp =>
    rw [pieces_of_notMem hp]
    exact List.pairwise_singleton _ _
  | cons p t hp ih =>
    rw [pieces_append_cons hp, List.pairwise_cons]
    refine ⟨fun y hy => ?_, ih _⟩
    have := start_le_of_mem_pieces hy
    dsimp only
    omega

/-! ## A piece among others -/

theorem pieces_add (base k : Nat) (sep : Char) (t : Text) :
    pieces (base + k) sep t = (pieces base sep t).map fun x => (x.1 + k, x.2) := by
  induction t using pieces_induction sep generalizing base with
  | last p hp =>
    rw [pieces_of_notMem hp, pieces_of_notMem hp]
    rfl
  | cons p t hp ih =>
    rw [pieces_append_cons hp, pieces_append_cons hp, List.map_cons, ← ih]
    congr 2
    omega

theorem pieces_append_sep (base : Nat) (sep : Char) (a t : Text) :
    pieces base sep (a ++ sep :: t) = pieces base sep a ++ pieces (base + a.length + 1) sep t := by
  induction a using pieces_induction sep generalizing base with
  | last p hp =>
    rw [pieces_append_cons hp, pieces_of_notMem hp]
    rfl
  | cons p a hp ih =>
    rw [List.append_assoc, List.cons_append, pieces_append_cons hp, pieces_append_cons hp, ih, List.cons_append]
    congr 3
    simp
    omega

/-- Whatever piece stands between two texts, the other pieces are the same, those after it moved along. -/
theorem exists_pieces_append {base : Nat} {sep : Char} {before after : Text} (hb : ∀ c ∈ before.getLast?, c = sep)
    (ha : ∀ c ∈ after.head?, c = sep) :
    ∃ l r : List (Nat × Text), ∀ p, sep ∉ p → pieces base sep (before ++ p ++ after) =
      l ++ (base + before.length, p) :: r.map fun x => (x.1 + p.length, x.2) := by
  obtain ⟨r, hr⟩ : ∃ r : List (Nat × Text), ∀ p, sep ∉ p → pieces (base + before.length) sep (p ++ after) =
      (base + before.length, p) :: r.map fun x => (x.1 + p.length, x.2) := by
    cases after with
    | nil => exact ⟨[], fun p hp => by rw [List.append_nil, pieces_of_notMem hp]; rfl⟩
    | cons c after =>
      obtain rfl := ha c rfl
      refine ⟨pieces (base + before.length + 1) c after, fun p hp => ?_⟩
      rw [pieces_append_cons hp, ← pieces_add, Nat.add_right_comm]
  rcases List.eq_nil_or_concat' before with rfl | ⟨a, c, rfl⟩
  · exact ⟨[], r, hr⟩
  · obtain rfl := hb c (by simp)
    refine ⟨pieces base c a, r, fun p hp => ?_⟩
    have hlen : base + (a ++ [c]).length = base + a.length + 1 := by simp; omega
    rw [← hr p hp, List.append_assoc, List.append_assoc, List.singleton_append, pieces_append_sep, hlen]

theorem pieces_unique {base : Nat} {sep : Char} {t : Text} {x y : Nat × Text} (hx : x ∈ pieces base sep t)
    (hy : y ∈ pieces base sep t) {i : Nat} (hxi : x.1 ≤ i ∧ i < x.1 + x.2.length)
    (hyi : y.1 ≤ i ∧ i < y.1 + y.2.length) : x = y := by
  induction t using pieces_induction sep generalizing base with
  | last p hp =>
    rw [pieces_of_notMem hp, List.mem_singleton] at hx hy
    rw [hx, hy]
  | cons p t hp ih =>
    rw [pieces_append_cons hp, List.mem_cons] at hx hy
    rcases hx with rfl | hx
    · rcases hy with rfl | hy
      · rfl
      · have := start_le_of_mem_pieces hy
        dsimp only at hxi
        omega
    · rcases hy with rfl | hy
      · have := start_le_of_mem_pieces hx
        dsimp only at hyi
        omega
      · exact ih hx hy

theorem exists_mem_of_forall₂ {α β : Type} {R : α → β → Prop} {l : List α} {m : List β} (h : List.Forall₂ R l m) {a : α}
    (ha : a ∈ l) : ∃ b ∈ m, R a b := by
  induction h with
  | nil => cases ha
  | cons hab _ ih =>
    rcases List.mem_cons.mp ha with rfl | ha
    · exact ⟨_, by simp, hab⟩
    · obtain ⟨b, hb, h⟩ := ih ha
      exact ⟨b, List.mem_cons_of_mem _ hb, h⟩

theorem forall₂_pieces {base : Nat} {sep : Char} (hsep : sep.isAlpha = false) {a b : Text} (h : lower a = lower b) :
    List.Forall₂ (fun x y => x.1 = y.1 ∧ lower x.2 = lower y.2) (pieces base sep a) (pieces base sep b) := by
  have notMem : ∀ {p q : Text}, lower p = lower q → sep ∉ p → sep ∉ q :=
    fun hpq hp hq => hp (mem_of_lower_eq hsep hpq.symm hq)
  induction a using pieces_induction sep generalizing base b with
  | last p hp =>
    rw [pieces_of_notMem hp, pieces_of_notMem (notMem h hp)]
    exact List.Forall₂.cons ⟨rfl, h⟩ List.Forall₂.nil
  | cons p t hp ih =>
    obtain ⟨p', t', rfl, hpp, htt⟩ := exists_append_cons_of_lower_eq hsep h
    rw [pieces_append_cons hp, pieces_append_cons (notMem hpp hp), length_eq_of_lower_eq hpp]
    exact List.Forall₂.cons ⟨rfl, hpp⟩ (ih htt)

end Stylesheet.Text
