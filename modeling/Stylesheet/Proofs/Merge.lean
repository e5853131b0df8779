/-
  Stylesheet.Proofs.Merge — what is true of merged segments.

  Merging leaves no empty literal and no two literals side by side (`separated_merge`, `literal_nil_notMem_merge`), and
  all that does not see how text is cut into literals reads the same before and after it (`Seamless.merge`). Merged
  segments are told by their outline (`merge_eq_segments`), and segments that have neither are merged already
  (`merge_eq_self`).
-/

import Stylesheet.Css
import Stylesheet.Merge
import Mathlib

namespace Stylesheet

def Segment.isLiteral : Segment → Bool
  | .literal _ => true
  | .part _ => false

def Separated (segments : List Segment) : Prop :=
  segments.IsChain fun a b => ¬ (a.isLiteral = true ∧ b.isLiteral = true)

theorem separated_nil : Separated [] := List.IsChain.nil

theorem separated_part_cons {p : Part} {rest : List Segment} (h : Separated rest) : Separated (.part p :: rest) := by
  cases rest with
  | nil => exact List.isChain_singleton _
  | cons s rest => exact List.isChain_cons_cons.mpr ⟨fun hs => Bool.noConfusion hs.1, h⟩

theorem separated_literal_part_cons {t : Text} {p : Part} {rest : List Segment} (h : Separated rest) :
    Separated (.literal t :: .part p :: rest) :=
  List.isChain_cons_cons.mpr ⟨fun hs => Bool.noConfusion hs.2, separated_part_cons h⟩

theorem separated_attach (s : Segment) {rest : List Segment} (h : Separated rest) : Separated (attach s rest) := by
  cases s with
  | part p => exact separated_part_cons h
  | literal t =>
    cases t with
    | nil => exact h
    | cons c t =>
      cases rest with
      | nil => exact List.isChain_singleton _
      | cons u rest =>
        cases u with
        | part p => exact List.isChain_cons_cons.mpr ⟨fun hs => Bool.noConfusion hs.2, h⟩
        | literal u =>
          cases rest with
          | nil => exact List.isChain_singleton _
          | cons v rest =>
            obtain ⟨h1, h2⟩ := List.isChain_cons_cons.mp h
            exact List.isChain_cons_cons.mpr ⟨h1, h2⟩

theorem separated_merge (segments : List Segment) : Separated (merge segments) := by
  induction segments with
  | nil => exact separated_nil
  | cons s rest ih => exact separated_attach s ih

theorem literal_nil_notMem_attach (s : Segment) {rest : List Segment} (h : .literal [] ∉ rest) :
    .literal [] ∉ attach s rest := by
  unfold attach
  split
  · exact h
  · rename_i t u rest hne
    simp only [List.mem_cons, not_or] at h ⊢
    refine ⟨?_, h.2⟩
    intro heq
    have := List.append_eq_nil_iff.mp (Segment.literal.inj heq).symm
    exact hne this.1
  · rename_i s rest hne _
    simp only [List.mem_cons, not_or]
    exact ⟨fun heq => hne heq.symm, h⟩

theorem literal_nil_notMem_merge (segments : List Segment) : .literal [] ∉ merge segments := by
  induction segments with
  | nil => simp
  | cons s rest ih => exact literal_nil_notMem_attach s ih

/-! ## What merging does not change -/

/-- A reading that does not see how text is cut into literals. -/
structure Seamless {β : Type} (read : List Segment → β) : Prop where
  empty : ∀ rest, read (.literal [] :: rest) = read rest
  join : ∀ t u rest, read (.literal t :: .literal u :: rest) = read (.literal (t ++ u) :: rest)
  cons : ∀ s {a b}, read a = read b → read (s :: a) = read (s :: b)

namespace Seamless

variable {β : Type} {read : List Segment → β}

theorem attach (h : Seamless read) (s : Segment) (rest : List Segment) : read (attach s rest) = read (s :: rest) := by
  unfold Stylesheet.attach
  split
  · exact (h.empty _).symm
  · exact (h.join _ _ _).symm
  · rfl

theorem merge (h : Seamless read) (segments : List Segment) : read (merge segments) = read segments := by
  induction segments with
  | nil => rfl
  | cons s rest ih => rw [merge_cons, h.attach, h.cons s ih]

theorem filter_literal (h : Seamless read) (segments : List Segment) :
    read (segments.filter (· ≠ .literal [])) = read segments := by
  induction segments with
  | nil => rfl
  | cons s rest ih =>
    by_cases hs : s = .literal []
    · subst hs
      rw [List.filter_cons_of_neg (by simp), ih, h.empty]
    · rw [List.filter_cons_of_pos (by simpa using hs), h.cons s ih]

theorem map (h : Seamless read) {f : Segment → Segment} (hf : ∀ t, f (.literal t) = .literal t) :
    Seamless fun segments => read (segments.map f) where
  empty rest := by rw [List.map_cons, hf, h.empty]
  join t u rest := by rw [List.map_cons, List.map_cons, List.map_cons, hf, hf, hf, h.join]
  cons s a b hab := h.cons (f s) hab

theorem append (h : Seamless read) (back : List Segment) : Seamless fun segments => read (segments ++ back) where
  empty rest := h.empty (rest ++ back)
  join t u rest := h.join t u (rest ++ back)
  cons s _ _ hab := h.cons s hab

end Seamless

theorem seamless_filterMap {β : Type} {f : Segment → Option β} (hf : ∀ t, f (.literal t) = none) :
    Seamless fun segments => segments.filterMap f where
  empty rest := List.filterMap_cons_none (hf _)
  join t u rest := by
    rw [List.filterMap_cons_none (hf _), List.filterMap_cons_none (hf _), List.filterMap_cons_none (hf _)]
  cons s a b h := by rw [List.filterMap_cons, List.filterMap_cons, h]

/-- What does not look at literals reads the same after merging. -/
theorem filterMap_merge {β : Type} {f : Segment → Option β} (hf : ∀ t, f (.literal t) = none)
    (segments : List Segment) : (merge segments).filterMap f = segments.filterMap f :=
  (seamless_filterMap hf).merge segments

theorem parts_merge (segments : List Segment) : parts (merge segments) = parts segments :=
  filterMap_merge (fun _ => rfl) segments

theorem seamless_outline : Seamless outline where
  empty rest := rfl
  join t u rest := by
    rw [outline_cons, outline_cons, outline_cons]
    simp [Outline.add]
  cons s a b h := by rw [outline_cons, outline_cons, h]

theorem outline_filter_literal (segments : List Segment) :
    outline (segments.filter (· ≠ .literal [])) = outline segments :=
  seamless_outline.filter_literal segments

theorem seamless_css : Seamless css where
  empty rest := by
    rw [css_cons]
    cases css rest <;> rfl
  join t u rest := by
    rw [css_cons, css_cons, css_cons]
    cases css rest with
    | error e => rfl
    | ok v => exact congrArg Except.ok (List.append_assoc t u v).symm
  cons s a b h := by rw [css_cons, css_cons, h]

/-! ## Outlines -/

def literals (t : Text) : List Segment := if t = [] then [] else [.literal t]

def Outline.segments (o : Outline) : List Segment :=
  literals o.lead ++ o.items.flatMap fun x => .part x.1 :: literals x.2

theorem attach_literal_literals (t u : Text) {rest : List Segment} (h : ∀ s ∈ rest.head?, s.isLiteral = false) :
    attach (.literal t) (literals u ++ rest) = literals (t ++ u) ++ rest := by
  unfold literals
  cases t with
  | nil => rfl
  | cons c t =>
    by_cases hu : u = []
    · subst hu
      cases rest with
      | nil => simp [attach]
      | cons s rest =>
        cases s with
        | literal v => exact absurd (h _ rfl) (by simp [Segment.isLiteral])
        | part p => simp [attach]
    · simp [hu, attach]

theorem attach_segments (s : Segment) (o : Outline) : attach s o.segments = (o.add s).segments := by
  cases s with
  | part p => rfl
  | literal t =>
    refine attach_literal_literals t o.lead fun s hs => ?_
    obtain ⟨lead, items⟩ := o
    cases items with
    | nil => cases hs
    | cons x items =>
      obtain rfl := Option.some.inj hs
      rfl

theorem merge_eq_segments (segments : List Segment) : merge segments = (outline segments).segments := by
  induction segments with
  | nil => rfl
  | cons s rest ih => rw [merge_cons, ih, attach_segments, outline_cons]

theorem merge_eq_self {segments : List Segment} (h : Separated segments) (hnil : .literal [] ∉ segments) :
    merge segments = segments := by
  induction segments with
  | nil => rfl
  | cons s rest ih =>
    have hrest : merge rest = rest := ih h.of_cons fun hmem => hnil (List.mem_cons_of_mem _ hmem)
    rw [merge_cons, hrest]
    cases s with
    | part p => rfl
    | literal t =>
      have ht : t ≠ [] := by
        rintro rfl
        exact hnil (by simp)
      obtain ⟨c, t, rfl⟩ := List.exists_cons_of_ne_nil ht
      cases rest with
      | nil => rfl
      | cons u rest =>
        cases u with
        | part p => rfl
        | literal u => exact absurd ⟨rfl, rfl⟩ (List.isChain_cons_cons.mp h).1

/-! ## Merged before or after -/

theorem seamless_merge : Seamless merge where
  empty rest := rfl
  join t u rest := by rw [merge_eq_segments, seamless_outline.join, ← merge_eq_segments]
  cons s a b h := congrArg (attach s) h

/-- A change of segments that leaves literals as they are may be made after merging or before it. -/
theorem merge_map_merge {f : Segment → Segment} (hf : ∀ t, f (.literal t) = .literal t) (segments : List Segment) :
    merge ((merge segments).map f) = merge (segments.map f) :=
  (seamless_merge.map hf).merge segments

/-- Segments may be merged before they are joined. -/
theorem merge_merge_append (a b : List Segment) : merge (merge a ++ merge b) = merge (a ++ b) := by
  have merge_append : ∀ back, merge (a ++ back) = a.foldr attach (merge back) := fun _ => List.foldr_append
  rw [(seamless_merge.append _).merge a, merge_append, seamless_merge.merge b, ← merge_append]

theorem outline_append (a b : List Segment) : outline (a ++ b) = a.foldr (fun s o => o.add s) (outline b) :=
  List.foldr_append

end Stylesheet
