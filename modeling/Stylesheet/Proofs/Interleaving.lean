/-
  Stylesheet.Proofs.Interleaving — passes of different families in any order.

  A pass that changes the values of selectors or urls touches neither references nor literals, and no declaration where
  only properties declare anything (`PropertiesDeclare`). So it may as well run before a pass that puts values in as
  after it (`inline_map_revalue`), and two passes of different families commute (`Pass.apply_comm`). Every pass keeps
  the condition (`PropertiesDeclare.apply`), so that a pass may be moved to the front over passes of other families
  (`applyAll_middle`), and by induction only the order within each family counts.

  Main statement: `passes_interleave`.
-/

import Stylesheet.Proofs.Pipeline

namespace Stylesheet

/-! ## Families of passes -/

inductive Pass.Family where
  | scope
  | urls
  | inline
  deriving DecidableEq, Repr

def Pass.family : Pass → Pass.Family
  | .scope _ => .scope
  | .urls _ => .urls
  | .inline _ _ => .inline

/-- Only parts of the kind of properties have a property for their value. -/
def PropertiesDeclare (segments : List Segment) : Prop :=
  ∀ p ∈ parts segments, ∀ q, p.value = .property q → p.kind = .property

theorem scope_cases (outer : Text) : (∀ segments, scope outer segments = segments) ∨
    ∃ f : Value → Value, (∀ v q, f v ≠ .property q) ∧
      ∀ segments, scope outer segments = segments.map (revalue .selector f) := by
  by_cases h : (Text.trim outer).isEmpty = true
  · exact Or.inl fun segments => if_pos h
  · exact Or.inr ⟨fun v => .text (Text.trim outer ++ ' ' :: v.display), fun _ _ heq => Value.noConfusion heq,
      fun segments => if_neg h⟩

/-! ## Values changed -/

section

variable {kind kind' : Kind} {f g : Value → Value} {segments : List Segment}

theorem PropertiesDeclare.map_revalue (h : PropertiesDeclare segments) (hf : ∀ v q, f v ≠ .property q) :
    PropertiesDeclare (segments.map (revalue kind f)) := by
  intro p hp q hq
  obtain ⟨s, hs, hsp⟩ := List.mem_map.mp (mem_parts.mp hp)
  cases s with
  | literal t => cases hsp
  | part r =>
    obtain rfl := Segment.part.inj hsp
    split at hq
    · exact absurd hq (hf _ _)
    · rename_i hk
      rw [if_neg hk]
      exact h r (mem_parts.mpr hs) q hq

theorem map_revalue_comm (hne : kind ≠ kind') :
    (segments.map (revalue kind f)).map (revalue kind' g) = (segments.map (revalue kind' g)).map (revalue kind f) := by
  rw [List.map_map, List.map_map]
  refine List.map_congr_left fun s _ => ?_
  cases s with
  | literal t => rfl
  | part p =>
    simp only [Function.comp_apply, revalue]
    by_cases hk : p.kind = kind
    · simp [hk, hne]
    · by_cases hk' : p.kind = kind'
      · simp [hk', Ne.symm hne]
      · simp [hk, hk']

theorem map_revalue_merge : (merge segments).map (revalue kind f) = merge (segments.map (revalue kind f)) := by
  rw [← merge_map_merge fun _ => rfl]
  exact (merge_eq_self ((separated_merge _).map_revalue kind f)
    (literal_nil_notMem_map_revalue (literal_nil_notMem_merge _) kind f)).symm

/-- Where only properties declare anything, a change to the values of another kind leaves the declarations. -/
theorem declarations_map_revalue (h : PropertiesDeclare segments) (hkind : kind ≠ .property)
    (hf : ∀ v q, f v ≠ .property q) : declarations (segments.map (revalue kind f)) = declarations segments := by
  rw [declarations, declarations, List.filterMap_map]
  refine List.filterMap_congr fun s hs => ?_
  cases s with
  | literal t => rfl
  | part p =>
    show Segment.declared? (.part (if p.kind = kind then { p with value := f p.value } else p)) = _
    split
    · rename_i hk
      have declared?_eq_none : ∀ r : Part, (∀ q, r.value ≠ .property q) → Segment.declared? (.part r) = none := by
        intro r hr
        obtain ⟨_, value, _⟩ := r
        cases value with
        | text t => rfl
        | property q => exact absurd rfl (hr q)
      rw [declared?_eq_none _ (hf p.value), declared?_eq_none p]
      intro q hq
      exact hkind (hk ▸ h p (mem_parts.mpr hs) q hq)
    · rfl

theorem inline_revalue (hkind : kind ≠ .var) (table : List (Text × Text)) (s : Segment) :
    Segment.inline table (revalue kind f s) = revalue kind f (Segment.inline table s) := by
  cases s with
  | literal t => rfl
  | part p =>
    by_cases hk : p.kind = kind
    · have inline_eq_self : ∀ r : Part, r.kind = kind → Segment.inline table (.part r) = .part r := by
        intro r hr
        obtain ⟨k, value, escape⟩ := r
        cases k with
        | var => exact absurd hr.symm hkind
        | selector | property | url => rfl
      rw [inline_eq_self p hk, revalue, if_pos hk]
      exact inline_eq_self _ hk
    · have revalue_inline : revalue kind f (Segment.inline table (.part p)) = Segment.inline table (.part p) := by
        unfold Segment.inline
        split
        · split
          · rfl
          · exact congrArg Segment.part (if_neg fun h => hkind h.symm)
        · exact congrArg Segment.part (if_neg hk)
      rw [revalue_inline, revalue, if_neg hk]

/-- Values are put in the same way before the values of another kind are changed and after it. -/
theorem inline_map_revalue (h : PropertiesDeclare segments) (hvar : kind ≠ .var) (hproperty : kind ≠ .property)
    (hf : ∀ v q, f v ≠ .property q) (values : List (Text × Text)) (useDeclared : Bool) :
    inline values useDeclared (segments.map (revalue kind f)) =
      (inline values useDeclared segments).map (revalue kind f) := by
  have hknown : known values useDeclared (segments.map (revalue kind f)) = known values useDeclared segments := by
    rw [known, known, declarations_map_revalue h hproperty hf]
  rw [inline, inline, hknown, map_revalue_merge, List.map_map, List.map_map]
  congr 1
  exact List.map_congr_left fun s _ => inline_revalue hvar _ s

end

/-! ## Two passes -/

section

variable {segments : List Segment}

theorem scope_mapUrls (outer : Text) (f : Text → Text) :
    scope outer (mapUrls f segments) = mapUrls f (scope outer segments) := by
  rcases scope_cases outer with hsame | ⟨g, -, hscope⟩
  · rw [hsame, hsame]
  · rw [hscope, hscope, mapUrls, mapUrls]
    exact map_revalue_comm (by decide)

theorem inline_scope (h : PropertiesDeclare segments) (values : List (Text × Text)) (useDeclared : Bool)
    (outer : Text) :
    inline values useDeclared (scope outer segments) = scope outer (inline values useDeclared segments) := by
  rcases scope_cases outer with hsame | ⟨g, hg, hscope⟩
  · rw [hsame, hsame]
  · rw [hscope, hscope]
    exact inline_map_revalue h (by decide) (by decide) hg values useDeclared

theorem inline_mapUrls (h : PropertiesDeclare segments) (values : List (Text × Text)) (useDeclared : Bool)
    (f : Text → Text) :
    inline values useDeclared (mapUrls f segments) = mapUrls f (inline values useDeclared segments) :=
  inline_map_revalue h (by decide) (by decide) (fun _ _ heq => Value.noConfusion heq) values useDeclared

/-- Two passes of different families may run in either order. -/
theorem Pass.apply_comm (h : PropertiesDeclare segments) {a b : Pass} (hne : a.family ≠ b.family) :
    a.apply (b.apply segments) = b.apply (a.apply segments) := by
  cases a with
  | scope outer =>
    cases b with
    | scope _ => exact absurd rfl hne
    | urls f => exact scope_mapUrls outer f
    | inline values useDeclared => exact (inline_scope h values useDeclared outer).symm
  | urls f =>
    cases b with
    | scope outer => exact (scope_mapUrls outer f).symm
    | urls _ => exact absurd rfl hne
    | inline values useDeclared => exact (inline_mapUrls h values useDeclared f).symm
  | inline values useDeclared =>
    cases b with
    | scope outer => exact inline_scope h values useDeclared outer
    | urls f => exact inline_mapUrls h values useDeclared f
    | inline _ _ => exact absurd rfl hne

/-- After a pass, still only properties declare anything. -/
theorem PropertiesDeclare.apply (h : PropertiesDeclare segments) (pass : Pass) :
    PropertiesDeclare (pass.apply segments) := by
  cases pass with
  | scope outer =>
    rcases scope_cases outer with hsame | ⟨f, hf, hscope⟩
    · rw [Pass.apply, hsame]
      exact h
    · rw [Pass.apply, hscope]
      exact h.map_revalue hf
  | urls f => exact h.map_revalue fun _ _ heq => Value.noConfusion heq
  | inline values useDeclared =>
    intro p hp
    rw [Pass.apply, Stylesheet.inline, parts_merge, mem_parts] at hp
    obtain ⟨s, hs, hsp⟩ := List.mem_map.mp hp
    refine h p (mem_parts.mpr ?_)
    rwa [← Segment.mem_parts_inline hsp]

end

/-! ## Runs of passes -/

theorem applyAll_cons (pass : Pass) (passes : List Pass) (segments : List Segment) :
    applyAll (pass :: passes) segments = applyAll passes (pass.apply segments) := rfl

/-- A pass may be moved to the front over passes of other families. -/
theorem applyAll_middle {segments : List Segment} (h : PropertiesDeclare segments) {pass : Pass} {front : List Pass}
    (hfront : ∀ p ∈ front, p.family ≠ pass.family) (rest : List Pass) :
    applyAll (front ++ pass :: rest) segments = applyAll (pass :: (front ++ rest)) segments := by
  induction front generalizing segments with
  | nil => rfl
  | cons p front ih =>
    have hne := hfront p List.mem_cons_self
    rw [List.cons_append, applyAll_cons, ih (h.apply p) fun q hq => hfront q (List.mem_cons_of_mem _ hq),
      applyAll_cons, Pass.apply_comm h hne.symm]
    rfl

/-- Passes of which those of each family are none are none. -/
theorem eq_nil_of_filter_family {passes : List Pass}
    (h : ∀ family, passes.filter (·.family = family) = []) : passes = [] := by
  refine List.eq_nil_iff_forall_not_mem.mpr fun p hp => ?_
  have hfamily := List.filter_eq_nil_iff.mp (h p.family) p hp
  simp at hfamily

/-- Runs of the same passes give the same if those of each family come in the same order. The induction is on the second
    run: its first pass is the first one of its family in the other run, and is moved to the front there. -/
theorem applyAll_eq_of_filter_eq {passes passes' : List Pass} {segments : List Segment} (h : PropertiesDeclare segments)
    (hfilter : ∀ family, passes.filter (·.family = family) = passes'.filter (·.family = family)) :
    applyAll passes segments = applyAll passes' segments := by
  induction passes' generalizing passes segments with
  | nil => rw [eq_nil_of_filter_family hfilter]
  | cons pass rest ih =>
    have hfirst := hfilter pass.family
    rw [List.filter_cons_of_pos (by simp)] at hfirst
    obtain ⟨front, back, rfl, hfront, -, hback⟩ := List.filter_eq_cons_iff.mp hfirst
    rw [applyAll_middle h (fun p hp => by simpa using hfront p hp), applyAll_cons, applyAll_cons]
    refine ih (h.apply pass) fun family => ?_
    have hfamily := hfilter family
    rw [List.filter_append] at hfamily ⊢
    by_cases heq : pass.family = family
    · rw [List.filter_cons_of_pos (by simpa using heq), List.filter_cons_of_pos (by simpa using heq)] at hfamily
      subst heq
      rw [List.filter_eq_nil_iff.mpr hfront] at hfamily ⊢
      exact (List.cons.inj hfamily).2
    · rwa [List.filter_cons_of_neg (by simpa using heq), List.filter_cons_of_neg (by simpa using heq)] at hfamily

/-- Where only properties declare anything, two passes of different families give the same in either order, and so do
    two runs of passes that have the same passes of each family in the same order. -/
theorem passes_interleave {segments : List Segment} (h : PropertiesDeclare segments) :
    (∀ a b : Pass, a.family ≠ b.family → b.apply (a.apply segments) = a.apply (b.apply segments)) ∧
      ∀ passes passes' : List Pass,
        (∀ family, passes.filter (·.family = family) = passes'.filter (·.family = family)) →
          applyAll passes segments = applyAll passes' segments :=
  ⟨fun _ _ hne => Pass.apply_comm h hne.symm, fun _ _ => applyAll_eq_of_filter_eq h⟩

/-- Four passes in two orders, over a reference that is put in and a declaration that gives its value. -/
theorem passes_interleave_four :
    let segments : List Segment :=
      [.literal r":root{".toList, .part ⟨.property, .property ⟨['a'], ['b']⟩, false⟩, .literal r"}".toList,
        .part ⟨.selector, .text ['c'], false⟩, .literal r"{d:".toList, .part ⟨.var, .text ['a'], false⟩,
        .part ⟨.url, .text ['f'], false⟩, .literal r"}".toList]
    let passes := [Pass.scope ['g'], .inline [] true, .urls (['h'] ++ ·), .scope ['i']]
    let passes' := [Pass.urls (['h'] ++ ·), .scope ['g'], .scope ['i'], .inline [] true]
    PropertiesDeclare segments ∧
      (Pass.scope ['g']).family ≠ (Pass.inline [] true).family ∧
      (Pass.inline [] true).apply ((Pass.scope ['g']).apply segments) =
        (Pass.scope ['g']).apply ((Pass.inline [] true).apply segments) ∧
      (∀ family, passes.filter (·.family = family) = passes'.filter (·.family = family)) ∧
      applyAll passes segments = applyAll passes' segments := by
  intro segments passes passes'
  have hdeclare : PropertiesDeclare segments := by
    intro p hp q hq
    simp only [segments, parts_literal, parts_part, parts_nil, List.mem_cons, List.not_mem_nil, or_false] at hp
    rcases hp with rfl | rfl | rfl | rfl
    · rfl
    all_goals exact Value.noConfusion hq
  have hfilter : ∀ family, passes.filter (·.family = family) = passes'.filter (·.family = family) := by
    intro family
    cases family <;> rfl
  exact ⟨hdeclare, by decide, (passes_interleave hdeclare).1 _ _ (by decide), hfilter,
    (passes_interleave hdeclare).2 _ _ hfilter⟩

end Stylesheet
