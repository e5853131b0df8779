/-
  Stylesheet.Proofs.Pipeline — what passes keep of the segments they are given.

  A pass changes values of selectors and urls and puts literals in place of references. `Tidy` is kept by every pass
  (`Tidy.apply`), and so is all that looks neither at literals, nor at references, nor at those values
  (`Steady.filterMap_apply`): the properties themselves, and the order of all parts that are no references.

  Main statement: `passes_keep`.
-/

import Stylesheet.Css
import Stylesheet.Pass.Sequence
import Stylesheet.Proofs.Cut
import Stylesheet.Proofs.Merge

namespace Stylesheet

/-! ## Sound parts -/

/-- A property, and nothing else, has a property for its value; only a variable is marked for escaping. -/
structure Part.Sound (p : Part) : Prop where
  property : (∃ q, p.value = .property q) ↔ p.kind = .property
  escape : p.escape = true → p.kind = .var

theorem Part.sound_text {kind : Kind} {t : Text} {escape : Bool} (hkind : kind ≠ .property)
    (hescape : escape = true → kind = .var) : Part.Sound ⟨kind, .text t, escape⟩ := by
  refine ⟨⟨fun h => ?_, fun h => absurd h hkind⟩, hescape⟩
  obtain ⟨q, hq⟩ := h
  cases hq

theorem Spelled.sound {p : Part} {span : Text} (h : Spelled p span) : p.Sound := by
  cases h with
  | selector name | url t => exact Part.sound_text (by decide) (by decide)
  | var word name escape h => exact Part.sound_text (by decide) fun _ => rfl
  | property p span h => exact ⟨⟨fun _ => rfl, fun _ => ⟨p, rfl⟩⟩, fun h => absurd h (by simp)⟩

theorem Part.Sound.exists_css {p : Part} (h : p.Sound) : ∃ t, p.css = .ok t := by
  unfold Part.css
  split
  · exact ⟨_, rfl⟩
  · rename_i hkind hvalue
    obtain ⟨q, hq⟩ := h.property.mpr hkind
    rw [hvalue] at hq
    cases hq
  all_goals exact ⟨_, rfl⟩

/-- Segments with sound parts can be written. -/
theorem exists_css {segments : List Segment} (h : ∀ p ∈ parts segments, p.Sound) : ∃ t, css segments = .ok t := by
  induction segments with
  | nil => exact ⟨[], rfl⟩
  | cons s rest ih =>
    obtain ⟨u, hu⟩ : ∃ u, s.css = .ok u := by
      cases s with
      | literal u => exact ⟨u, rfl⟩
      | part p => exact (h p (by simp)).exists_css
    obtain ⟨v, hv⟩ := ih fun p hp => h p (by
      cases s with
      | literal _ => exact hp
      | part _ => exact List.mem_cons_of_mem _ hp)
    refine ⟨u ++ v, ?_⟩
    rw [css_cons, hu, hv]
    rfl

/-! ## Tidy segments -/

structure Tidy (segments : List Segment) : Prop where
  sound : ∀ p ∈ parts segments, p.Sound
  separated : Separated segments

theorem mem_parts {segments : List Segment} {p : Part} : p ∈ parts segments ↔ .part p ∈ segments := by
  rw [parts, List.mem_filterMap]
  constructor
  · intro h
    obtain ⟨s, hs, hp⟩ := h
    cases s with
    | literal t => cases hp
    | part q =>
      obtain rfl := Option.some.inj hp
      exact hs
  · intro h
    exact ⟨_, h, rfl⟩

theorem isLiteral_revalue (kind : Kind) (f : Value → Value) (s : Segment) :
    (revalue kind f s).isLiteral = s.isLiteral := by
  cases s <;> rfl

theorem Separated.map_revalue {segments : List Segment} (h : Separated segments) (kind : Kind) (f : Value → Value) :
    Separated (segments.map (revalue kind f)) := by
  unfold Separated
  rw [List.isChain_map]
  refine h.imp fun a b hab => ?_
  rw [isLiteral_revalue, isLiteral_revalue]
  exact hab

theorem literal_nil_notMem_map_revalue {segments : List Segment} (h : .literal [] ∉ segments) (kind : Kind)
    (f : Value → Value) : .literal [] ∉ segments.map (revalue kind f) := by
  intro hmem
  obtain ⟨s, hs, heq⟩ := List.mem_map.mp hmem
  cases s with
  | literal t =>
    obtain rfl := Segment.literal.inj heq
    exact h hs
  | part p => cases heq

theorem Tidy.revalue {kind : Kind} {f : Value → Value} (hkind : kind ≠ .property) (hf : ∀ v q, f v ≠ .property q)
    {segments : List Segment} (h : Tidy segments) : Tidy (segments.map (revalue kind f)) := by
  constructor
  · intro p hp
    obtain ⟨s, hs, hsp⟩ := List.mem_map.mp (mem_parts.mp hp)
    cases s with
    | literal t => cases hsp
    | part q =>
      have hq := h.sound q (mem_parts.mpr hs)
      obtain rfl := Segment.part.inj hsp
      by_cases hk : q.kind = kind
      · rw [if_pos hk]
        refine ⟨⟨fun hv => absurd hv.choose_spec (hf _ _), fun hp => ?_⟩, hq.escape⟩
        exact absurd (hk.symm.trans hp) hkind
      · rw [if_neg hk]
        exact hq
  · exact h.separated.map_revalue kind f

theorem Segment.mem_parts_inline {table : List (Text × Text)} {s : Segment} {p : Part}
    (h : Segment.inline table s = .part p) : s = .part p := by
  unfold Segment.inline at h
  split at h
  · split at h
    · cases h
    · exact h
  · exact h

theorem Tidy.apply (pass : Pass) {segments : List Segment} (h : Tidy segments) : Tidy (pass.apply segments) := by
  cases pass with
  | scope outer =>
    unfold Pass.apply Stylesheet.scope
    dsimp only
    split
    · exact h
    · exact h.revalue (by decide) (by simp)
  | urls f => exact h.revalue (by decide) (by simp)
  | inline values useDeclared =>
    refine ⟨fun p hp => h.sound p ?_, separated_merge _⟩
    rw [Pass.apply, Stylesheet.inline, parts_merge, mem_parts, List.mem_map] at hp
    obtain ⟨s, hs, hsp⟩ := hp
    rw [mem_parts, ← Segment.mem_parts_inline hsp]
    exact hs

theorem Pass.literal_nil_notMem_apply (pass : Pass) {segments : List Segment} (h : .literal [] ∉ segments) :
    .literal [] ∉ pass.apply segments := by
  cases pass with
  | scope outer =>
    unfold Pass.apply Stylesheet.scope
    dsimp only
    split
    · exact h
    · exact literal_nil_notMem_map_revalue h _ _
  | urls f => exact literal_nil_notMem_map_revalue h _ _
  | inline values useDeclared => exact literal_nil_notMem_merge _

/-! ## What passes do not see -/

/-- A reading of segments that passes over literals and references, and sees of other parts but properties only what
    kind they have. -/
structure Steady {β : Type} (f : Segment → Option β) : Prop where
  literal : ∀ t, f (.literal t) = none
  var : ∀ value escape, f (.part ⟨.var, value, escape⟩) = none
  value : ∀ kind value value' escape, kind ≠ .property →
    f (.part ⟨kind, value, escape⟩) = f (.part ⟨kind, value', escape⟩)

theorem Steady.filterMap_revalue {β : Type} {f : Segment → Option β} (h : Steady f) {kind : Kind} (g : Value → Value)
    (hkind : kind ≠ .property) (segments : List Segment) :
    (segments.map (revalue kind g)).filterMap f = segments.filterMap f := by
  rw [List.filterMap_map]
  refine List.filterMap_congr fun s _ => ?_
  cases s with
  | literal t => rfl
  | part p =>
    show f (.part (if p.kind = kind then { p with value := g p.value } else p)) = f (.part p)
    split
    · rename_i hk
      exact h.value _ _ _ _ (by rw [hk]; exact hkind)
    · rfl

theorem Steady.filterMap_inline {β : Type} {f : Segment → Option β} (h : Steady f) (table : List (Text × Text))
    (segments : List Segment) : (segments.map (Segment.inline table)).filterMap f = segments.filterMap f := by
  rw [List.filterMap_map]
  refine List.filterMap_congr fun s _ => ?_
  rw [Function.comp_apply]
  unfold Segment.inline
  split
  · split
    · rw [h.literal, h.var]
    · rfl
  · rfl

/-- A pass keeps every steady reading. -/
theorem Steady.filterMap_apply {β : Type} {f : Segment → Option β} (h : Steady f) (pass : Pass)
    (segments : List Segment) : (pass.apply segments).filterMap f = segments.filterMap f := by
  cases pass with
  | scope outer =>
    unfold Pass.apply Stylesheet.scope
    dsimp only
    split
    · rfl
    · exact h.filterMap_revalue _ (by decide) segments
  | urls f => exact h.filterMap_revalue _ (by decide) segments
  | inline values useDeclared =>
    rw [Pass.apply, Stylesheet.inline, filterMap_merge h.literal]
    exact h.filterMap_inline _ segments

def Segment.property? : Segment → Option Part
  | .part p => if p.kind = .property then some p else none
  | .literal _ => none

def Segment.fixedKind? : Segment → Option Kind
  | .part p => if p.kind = .var then none else some p.kind
  | .literal _ => none

theorem steady_property? : Steady Segment.property? := by
  refine ⟨fun _ => rfl, fun _ _ => rfl, fun kind v v' e hkind => ?_⟩
  rw [Segment.property?, Segment.property?, if_neg hkind, if_neg hkind]

theorem steady_fixedKind? : Steady Segment.fixedKind? :=
  ⟨fun _ => rfl, fun _ _ => rfl, fun _ _ _ _ _ => rfl⟩

/-! ## Runs of passes -/

/-- What every pass keeps is kept by a run of passes. -/
theorem applyAll_invariant {P : List Segment → Prop}
    (keep : ∀ (pass : Pass) segments, P segments → P (pass.apply segments)) (passes : List Pass)
    {segments : List Segment} (h : P segments) : P (applyAll passes segments) := by
  unfold applyAll
  induction passes generalizing segments with
  | nil => exact h
  | cons pass rest ih => exact ih (keep pass segments h)

theorem Steady.filterMap_applyAll {β : Type} {f : Segment → Option β} (h : Steady f) (passes : List Pass)
    (segments : List Segment) : (applyAll passes segments).filterMap f = segments.filterMap f :=
  applyAll_invariant (P := fun current => current.filterMap f = segments.filterMap f)
    (fun pass _ hp => (h.filterMap_apply pass _).trans hp) passes rfl

/-! ## The segments of a text -/

theorem separated_filter_segments (c : Cut) (dropBlank : Bool) :
    Separated (c.segments.filter fun s => !Layout.isVoid dropBlank s) := by
  obtain ⟨stretches, tail⟩ := c
  rw [Cut.segments, List.filter_append]
  induction stretches with
  | nil =>
    rw [List.flatMap_nil, List.filter_nil, List.nil_append, List.filter_cons]
    split
    · exact List.isChain_singleton _
    · exact separated_nil
  | cons s stretches ih =>
    rw [List.flatMap_cons, List.filter_append, List.append_assoc, List.filter_cons]
    split
    · exact separated_literal_part_cons ih
    · exact separated_part_cons ih

theorem tidy_of_parse {source : Text} {options : Options} {parsed : Parsed} (h : parse source options = .ok parsed) :
    Tidy parsed.segments := by
  constructor
  · intro p hp
    rw [parts_of_parse h] at hp
    obtain ⟨o, ho, rfl⟩ := List.mem_map.mp hp
    obtain ⟨_, _, _, -, hspelled⟩ := exists_of_mem_findings (Layout.mem_of_mem_kept ho)
    exact hspelled.sound
  · obtain ⟨c, -, hsegments⟩ := exists_cut_of_parse h
    rw [hsegments]
    split
    · exact List.isChain_singleton _
    · exact separated_filter_segments c options.dropBlank

theorem literal_nil_notMem_of_parse {source : Text} {options : Options} {parsed : Parsed} (hne : source ≠ [])
    (h : parse source options = .ok parsed) : .literal [] ∉ parsed.segments := by
  obtain ⟨c, -, hsegments⟩ := exists_cut_of_parse h
  rw [hsegments]
  split
  · intro hmem
    exact hne (Segment.literal.inj (List.mem_singleton.mp hmem)).symm
  · intro hmem
    have := List.of_mem_filter hmem
    rw [Cut.isVoid_nil] at this
    cases this

/-- After any of the passes run on the segments of a text, the parts are sound, no two literals stand side by side and
    none is empty unless the text is, the properties are those of the text, the other parts that are no references have
    the same kinds in the same order, and all of it can be written as CSS. -/
theorem passes_keep {source : Text} {options : Options} (passes : List Pass) (hlimit : source.length ≤ options.limit) :
    ∃ parsed, parse source options = .ok parsed ∧ ∀ done, done <+: passes →
      (∀ p ∈ parts (applyAll done parsed.segments),
        ((∃ q, p.value = .property q) ↔ p.kind = .property) ∧ (p.escape = true → p.kind = .var)) ∧
      Separated (applyAll done parsed.segments) ∧
      (source ≠ [] → .literal [] ∉ applyAll done parsed.segments) ∧
      (applyAll done parsed.segments).filterMap Segment.property? = parsed.segments.filterMap Segment.property? ∧
      (applyAll done parsed.segments).filterMap Segment.fixedKind? = parsed.segments.filterMap Segment.fixedKind? ∧
      ∃ t, css (applyAll done parsed.segments) = .ok t := by
  obtain ⟨parsed, hparse⟩ := exists_parse hlimit
  refine ⟨parsed, hparse, fun done _ => ?_⟩
  have htidy : Tidy (applyAll done parsed.segments) :=
    applyAll_invariant (fun pass _ h => h.apply pass) done (tidy_of_parse hparse)
  refine ⟨fun p hp => ?_, htidy.separated, fun hne => ?_, ?_, ?_, exists_css htidy.sound⟩
  · exact ⟨(htidy.sound p hp).property, (htidy.sound p hp).escape⟩
  · exact applyAll_invariant (P := fun current => .literal [] ∉ current)
      (fun pass _ h => pass.literal_nil_notMem_apply h) done (literal_nil_notMem_of_parse hne hparse)
  · exact steady_property?.filterMap_applyAll done parsed.segments
  · exact steady_fixedKind?.filterMap_applyAll done parsed.segments

/-- Three passes, the last of which leaves nothing but literals of a reference between two literals. -/
theorem passes_keep_scope_urls_inline :
    let source := r":root{--a: b}c{d:var(--e) url(f)}".toList
    let passes := [Pass.scope ".g".toList, .urls (['h'] ++ ·), .inline [(['e'], [])] true]
    (source.length : Int) ≤ ({} : Options).limit ∧
    ∃ parsed, parse source {} = .ok parsed ∧ ∀ done, done <+: passes →
      (∀ p ∈ parts (applyAll done parsed.segments),
        ((∃ q, p.value = .property q) ↔ p.kind = .property) ∧ (p.escape = true → p.kind = .var)) ∧
      Separated (applyAll done parsed.segments) ∧
      (source ≠ [] → .literal [] ∉ applyAll done parsed.segments) ∧
      (applyAll done parsed.segments).filterMap Segment.property? = parsed.segments.filterMap Segment.property? ∧
      (applyAll done parsed.segments).filterMap Segment.fixedKind? = parsed.segments.filterMap Segment.fixedKind? ∧
      ∃ t, css (applyAll done parsed.segments) = .ok t :=
  ⟨by decide, @passes_keep _ {} _ (by decide)⟩

end Stylesheet
