/-
  Stylesheet.Proofs.Reparse — a text that is written back and parsed again.

  Where no properties are looked for, or nothing but properties and references, a text that is cut into its segments
  and written back has the same segments. Writing back puts the kept references in lower case, which moves nothing
  (`kept_lower`), and then swaps one declaration after the other, which moves what comes after it (`kept_declaration`):
  what was apart from its span is found again apart from it, and a reference inside it is dropped again. Neither needs to
  know how selectors and urls are read past a changed declaration; with them the second parse may well find other
  segments.

  Main statement: `parse_css_parse`.
-/

import Stylesheet.Proofs.Occurrence.Moving
import Stylesheet.Proofs.Recasing
import Stylesheet.Proofs.Swap

namespace Stylesheet

/-! ## One declaration written out -/

/-- Where a chosen occurrence gives way to another one, the other chosen ones stay, those after it moved along. -/
theorem Choice.replace {found found' l r : List Occurrence} {o o' : Occurrence} (h : Choice (l ++ o :: r) found)
    (hpos : ∀ f ∈ found, f.offset < f.stop) (hoffset : o'.offset = o.offset) (hpos' : o'.offset < o'.stop)
    (hmem : o' ∈ found') (hmoves : Moves o o' found found') :
    Choice (l ++ o' :: r.map (Occurrence.shift (o'.length - o.length))) found' := by
  obtain ⟨hl, hcons, hlr⟩ := List.pairwise_append.mp h.apart
  obtain ⟨hr, hr'⟩ := List.pairwise_cons.mp hcons
  have hbefore : ∀ k ∈ l, k.stop ≤ o.offset := fun k hk => hlr k hk o (by simp)
  have hstop : o'.stop = o.stop + (o'.length - o.length) := by
    rw [Occurrence.stop, Occurrence.stop, hoffset]
    omega
  have hopos := hpos o (h.mem o (by simp))
  refine ⟨fun k hk => ?_, ?_, fun f hf => ?_⟩
  · rcases List.mem_append.mp hk with hk | hk
    · exact hmoves.left k (h.mem k (by simp [hk])) (hbefore k hk)
    rcases List.mem_cons.mp hk with rfl | hk
    · exact hmem
    · obtain ⟨g, hg, rfl⟩ := List.mem_map.mp hk
      exact hmoves.right g (h.mem g (by simp [hg])) (hr g hg)
  · refine List.pairwise_append.mpr ⟨hl, List.pairwise_cons.mpr ⟨fun k hk => ?_, ?_⟩, fun a ha k hk => ?_⟩
    · obtain ⟨g, hg, rfl⟩ := List.mem_map.mp hk
      have := hr g hg
      rw [Occurrence.shift_offset]
      omega
    · refine List.pairwise_map.mpr (hr'.imp fun {a b} hab => ?_)
      rw [Occurrence.shift_stop, Occurrence.shift_offset]
      omega
    · have := hbefore a ha
      rcases List.mem_cons.mp hk with rfl | hk
      · omega
      · obtain ⟨g, hg, rfl⟩ := List.mem_map.mp hk
        have := hr g hg
        rw [Occurrence.shift_offset]
        omega
  · rcases hmoves.back f hf with rfl | ⟨hf, hle⟩ | ⟨g, hg, hle, rfl⟩ | ⟨h1, h2⟩
    · exact Or.inl (by simp)
    · rcases h.covered_left hpos hf hle with hk | ⟨k, hk, hprecedes, hlt⟩
      · exact Or.inl (by simp [hk])
      · exact Or.inr ⟨k, by simp [hk], hprecedes, hlt⟩
    · rcases h.covered_right hpos hg hle with hk | ⟨k, hk, hprecedes, hlt⟩
      · exact Or.inl (by simp [List.mem_map_of_mem hk])
      · refine Or.inr ⟨k.shift (o'.length - o.length), by simp [List.mem_map_of_mem hk], hprecedes.shift _, ?_⟩
        rw [Occurrence.shift_offset, Occurrence.shift_stop]
        omega
    · exact Or.inr ⟨o', by simp, Or.inl h1, h2⟩

section

variable {kinds : List Kind} {before span after : Text} {p : Property}

theorem moves_findings_of_kinds {source source' : Text} {o o' : Occurrence}
    (h : ∀ k ∈ kinds, Moves o o' (k.occurrences source) (k.occurrences source')) :
    Moves o o' (findings source kinds).occurrences (findings source' kinds).occurrences := by
  refine ⟨fun f hf hle => ?_, fun f hf hle => ?_, fun f hf => ?_⟩
  · obtain ⟨k, hk, hf⟩ := mem_findings.mp hf
    exact mem_findings.mpr ⟨k, hk, (h k hk).left f hf hle⟩
  · obtain ⟨k, hk, hf⟩ := mem_findings.mp hf
    exact mem_findings.mpr ⟨k, hk, (h k hk).right f hf hle⟩
  · obtain ⟨k, hk, hf⟩ := mem_findings.mp hf
    rcases (h k hk).back f hf with hnew | ⟨hf, hle⟩ | ⟨g, hg, hle, heq⟩ | hinside
    · exact Or.inl hnew
    · exact Or.inr (Or.inl ⟨mem_findings.mpr ⟨k, hk, hf⟩, hle⟩)
    · exact Or.inr (Or.inr (Or.inl ⟨g, mem_findings.mpr ⟨k, hk, hg⟩, hle, heq⟩))
    · exact Or.inr (Or.inr (Or.inr hinside))

theorem declares_of_mem_findings
    (ho : Declaration.occurrenceAt before.length span p ∈ (findings (before ++ span ++ after) kinds).occurrences) :
    Declaration.Declares span p ∧ Variable.Fenced before after := by
  have hmem := mem_occurrences_of_mem_findings ho
  obtain ⟨a, m, b, q, hplaced, hpart, hdeclares, hopened, hclosed⟩ := Declaration.exists_of_mem_occurrences hmem
  obtain ⟨rfl, rfl, rfl⟩ := hplaced.unique ⟨rfl, rfl, rfl⟩
  obtain rfl : p = q := Value.property.inj (Part.mk.inj hpart).2.1
  exact ⟨hdeclares, Declaration.fenced hopened hclosed⟩

/-- Where only properties and references are looked for, a declaration that is written out moves what comes after it and
    nothing else. -/
theorem moves_findings (hkinds : ∀ k ∈ kinds, k = .property ∨ k = .var)
    (ho : Declaration.occurrenceAt before.length span p ∈ (findings (before ++ span ++ after) kinds).occurrences) :
    Moves (Declaration.occurrenceAt before.length span p) (Declaration.occurrenceAt before.length p.declaration p)
      (findings (before ++ span ++ after) kinds).occurrences
      (findings (before ++ p.declaration ++ after) kinds).occurrences := by
  obtain ⟨hdeclares, hfenced⟩ := declares_of_mem_findings ho
  refine moves_findings_of_kinds fun k hk => ?_
  rcases hkinds k hk with rfl | rfl
  · exact Declaration.moves hdeclares hdeclares.declaration (mem_occurrences_of_mem_findings ho)
  · exact Variable.moves hfenced hdeclares.getLast?_declaration.symm ⟨'-', _, rfl, by decide⟩ ⟨rfl, rfl, rfl⟩
      ⟨rfl, rfl, rfl⟩

theorem kept_declaration (hkinds : ∀ k ∈ kinds, k = .property ∨ k = .var) {l r : List Occurrence}
    (hkept : (findings (before ++ span ++ after) kinds).kept =
      l ++ Declaration.occurrenceAt before.length span p :: r) :
    (findings (before ++ p.declaration ++ after) kinds).kept =
      l ++ Declaration.occurrenceAt before.length p.declaration p ::
        r.map (Occurrence.shift (p.declaration.length - span.length)) := by
  have hchoice := choice_kept_findings (before ++ span ++ after) kinds
  rw [hkept] at hchoice
  have ho := hchoice.mem (Declaration.occurrenceAt before.length span p) (by simp)
  obtain ⟨hdeclares, -⟩ := declares_of_mem_findings ho
  obtain ⟨k, hk, hfound⟩ := mem_findings.mp ho
  obtain rfl : k = .property := (kind_of_mem_occurrences hfound).symm
  have hmem : Declaration.occurrenceAt before.length p.declaration p ∈
      (findings (before ++ p.declaration ++ after) kinds).occurrences := by
    obtain ⟨l', r', hfound'⟩ := Declaration.exists_occurrences_append hfound ⟨rfl, rfl, rfl⟩
    refine mem_findings.mpr ⟨.property, hk, ?_⟩
    change _ ∈ Declaration.occurrences _
    rw [hfound' _ p hdeclares.declaration]
    simp
  refine kept_eq_of_choice (hchoice.replace (fun f hf => (findings_inside hf).2.1) rfl (findings_inside hmem).2.1 hmem
    (moves_findings hkinds ho))

end

def writing : Swap := ⟨fun p _ => p, Part.written⟩

theorem suits_writing {kinds : List Kind} (hkinds : ∀ k ∈ kinds, k = .property ∨ k = .var) :
    writing.Suits (fun source => (findings source kinds).kept)
      fun p span => p.kind ≠ .property → p.written span = span := by
  intro before span after l r o hkept hplaced hfit
  replace hkept : (findings (before ++ span ++ after) kinds).kept = l ++ o :: r := hkept
  by_cases hproperty : o.part.kind = .property
  · have hmem : o ∈ (findings (before ++ span ++ after) kinds).kept := by
      rw [hkept]
      simp
    obtain ⟨b, m, a, hplaced', hspelled⟩ := exists_of_mem_findings (Layout.mem_of_mem_kept hmem)
    obtain ⟨rfl, rfl, rfl⟩ := hplaced'.unique hplaced
    obtain ⟨p, hpart, -⟩ := hspelled.exists_property hproperty
    have ho : o = Declaration.occurrenceAt b.length m p := by
      rw [hplaced.eq_mk, hpart]
      rfl
    rw [ho] at hkept ⊢
    exact kept_declaration hkinds hkept
  · have hwritten : o.part.written span = span := hfit hproperty
    have hsame : Occurrence.mk o.part o.offset span.length = o := by
      rw [hplaced.offset_eq, ← hplaced.eq_mk]
    have hstay : r.map (Occurrence.shift 0) = r :=
      (List.map_congr_left fun f _ => f.shift_zero).trans (List.map_id r)
    simp only [writing, Swap.occurrence, Swap.shift, hwritten, hsame, Int.sub_self, hstay]
    exact hkept

/-! ## A text parsed again -/

section

variable {source : Text} {kinds : List Kind} {c : Cut}

theorem Cut.frame_lower (c : Cut) : c.lower.frame = c.frame := by
  rw [frame, frame, lower, List.map_map]
  rfl

/-- A text that is written back is cut as it was. -/
theorem exists_cuts_again (hkinds : (∀ k ∈ kinds, k ≠ .property) ∨ ∀ k ∈ kinds, k = .property ∨ k = .var)
    (hc : c.Cuts source (findings source kinds).kept) :
    ∃ d : Cut, d.Cuts (c.textWith Stretch.written) (findings (c.textWith Stretch.written) kinds).kept ∧
      d.frame = c.frame := by
  have hs := hc.located.spelled
  have hlower := hc.lower hs
  rw [← kept_lower hc] at hlower
  have hplain : ∀ s ∈ c.lower.stretches, s.found.part.kind ≠ .property → s.written = s.span := by
    intro s hmem hk
    obtain ⟨t, ht, rfl⟩ := List.mem_map.mp hmem
    exact (hs t ht).written_lowered_of_ne hk
  rw [← textWith_written_lower hs, ← c.frame_lower]
  rcases hkinds with hnone | honly
  · have hwritten : c.lower.textWith Stretch.written = c.lower.text := by
      refine Cut.textWith_written_eq_text fun s hmem => hplain s hmem fun hk => ?_
      have hkept : s.found ∈ (findings c.lower.text kinds).kept := hlower.found_eq ▸ List.mem_map_of_mem hmem
      obtain ⟨k, hkinds, hfound⟩ := mem_findings.mp (Layout.mem_of_mem_kept hkept)
      exact hnone k hkinds ((kind_of_mem_occurrences hfound).symm.trans hk)
    rw [hwritten]
    exact ⟨c.lower, hlower, rfl⟩
  · exact (suits_writing honly).exists_cuts hlower hplain

end

/-- Where no properties are looked for, or nothing but properties and references, a text that is written back and parsed
    again has the segments it had. -/
theorem parse_css_parse {source : Text} {options : Options}
    (hkinds : (∀ k ∈ options.kinds, k ≠ .property) ∨ ∀ k ∈ options.kinds, k = .property ∨ k = .var)
    (hblank : options.dropBlank = false) (hlimit : source.length ≤ options.limit) :
    ∃ parsed out, parse source options = .ok parsed ∧ css parsed.segments = .ok out ∧
      (out.length ≤ options.limit → ∃ again, parse out options = .ok again ∧ again.segments = parsed.segments) := by
  obtain ⟨parsed, hparse⟩ := exists_parse hlimit
  obtain ⟨c, hc, hcss⟩ := exists_cut_css hparse hblank
  refine ⟨parsed, c.textWith Stretch.written, hparse, hcss, fun hout => ?_⟩
  obtain ⟨again, hagain⟩ := exists_parse hout
  obtain ⟨d, hd, hframe⟩ := exists_cuts_again hkinds hc
  refine ⟨again, hagain, ?_⟩
  have hnil : d.stretches = [] ↔ c.stretches = [] := by
    have := congrArg (fun x => x.1.length) hframe
    simp only [Cut.frame, List.length_map] at this
    rw [← List.length_eq_zero_iff, this, List.length_eq_zero_iff]
  rw [segments_of_cuts hagain hd, segments_of_cuts hparse hc, Cut.segments_eq_of_frame_eq hframe]
  simp only [hnil]
  split
  · rename_i hempty
    rw [Cut.textWith_written_eq_text (by simp [hempty]), hc.text_eq]
  · rfl

/-- Two declarations that grow and one that shrinks, with references before them, in one of them and after them. -/
theorem parse_css_parse_root :
    let source := r"VAR(--a):root{b:Var(--c); d:e; --f : g}=VAR(--h)".toList
    let once := r"var(--a):root{--b: Var(--c); --d: e; --f: g}=var(--h)".toList
    let options : Options := { kinds := [.property, .var] }
    ((∀ k ∈ options.kinds, k ≠ .property) ∨ ∀ k ∈ options.kinds, k = .property ∨ k = .var) ∧
      options.dropBlank = false ∧ (source.length : Int) ≤ options.limit ∧ (once.length : Int) ≤ options.limit ∧
      ∃ parsed again, parse source options = .ok parsed ∧ css parsed.segments = .ok once ∧
        parse once options = .ok again ∧ again.segments = parsed.segments := by
  intro source once options
  have hkinds : (∀ k ∈ options.kinds, k ≠ .property) ∨ ∀ k ∈ options.kinds, k = .property ∨ k = .var :=
    Or.inr (by decide)
  have hlimit : (source.length : Int) ≤ options.limit := by decide
  have hlimit' : (once.length : Int) ≤ options.limit := by decide
  obtain ⟨parsed, out, hparse, hcss, hagain⟩ := parse_css_parse hkinds rfl hlimit
  have honce : css parsed.segments = .ok once := by
    unfold parse at hparse
    rw [if_neg (by decide)] at hparse
    obtain rfl := Except.ok.inj hparse
    unfold arrange Layout.verdicts
    rw [Layout.sorted_eq_insertionSort]
    decide +kernel
  obtain rfl : out = once := Except.ok.inj (hcss.symm.trans honce)
  obtain ⟨again, hparse', hsegments⟩ := hagain hlimit'
  exact ⟨hkinds, rfl, hlimit, hlimit', parsed, again, hparse, hcss, hparse', hsegments⟩

end Stylesheet
