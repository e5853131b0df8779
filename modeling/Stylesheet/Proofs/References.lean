/-
  Stylesheet.Proofs.References — no reference to a variable is lost or cut.

  A finding of any kind lies apart from a reference or covers all of it, and only a selector, a property or the finding
  of the reference itself can cover it (`apart_or_covers`). So what is kept where references are looked for covers each
  of them, and no literal has one.

  Main statement: `references_kept`.
-/

import Stylesheet.Proofs.Cut

namespace Stylesheet

def Occurrence.Apart (o : Occurrence) (start stop : Nat) : Prop := o.stop ≤ start ∨ stop ≤ o.offset

def Occurrence.Covers (o : Occurrence) (start stop : Nat) : Prop := o.offset ≤ start ∧ stop ≤ o.stop

structure Occurrence.Finds (o : Occurrence) (before word name after : Text) : Prop where
  part_eq : o.part = ⟨.var, .text name, Variable.isEscaped before after⟩
  offset_eq : o.offset = before.length
  length_eq : o.length = (Variable.spell word name).length

section

variable {source before word name after : Text} {kinds : List Kind} {o : Occurrence}

/-- A fenced occurrence is apart from a reference or covers it. -/
theorem apart_or_covers_of_fenced {a span b : Text} (h : o.Placed source a span b) (hf : Variable.Fenced a b)
    (href : Variable.IsReference word name) (hs : source = before ++ Variable.spell word name ++ after) :
    o.Apart before.length (before.length + (Variable.spell word name).length) ∨
      o.Covers before.length (before.length + (Variable.spell word name).length) := by
  have hoffset := h.offset_eq
  have hstop := h.stop_eq
  unfold Occurrence.Apart Occurrence.Covers
  rcases Variable.inside_or_apart h.source_eq hf href hs with hin | hin | hin
  · left
    omega
  · left
    omega
  · right
    omega

theorem apart_or_covers (href : Variable.IsReference word name)
    (hs : source = before ++ Variable.spell word name ++ after) (ho : o ∈ (findings source kinds).occurrences) :
    o.Apart before.length (before.length + (Variable.spell word name).length) ∨
      (o.Covers before.length (before.length + (Variable.spell word name).length) ∧
        (o.Finds before word name after ∨ o.part.kind = .selector ∨ o.part.kind = .property)) := by
  have ho := mem_occurrences_of_mem_findings ho
  cases hkind : o.part.kind with
  | selector =>
    rw [hkind] at ho
    obtain ⟨p, name, -, hplaced, -⟩ := Selector.exists_place ho
    exact (apart_or_covers_of_fenced hplaced p.fenced href hs).imp id fun h => ⟨h, by simp⟩
  | property =>
    rw [hkind] at ho
    obtain ⟨a, span, b, p, hplaced, -, -, ha, hb⟩ := Declaration.exists_of_mem_occurrences ho
    exact (apart_or_covers_of_fenced hplaced (Declaration.fenced ha hb) href hs).imp id fun h => ⟨h, by simp⟩
  | url =>
    rw [hkind] at ho
    obtain ⟨a, f, b, hf, hplaced, -⟩ := Url.exists_of_mem_occurrences ho
    have hoffset := hplaced.offset_eq
    have hstop := hplaced.stop_eq
    left
    unfold Occurrence.Apart
    rcases Url.apart_of_reference hf hplaced.source_eq href hs with h | h
    · right
      omega
    · left
      omega
  | var =>
    rw [hkind] at ho
    obtain ⟨a, word', name', b, href', hplaced, hpart⟩ := Variable.mem_occurrences.mp ho
    have hoffset := hplaced.offset_eq
    have hstop := hplaced.stop_eq
    have hlength := hplaced.length_eq
    unfold Occurrence.Apart Occurrence.Covers
    rcases Variable.same_or_apart href hs href' hplaced.source_eq with ⟨rfl, rfl, rfl, rfl⟩ | h | h
    · right
      refine ⟨?_, Or.inl ⟨hpart, hoffset, hlength⟩⟩
      omega
    · left
      right
      omega
    · left
      left
      omega

theorem exists_finding (hvar : .var ∈ kinds) (href : Variable.IsReference word name)
    (hs : source = before ++ Variable.spell word name ++ after) :
    ∃ v ∈ (findings source kinds).occurrences, v.Placed source before (Variable.spell word name) after ∧
      v.Finds before word name after := by
  let v : Occurrence := ⟨⟨.var, .text name, Variable.isEscaped before after⟩, before.length,
    (Variable.spell word name).length⟩
  have hv : v.Placed source before (Variable.spell word name) after := ⟨hs, rfl, rfl⟩
  have hmem := Variable.mem_occurrences.mpr ⟨before, word, name, after, href, hv, rfl⟩
  exact ⟨v, mem_findings.mpr ⟨.var, hvar, hmem⟩, hv, ⟨rfl, rfl, rfl⟩⟩

/-- Where references are looked for, each of them is covered by something kept. -/
theorem exists_covering (hvar : .var ∈ kinds) (href : Variable.IsReference word name)
    (hs : source = before ++ Variable.spell word name ++ after) :
    ∃ o ∈ (findings source kinds).kept, o.Covers before.length (before.length + (Variable.spell word name).length) ∧
      (o.Finds before word name after ∨ o.part.kind = .selector ∨ o.part.kind = .property) := by
  obtain ⟨v, hfound, hv, hfinds⟩ := exists_finding hvar href hs
  rcases Layout.kept_or_overlapped hfound hv.offset_nonneg with hkept | ⟨k, hkept, hle, hlt⟩
  · have hstop := hv.stop_eq
    exact ⟨v, hkept, ⟨by rw [hv.offset_eq], by omega⟩, Or.inl hfinds⟩
  · have hlen := href.length_spell
    have hoffset := hv.offset_eq
    refine ⟨k, hkept, ?_⟩
    rcases apart_or_covers href hs (Layout.mem_of_mem_kept hkept) with h | h
    · unfold Occurrence.Apart at h
      omega
    · exact h

/-- What is kept besides an occurrence that covers a stretch is apart from the stretch. -/
theorem apart_of_covers {l r : List Occurrence} {start stop : Nat} (h : (findings source kinds).kept = l ++ o :: r)
    (hc : o.Covers start stop) : ∀ k ∈ l ++ r, k.Apart start stop := by
  have hle : ∀ o ∈ (findings source kinds).occurrences, o.offset ≤ o.stop := by
    intro o ho
    obtain ⟨_, _, _, hplaced, -⟩ := exists_of_mem_findings ho
    exact hplaced.offset_le_stop
  have hpairwise := Layout.pairwise_kept hle
  rw [← Findings.kept, h, List.pairwise_append, List.pairwise_cons] at hpairwise
  obtain ⟨-, ⟨hr, -⟩, hl⟩ := hpairwise
  obtain ⟨h1, h2⟩ := hc
  intro k hk
  unfold Occurrence.Apart
  rcases List.mem_append.mp hk with hk | hk
  · have := hl k hk o (by simp)
    left
    omega
  · have := hr k hk
    right
    omega

end

theorem exists_of_literal_mem {source : Text} {options : Options} {parsed : Parsed}
    (h : parse source options = .ok parsed) {t : Text} (ht : .literal t ∈ parsed.segments) :
    ∃ before after, source = before ++ t ++ after ∧
      ∀ o ∈ (findings source options.kinds).kept, o.Apart before.length (before.length + t.length) := by
  obtain ⟨c, hc, hsegments⟩ := exists_cut_of_parse h
  rw [hsegments] at ht
  split at ht
  · rename_i hnone
    obtain rfl : t = source := by simpa using ht
    refine ⟨[], [], by simp, ?_⟩
    rw [Findings.kept_of_occurrences_eq_nil hnone]
    simp
  · exact hc.exists_of_literal_mem (List.mem_of_mem_filter ht)

/-- Where references are looked for, no literal has one; each of them lies inside the span of exactly one kept part,
    which is its own part with just that span, or a selector or a property, and apart from all the others. -/
theorem references_kept {source : Text} {options : Options} (hlimit : source.length ≤ options.limit)
    (hvar : .var ∈ options.kinds) :
    ∃ parsed, parse source options = .ok parsed ∧
      parts parsed.segments = (findings source options.kinds).kept.map Occurrence.part ∧
      (∀ t, .literal t ∈ parsed.segments → ∀ word name, Variable.IsReference word name →
        ¬ Variable.spell word name <:+: t) ∧
      (∀ before word name after, Variable.IsReference word name →
        source = before ++ Variable.spell word name ++ after →
        ∃ l o r, (findings source options.kinds).kept = l ++ o :: r ∧
          o.Covers before.length (before.length + (Variable.spell word name).length) ∧
          (o.Finds before word name after ∨ o.part.kind = .selector ∨ o.part.kind = .property) ∧
          ∀ k ∈ l ++ r, k.Apart before.length (before.length + (Variable.spell word name).length)) := by
  obtain ⟨parsed, hparse⟩ := exists_parse hlimit
  refine ⟨parsed, hparse, parts_of_parse hparse, ?_, ?_⟩
  · intro t ht word name href hinfix
    obtain ⟨x, y, hxy⟩ := hinfix
    obtain ⟨before, after, hs, hapart⟩ := exists_of_literal_mem hparse ht
    have hs' : source = (before ++ x) ++ Variable.spell word name ++ (y ++ after) := by
      rw [hs, ← hxy]
      simp
    obtain ⟨o, ho, ⟨h1, h2⟩, -⟩ := exists_covering hvar href hs'
    have hlen := href.length_spell
    have ht' : t.length = x.length + (Variable.spell word name).length + y.length := by
      rw [← hxy]
      simp
      omega
    have := hapart o ho
    unfold Occurrence.Apart at this
    rw [List.length_append] at h1 h2
    omega
  · intro before word name after href hs
    obtain ⟨o, ho, hcovers, hwhich⟩ := exists_covering hvar href hs
    obtain ⟨l, r, hsplit⟩ := List.append_of_mem ho
    exact ⟨l, o, r, hsplit, hcovers, hwhich, apart_of_covers hsplit hcovers⟩

/-- References in a rule, in a selector list and in a declaration. -/
theorem references_kept_root :
    let source := r":root{--a:var(--b)}[c=var(--d)]{e:VAR(--f)}".toList
    (source.length : Int) ≤ ({} : Options).limit ∧ Kind.var ∈ ({} : Options).kinds ∧
    ∃ parsed, parse source {} = .ok parsed ∧
      parts parsed.segments = (findings source Kind.all).kept.map Occurrence.part ∧
      (∀ t, .literal t ∈ parsed.segments → ∀ word name, Variable.IsReference word name →
        ¬ Variable.spell word name <:+: t) ∧
      (∀ before word name after, Variable.IsReference word name →
        source = before ++ Variable.spell word name ++ after →
        ∃ l o r, (findings source Kind.all).kept = l ++ o :: r ∧
          o.Covers before.length (before.length + (Variable.spell word name).length) ∧
          (o.Finds before word name after ∨ o.part.kind = .selector ∨ o.part.kind = .property) ∧
          ∀ k ∈ l ++ r, k.Apart before.length (before.length + (Variable.spell word name).length)) :=
  ⟨by decide, by decide, @references_kept _ {} (by decide) (by decide)⟩

end Stylesheet
