/-
  Stylesheet.Proofs.Occurrence.Reference — references by their offsets.

  Where a reference is spelled in a text, it is found, and nowhere else is one found: two references never overlap, so
  that none of them can hide another, not even one that starts in what looks like the start of a reference, as in
  `var(--var(--x)`. Whether a reference is marked for escaping shows in two characters of the text (`Marked`).

  Main statement: `references_exact`.
-/

import Stylesheet.Proofs.Findings

namespace Stylesheet.Variable

/-- A reference to `name` is spelled at an offset, with `var` in either case. -/
def StandsAt (source : Text) (offset : Nat) (name : Text) : Prop :=
  ∃ word, IsReference word name ∧ spell word name <+: source.drop offset

/-- Two characters before `start` stands an equals sign, or at `stop` a single quote. -/
def Marked (source : Text) (start stop : Nat) : Prop :=
  2 ≤ start ∧ source[start - 2]? = some '=' ∨ source[stop]? = some '\''

section

variable {source : Text} {offset : Nat} {name : Text}

theorem standsAt_iff : StandsAt source offset name ↔
    ∃ before word after, IsReference word name ∧ source = before ++ spell word name ++ after ∧
      before.length = offset := by
  constructor
  · rintro ⟨word, href, after, hafter⟩
    have hlt : offset < source.length := by
      by_contra hle
      rw [List.drop_of_length_le (Nat.le_of_not_lt hle)] at hafter
      simp [spell] at hafter
    refine ⟨source.take offset, word, after, href, ?_, List.length_take_of_le hlt.le⟩
    rw [List.append_assoc, hafter, List.take_append_drop]
  · rintro ⟨before, word, after, href, rfl, rfl⟩
    exact ⟨word, href, after, by rw [List.append_assoc, List.drop_left]⟩

theorem isEscaped_iff {before word after : Text} (href : IsReference word name)
    (hsource : source = before ++ spell word name ++ after) :
    isEscaped before after = true ↔ Marked source before.length (before.length + name.length + 7) := by
  have hbefore : before.dropLast.getLast? = some '=' ↔ 2 ≤ before.length ∧ source[before.length - 2]? = some '=' := by
    rw [List.getLast?_eq_getElem?, List.length_dropLast, hsource]
    by_cases hle : 2 ≤ before.length
    · rw [List.getElem?_dropLast, if_pos (by omega), Text.getElem?_before _ _ _ (by omega)]
      simp only [hle, true_and]
      rfl
    · rw [List.getElem?_eq_none (by rw [List.length_dropLast]; omega)]
      simp [hle]
  have hafter : after.head? = source[before.length + name.length + 7]? := by
    rw [List.head?_eq_getElem?, hsource, Nat.add_assoc, ← href.length_spell]
    exact (Text.getElem?_after before (spell word name) after 0).symm
  rw [isEscaped, Bool.or_eq_true, beq_iff_eq, beq_iff_eq, hbefore, hafter, Marked]

theorem exists_mem_of_standsAt (h : StandsAt source offset name) : ∃ o ∈ occurrences source,
    o.part.kind = .var ∧ o.offset = offset ∧ o.part.value = .text name ∧ o.length = name.length + 7 ∧
      (o.part.escape = true ↔ Marked source offset (offset + name.length + 7)) := by
  obtain ⟨before, word, after, href, hsource, rfl⟩ := standsAt_iff.mp h
  refine ⟨⟨⟨.var, .text name, isEscaped before after⟩, before.length, (spell word name).length⟩,
    mem_occurrences.mpr ⟨before, word, name, after, href, ⟨hsource, rfl, rfl⟩, rfl⟩, rfl, rfl, rfl, ?_,
    isEscaped_iff href hsource⟩
  rw [href.length_spell]
  rfl

theorem standsAt_of_mem {o : Occurrence} (ho : o ∈ occurrences source) (hoffset : o.offset = offset)
    (hvalue : o.part.value = .text name) : StandsAt source offset name := by
  obtain ⟨before, word, name', after, href, hplaced, hpart⟩ := mem_occurrences.mp ho
  rw [hpart] at hvalue
  obtain rfl := Value.text.inj hvalue
  have hlength := hplaced.offset_eq
  exact standsAt_iff.mpr ⟨before, word, after, href, hplaced.source_eq, by omega⟩

end

/-! ## Once at each offset -/

section

variable {source : Text}

/-- References that start at one offset are the same occurrence. -/
theorem eq_of_offset_eq {a b : Occurrence} (ha : a ∈ occurrences source) (hb : b ∈ occurrences source)
    (h : a.offset = b.offset) : a = b := by
  obtain ⟨before, word, name, after, href, hplaced, hpart⟩ := mem_occurrences.mp ha
  obtain ⟨before', word', name', after', href', hplaced', hpart'⟩ := mem_occurrences.mp hb
  have hlength : before.length = before'.length := by
    have := hplaced.offset_eq.symm.trans (h.trans hplaced'.offset_eq)
    omega
  obtain ⟨rfl, rfl, rfl, rfl⟩ := same_of_eq href hplaced.source_eq href' hplaced'.source_eq hlength
  rw [hplaced.eq_mk, hplaced'.eq_mk, hpart, hpart']

theorem nodup_occurrences (source : Text) : (occurrences source).Nodup := by
  refine (pairwise_occurrences source).imp_of_mem fun {a b} ha _ hab heq => ?_
  subst heq
  obtain ⟨before, word, name, after, href, hplaced, -⟩ := mem_occurrences.mp ha
  have hstop := hplaced.stop_eq
  have hoffset := hplaced.offset_eq
  have hlength := href.length_spell
  omega

/-- At the offset of a reference only that one is found, and only once. -/
theorem filter_offset_eq {o : Occurrence} (h : o ∈ occurrences source) :
    (occurrences source).filter (·.offset = o.offset) = [o] := by
  have hsame : (occurrences source).filter (·.offset = o.offset) = (occurrences source).filter (· = o) := by
    refine List.filter_congr fun a ha => ?_
    rw [decide_eq_decide]
    exact ⟨fun hoffset => eq_of_offset_eq ha h hoffset, congrArg Occurrence.offset⟩
  rw [hsame, List.filter_eq, List.count_eq_one_of_mem (nodup_occurrences source) h, List.replicate_one]

end

/-- The references found are just those that are spelled in the text. At the offset of each one, it alone is found, and
    only once; it is as long as its spelling, and the text around it says whether it is marked for escaping. -/
theorem references_exact (source : Text) (offset : Nat) (name : Text) :
    ((∃ o ∈ (findings source Kind.all).occurrences,
        o.part.kind = .var ∧ o.offset = offset ∧ o.part.value = .text name) ↔ StandsAt source offset name) ∧
      (StandsAt source offset name → ∃ o : Occurrence,
        (findings source Kind.all).occurrences.filter (fun a => a.part.kind = .var ∧ a.offset = (offset : Int)) = [o] ∧
          o.part.value = .text name ∧ o.length = name.length + 7 ∧
          (o.part.escape = true ↔ Marked source offset (offset + name.length + 7))) := by
  refine ⟨⟨?_, fun h => ?_⟩, fun h => ?_⟩
  · rintro ⟨o, ho, hkind, hoffset, hvalue⟩
    have hfound := mem_occurrences_of_mem_findings ho
    rw [hkind] at hfound
    exact standsAt_of_mem hfound hoffset hvalue
  · obtain ⟨o, ho, hkind, hoffset, hvalue, -⟩ := exists_mem_of_standsAt h
    exact ⟨o, mem_findings.mpr ⟨.var, by decide, ho⟩, hkind, hoffset, hvalue⟩
  · obtain ⟨o, ho, -, hoffset, hvalue, hlength, hescape⟩ := exists_mem_of_standsAt h
    refine ⟨o, ?_, hvalue, hlength, hescape⟩
    have hvar : (findings source Kind.all).occurrences.filter (fun a => a.part.kind = .var) = occurrences source :=
      filter_findings (by decide) source
    rw [← filter_offset_eq ho, ← hvar, List.filter_filter, hoffset]
    exact List.filter_congr fun a _ => by rw [Bool.decide_and, Bool.and_comm]

/-- The start of a reference in front of one, and one that is marked: it starts two characters after an equals sign. -/
theorem references_exact_nested :
    let source := "var(--var(--x)a='VAR(--y)".toList
    StandsAt source 6 ['x'] ∧ StandsAt source 17 ['y'] ∧
      (∃ o : Occurrence,
        (findings source Kind.all).occurrences.filter (fun a => a.part.kind = .var ∧ a.offset = 6) = [o] ∧
          o.part.value = .text ['x'] ∧ o.length = 8 ∧ (o.part.escape = true ↔ Marked source 6 14)) ∧
      (∃ o : Occurrence,
        (findings source Kind.all).occurrences.filter (fun a => a.part.kind = .var ∧ a.offset = 17) = [o] ∧
          o.part.value = .text ['y'] ∧ o.length = 8 ∧ (o.part.escape = true ↔ Marked source 17 25)) ∧
      ¬ Marked source 6 14 ∧ Marked source 17 25 := by
  intro source
  have hx : StandsAt source 6 ['x'] :=
    ⟨['v', 'a', 'r'], ⟨by decide, by decide, List.forall_mem_singleton.mpr (by decide)⟩, "a='VAR(--y)".toList,
      by decide +kernel⟩
  have hy : StandsAt source 17 ['y'] :=
    ⟨['V', 'A', 'R'], ⟨by decide, by decide, List.forall_mem_singleton.mpr (by decide)⟩, [], by decide +kernel⟩
  have hplain : ¬ Marked source 6 14 := by
    unfold Marked
    decide +kernel
  have hmarked : Marked source 17 25 := by
    unfold Marked
    decide +kernel
  exact ⟨hx, hy, (references_exact source 6 ['x']).2 hx, (references_exact source 17 ['y']).2 hy, hplain, hmarked⟩

end Stylesheet.Variable
