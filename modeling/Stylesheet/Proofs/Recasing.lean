/-
  Stylesheet.Proofs.Recasing — texts that differ in the case of their references.

  Nothing that is found in a text moves when letters of its references change their case (`exists_alike`): urls,
  declarations and references do not see the case at all, and an entry of a selector list that such a change reaches has
  a parenthesis, so that it is no ignored one. The parts that are kept of a text are hence kept, each as it is, once the
  kept references have their words in lower case (`kept_lower`).
-/

import Stylesheet.Proofs.Occurrence.Casing
import Stylesheet.Proofs.Placement
import Stylesheet.Proofs.Rewriting

namespace Stylesheet

structure Occurrence.Alike (a b : Occurrence) : Prop where
  offset_eq : a.offset = b.offset
  length_eq : a.length = b.length
  kind_eq : a.part.kind = b.part.kind
  escape_eq : a.part.escape = b.part.escape

theorem Occurrence.Alike.symm {a b : Occurrence} (h : a.Alike b) : b.Alike a :=
  ⟨h.offset_eq.symm, h.length_eq.symm, h.kind_eq.symm, h.escape_eq.symm⟩

/-! ## Kinds that do not see the case -/

section

variable {s t : Text} {o : Occurrence}

theorem beq_some_of_toLower {a b : Option Char} (h : a.map Char.toLower = b.map Char.toLower) {d : Char}
    (hd : d.isAlpha = false) : (a == some d) = (b == some d) := by
  have key : ∀ {c : Option Char}, (c.map Char.toLower == some d) = (c == some d) := by
    intro c
    cases c with
    | none => rfl
    | some c => exact toLower_beq hd c
  rw [← key, h, key]

theorem Variable.isEscaped_of_lower_eq {before after before' after' : Text}
    (hb : Text.lower before = Text.lower before') (ha : Text.lower after = Text.lower after') :
    isEscaped before after = isEscaped before' after' := by
  have hlast : before.dropLast.getLast?.map Char.toLower = before'.dropLast.getLast?.map Char.toLower := by
    rw [← List.getLast?_map, ← List.getLast?_map, List.map_dropLast, List.map_dropLast]
    exact congrArg (fun l => l.dropLast.getLast?) hb
  have hhead : after.head?.map Char.toLower = after'.head?.map Char.toLower := by
    rw [← List.head?_map, ← List.head?_map]
    exact congrArg List.head? ha
  rw [isEscaped, isEscaped, beq_some_of_toLower hlast (by decide), beq_some_of_toLower hhead (by decide)]

theorem Variable.exists_alike (h : Text.lower s = Text.lower t) (ho : o ∈ occurrences s) :
    ∃ o' ∈ occurrences t, o.Alike o' := by
  obtain ⟨before, word, name, after, href, hplaced, hpart⟩ := mem_occurrences.mp ho
  rw [hplaced.source_eq] at h
  obtain ⟨before', word', name', after', rfl, href', hbefore, hafter⟩ := exists_of_lower_eq href h
  refine ⟨⟨⟨.var, .text name', isEscaped before' after'⟩, before'.length, (spell word' name').length⟩,
    mem_occurrences.mpr ⟨before', word', name', after', href', ⟨rfl, rfl, rfl⟩, rfl⟩, ?_, ?_, ?_, ?_⟩
  · rw [hplaced.offset_eq, Text.length_eq_of_lower_eq hbefore]
  · have := Text.length_eq_of_lower_eq h
    have := Text.length_eq_of_lower_eq hbefore
    have := Text.length_eq_of_lower_eq hafter
    have := hplaced.length_eq
    simp only [List.length_append] at *
    omega
  · rw [hpart]
  · rw [hpart]
    exact isEscaped_of_lower_eq hbefore hafter

theorem Declaration.exists_alike (h : Text.lower s = Text.lower t) (ho : o ∈ occurrences s) :
    ∃ o' ∈ occurrences t, o.Alike o' := by
  obtain ⟨⟨offset, piece⟩, hpiece, ho⟩ := List.mem_filterMap.mp ho
  obtain ⟨p, hp, rfl⟩ := Option.map_eq_some_iff.mp ho
  obtain ⟨⟨offset', piece'⟩, hpiece', hoffset, hlow⟩ := Text.exists_mem_of_forall₂ (forall₂_pieces h) hpiece
  obtain ⟨q, hq⟩ := property?_of_lower_eq hlow hp
  obtain rfl : offset = offset' := hoffset
  refine ⟨_, List.mem_filterMap.mpr ⟨(offset, piece'), hpiece', Option.map_eq_some_iff.mpr ⟨q, hq, rfl⟩⟩, ?_, ?_, rfl,
    rfl⟩
  · dsimp only
    rw [Text.indent_of_lower_eq hlow]
  · dsimp only
    rw [Text.length_eq_of_lower_eq (Text.trim_of_lower_eq hlow)]

theorem Url.exists_alike (h : Text.lower s = Text.lower t) (ho : o ∈ occurrences s) :
    ∃ o' ∈ occurrences t, o.Alike o' := by
  obtain ⟨x, hx, rfl⟩ := List.mem_map.mp ho
  have hmem : x.lower ∈ (sites t).map Site.lower := by
    rw [← sites_lower, ← h, sites_lower]
    exact List.mem_map_of_mem hx
  obtain ⟨y, hy, hyx⟩ := List.mem_map.mp hmem
  have hword : y.lower.word = x.lower.word := by rw [hyx]
  have hlead : y.lower.form.lead.length = x.lower.form.lead.length := by rw [hyx]
  have htext : y.lower.form.text.length = x.lower.form.text.length := by rw [hyx]
  simp only [Site.lower, Form.lower, Text.length_lower] at hword hlead htext
  refine ⟨y.occurrence, List.mem_map_of_mem hy, ?_, ?_, rfl, rfl⟩
  · simp only [Site.occurrence, hword, hlead]
  · simp only [Site.occurrence, htext]

end

/-! ## Texts alike but for the case of their references -/

/-- Two texts that differ in the case of letters at most, and that only inside references. -/
structure Recased (s t : Text) : Prop where
  lower_eq : Text.lower s = Text.lower t
  inside : ∀ i, s[i]? ≠ t[i]? → ∃ before word name after, Variable.IsReference word name ∧
    s = before ++ Variable.spell word name ++ after ∧ before.length ≤ i ∧
    i < before.length + (Variable.spell word name).length

namespace Recased

variable {s t : Text}

theorem refl (t : Text) : Recased t t := ⟨rfl, fun _ h => absurd rfl h⟩

theorem length_eq (h : Recased s t) : s.length = t.length := Text.length_eq_of_lower_eq h.lower_eq

theorem symm (h : Recased s t) : Recased t s := by
  refine ⟨h.lower_eq.symm, fun i hi => ?_⟩
  obtain ⟨before, word, name, after, href, rfl, h1, h2⟩ := h.inside i hi.symm
  obtain ⟨before', word', name', after', rfl, href', hbefore, hafter⟩ := Variable.exists_of_lower_eq href h.lower_eq
  have hlength := h.length_eq
  have hbeforeLength := Text.length_eq_of_lower_eq hbefore
  have hafterLength := Text.length_eq_of_lower_eq hafter
  simp only [List.length_append] at hlength
  exact ⟨before', word', name', after', href', rfl, by omega, by omega⟩

theorem append {a b a' b' : Text} (ha : Recased a a') (hb : Recased b b') : Recased (a ++ b) (a' ++ b') := by
  refine ⟨by rw [Text.lower_append, Text.lower_append, ha.lower_eq, hb.lower_eq], fun i hi => ?_⟩
  have hlength := ha.length_eq
  by_cases hlt : i < a.length
  · rw [List.getElem?_append_left hlt, List.getElem?_append_left (by omega)] at hi
    obtain ⟨before, word, name, after, href, rfl, h1, h2⟩ := ha.inside i hi
    exact ⟨before, word, name, after ++ b, href, by simp, h1, h2⟩
  · rw [List.getElem?_append_right (by omega), List.getElem?_append_right (by omega), ← hlength] at hi
    obtain ⟨before, word, name, after, href, rfl, h1, h2⟩ := hb.inside _ hi
    refine ⟨a ++ before, word, name, after, href, by simp, ?_, ?_⟩ <;> rw [List.length_append] <;> omega

/-- A fenced stretch without a parenthesis has no reference inside it and stays as it is. -/
theorem eq_of_fenced (h : Recased s t) {a m b a' m' b' : Text} (hs : s = a ++ m ++ b) (ht : t = a' ++ m' ++ b')
    (ha : a.length = a'.length) (hm : m.length = m'.length) (hf : Variable.Fenced a b) (hopen : '(' ∉ m) : m = m' := by
  refine List.ext_getElem? fun i => ?_
  by_contra hne
  have hi : i < m.length := by
    by_contra hge
    rw [List.getElem?_eq_none (by omega), List.getElem?_eq_none (by omega)] at hne
    exact hne rfl
  have hdiffer : s[a.length + i]? ≠ t[a.length + i]? := by
    rw [hs, ht, Text.getElem?_middle _ _ _ hi, ha, Text.getElem?_middle _ _ _ (by omega)]
    exact hne
  obtain ⟨before, word, name, after, href, hr, h1, h2⟩ := h.inside _ hdiffer
  rcases Variable.inside_or_apart hs hf href hr with hin | hin | ⟨hin, hin'⟩
  · omega
  · omega
  · have hlen := href.length_spell
    obtain ⟨j, hj⟩ := Nat.exists_eq_add_of_le hin
    have hget := href.getElem?_open
    rw [← Text.getElem?_middle before _ after (by omega), ← hr, hj, hs, Nat.add_assoc,
      Text.getElem?_middle _ _ _ (by omega)] at hget
    exact hopen (List.mem_of_getElem? hget)

end Recased

theorem Spelled.recased {p : Part} {span : Text} (h : Spelled p span) : Recased span (p.lowered span) := by
  refine ⟨h.lowered_alike, fun i hi => ?_⟩
  cases h with
  | selector | url | property => exact absurd rfl hi
  | var word name escape href =>
    refine ⟨[], word, name, [], href, by simp, by simp, ?_⟩
    by_contra hge
    have hlength := Text.length_eq_of_lower_eq (Spelled.var word name escape href).lowered_alike
    simp only [List.length_nil, Nat.zero_add] at hge
    rw [List.getElem?_eq_none (by omega), List.getElem?_eq_none (by omega)] at hi
    exact hi rfl

theorem Cut.recased_lower {c : Cut} (h : ∀ s ∈ c.stretches, Spelled s.found.part s.span) :
    Recased c.text c.lower.text := by
  obtain ⟨stretches, tail⟩ := c
  simp only [Cut.text, Cut.textWith, Cut.lower]
  refine Recased.append ?_ (Recased.refl tail)
  induction stretches with
  | nil => exact Recased.refl []
  | cons s stretches ih =>
    simp only [List.map_cons, List.flatMap_cons]
    exact ((Recased.refl s.gap).append (h s (by simp)).recased).append
      (ih fun t ht => h t (List.mem_cons_of_mem _ ht))

/-! ## Selectors -/

theorem Selector.notMem_of_isIgnored {name : Text} (h : isIgnored name = true) : '(' ∉ name := by
  intro hmem
  rcases isAlpha_or_eq_colon_of_isIgnored h _ hmem with halpha | hcolon
  · cases halpha
  · cases hcolon

/-- An entry is the same in both texts, or a reference in it keeps it from being ignored. -/
theorem Selector.isIgnored_of_recased {s t : Text} (h : Recased s t) {a m b a' m' b' : Text} (hs : s = a ++ m ++ b)
    (ht : t = a' ++ m' ++ b') (ha : a.length = a'.length) (hm : Text.lower m = Text.lower m')
    (hf : Variable.Fenced a b) (hign : isIgnored m = false) : isIgnored m' = false := by
  by_cases hopen : '(' ∈ m
  · by_contra hign'
    exact notMem_of_isIgnored (by simpa using hign') (Text.mem_of_lower_eq (by decide) hm hopen)
  · rwa [← h.eq_of_fenced hs ht ha (Text.length_eq_of_lower_eq hm) hf hopen]

theorem Selector.exists_alike {s t : Text} {o : Occurrence} (h : Recased s t) (ho : o ∈ occurrences s) :
    ∃ o' ∈ occurrences t, o.Alike o' := by
  obtain ⟨⟨base, list⟩, hlist, hentries⟩ := List.mem_flatMap.mp ho
  obtain ⟨⟨offset, entry⟩, hentry, hselector⟩ := List.mem_filterMap.mp hentries
  have hmem : (base, Text.lower list) ∈ (lists t).map fun x => (x.1, Text.lower x.2) := by
    rw [← lists_lower, ← h.lower_eq, lists_lower]
    exact List.mem_map_of_mem (f := fun x => (x.1, Text.lower x.2)) hlist
  obtain ⟨⟨base', list'⟩, hlist', heq⟩ := List.mem_map.mp hmem
  obtain ⟨rfl, hlow⟩ := Prod.mk.inj heq
  obtain ⟨⟨offset', entry'⟩, hentry', hoffset, hlow'⟩ :=
    Text.exists_mem_of_forall₂ (Text.forall₂_pieces (by decide) hlow.symm) hentry
  obtain rfl : offset = offset' := hoffset
  obtain ⟨p, hs, ha, -⟩ := exists_of_mem_pieces hlist hentry
  obtain ⟨p', ht, ha', -⟩ := exists_of_mem_pieces hlist' hentry'
  have hindent : Text.indent entry = Text.indent entry' := Text.indent_of_lower_eq hlow'
  have hname : Text.lower (Text.trim entry) = Text.lower (Text.trim entry') := Text.trim_of_lower_eq hlow'
  obtain ⟨hign, rfl⟩ := entry?_eq_some_iff.mp hselector
  have hign' := isIgnored_of_recased h hs ht (by omega) hname p.fenced hign
  have hselector' := entry?_eq_some_iff.mpr ⟨hign', @rfl _ (Occurrence.mk _ ↑(offset + Text.indent entry') _)⟩
  refine ⟨_, List.mem_flatMap.mpr ⟨_, hlist', List.mem_filterMap.mpr ⟨_, hentry', hselector'⟩⟩, ?_, ?_, rfl, rfl⟩
  · dsimp only
    rw [hindent]
  · dsimp only
    rw [Text.length_eq_of_lower_eq hname]

/-! ## What is kept -/

/-- Whatever is found in a text is found at the same place where letters of references change their case. -/
theorem exists_alike {s t : Text} (h : Recased s t) {kinds : List Kind} {o : Occurrence}
    (ho : o ∈ (findings s kinds).occurrences) : ∃ o' ∈ (findings t kinds).occurrences, o.Alike o' := by
  obtain ⟨kind, hkind, ho⟩ := mem_findings.mp ho
  obtain ⟨o', ho', halike⟩ : ∃ o' ∈ kind.occurrences t, o.Alike o' := by
    cases kind with
    | selector => exact Selector.exists_alike h ho
    | var => exact Variable.exists_alike h.lower_eq ho
    | property => exact Declaration.exists_alike h.lower_eq ho
    | url => exact Url.exists_alike h.lower_eq ho
  exact ⟨o', mem_findings.mpr ⟨kind, hkind, ho'⟩, halike⟩

theorem Spelled.part_unique {p q : Part} {span : Text} (hp : Spelled p span) (hq : Spelled q span)
    (hkind : p.kind = q.kind) (hescape : p.escape = q.escape) : p = q := by
  cases hp with
  | selector name =>
    cases hq with
    | selector => rfl
    | var | property | url => cases hkind
  | url t =>
    cases hq with
    | url => rfl
    | selector | var | property => cases hkind
  | var word name escape href =>
    obtain ⟨word', name', escape', rfl, hspan, href'⟩ := hq.exists_var hkind.symm
    have hdrop := congrArg (List.drop 3) hspan
    rw [href.drop_spell, href'.drop_spell] at hdrop
    obtain rfl : name = name' := by simpa using hdrop
    obtain rfl : escape = escape' := hescape
    rfl
  | property p span h =>
    obtain ⟨q, rfl, h'⟩ := hq.exists_property hkind.symm
    rw [Option.some.inj (h.property_eq.symm.trans h'.property_eq)]

theorem Occurrence.Alike.eq {a b : Occurrence} (h : a.Alike b) (hpart : a.part = b.part) : a = b := by
  obtain ⟨part, offset, length⟩ := a
  obtain rfl : part = b.part := hpart
  obtain rfl : offset = b.offset := h.offset_eq
  obtain rfl : length = b.length := h.length_eq
  rfl

section

variable {source : Text} {kinds : List Kind} {c : Cut}

/-- What is found in the lowered text at the place of a kept part is that part. -/
theorem eq_of_alike (hc : c.Cuts source (findings source kinds).kept) {o o' : Occurrence}
    (ho : o ∈ (findings source kinds).kept) (ho' : o' ∈ (findings c.lower.text kinds).occurrences) (h : o.Alike o') :
    o = o' := by
  rw [← hc.found_eq] at ho
  obtain ⟨s, hs, rfl⟩ := List.mem_map.mp ho
  have hspelled := (hc.located.spelled s hs).lowered
  obtain ⟨l, r, hlr⟩ := List.append_of_mem (List.mem_map_of_mem (f := Stretch.lower) hs)
  have hplaced := (hc.lower hc.located.spelled).placed hlr
  obtain ⟨before, span, after, hplaced', hspelled'⟩ := exists_of_mem_findings ho'
  have hmoved : s.found.Placed c.lower.text before span after :=
    ⟨hplaced'.source_eq, h.offset_eq.trans hplaced'.offset_eq, h.length_eq.trans hplaced'.length_eq⟩
  obtain ⟨-, hspan, -⟩ := hplaced.unique hmoved
  rw [← hspan] at hspelled'
  exact h.eq (hspelled.part_unique hspelled' h.kind_eq h.escape_eq)

/-- With its kept references in lower case a text has the same parts kept, at the same places. -/
theorem kept_lower (hc : c.Cuts source (findings source kinds).kept) :
    (findings c.lower.text kinds).kept = (findings source kinds).kept := by
  have hrecased : Recased source c.lower.text := by
    have := Cut.recased_lower hc.located.spelled
    rwa [hc.text_eq] at this
  have hchoice := choice_kept_findings source kinds
  refine kept_eq_of_choice ⟨fun o ho => ?_, hchoice.apart, fun o' ho' => ?_⟩
  · obtain ⟨o', ho', halike⟩ := exists_alike hrecased (hchoice.mem o ho)
    rwa [eq_of_alike hc ho ho' halike]
  · obtain ⟨o, ho, halike⟩ := exists_alike hrecased.symm ho'
    rcases hchoice.covered o ho with hkept | ⟨k, hk, hprecedes, hlt⟩
    · left
      rwa [← eq_of_alike hc hkept ho' halike.symm]
    · right
      refine ⟨k, hk, ?_, halike.offset_eq ▸ hlt⟩
      unfold Occurrence.Precedes at hprecedes ⊢
      rwa [halike.offset_eq, halike.kind_eq]

end

end Stylesheet
