/-
  Stylesheet.Proofs.Findings — what every finding of a text is.

  Whatever its kind, an occurrence stands in the source and its text is a spelling of its part
  (`exists_of_mem_findings`); the text is never empty. `Spelled` lists the spellings kind by kind.
-/

import Stylesheet.Findings
import Stylesheet.Proofs.Layout
import Stylesheet.Proofs.Occurrence.Selector
import Stylesheet.Proofs.Occurrence.Declaration
import Stylesheet.Proofs.Occurrence.Url

namespace Stylesheet

inductive Spelled : Part → Text → Prop
  | selector (name : Text) : Selector.isIgnored name = false → Text.Trimmed name →
      (∀ c ∈ name, Selector.isListChar c = true) → Spelled ⟨.selector, .text name, false⟩ name
  | var (word name : Text) (escape : Bool) : Variable.IsReference word name →
      Spelled ⟨.var, .text name, escape⟩ (Variable.spell word name)
  | property (p : Property) (span : Text) : Declaration.Declares span p → Spelled ⟨.property, .property p, false⟩ span
  | url (t : Text) : t ≠ [] → (∀ c ∈ t, Url.isTextChar c = true) → Spelled ⟨.url, .text t, false⟩ t

theorem Spelled.span_ne {p : Part} {span : Text} (h : Spelled p span) : span ≠ [] := by
  cases h with
  | selector name hign =>
    rintro rfl
    revert hign
    decide
  | var word name escape h => simp [Variable.spell]
  | property q span h => exact Declaration.ne_nil_of_property? h.property_eq
  | url t hne => exact hne

theorem Spelled.exists_property {p : Part} {span : Text} (h : Spelled p span) (hk : p.kind = .property) :
    ∃ q, p = ⟨.property, .property q, false⟩ ∧ Declaration.Declares span q := by
  cases h with
  | property q span h => exact ⟨q, rfl, h⟩
  | selector | var | url => cases hk

theorem Spelled.exists_var {p : Part} {span : Text} (h : Spelled p span) (hk : p.kind = .var) :
    ∃ word name escape, p = ⟨.var, .text name, escape⟩ ∧ span = Variable.spell word name ∧
      Variable.IsReference word name := by
  cases h with
  | var word name escape h => exact ⟨word, name, escape, rfl, rfl, h⟩
  | selector | property | url => cases hk

def Findings.kept (f : Findings) : List Occurrence := Layout.kept (Layout.verdicts f.occurrences)

/-! ## Findings by kind -/

theorem mem_all (k : Kind) : k ∈ Kind.all := by
  cases k <;> decide

theorem findings_congr {kinds kinds' : List Kind} (h : ∀ k, k ∈ kinds ↔ k ∈ kinds') (source : Text) :
    findings source kinds = findings source kinds' := by
  have hordered : Kind.ordered kinds = Kind.ordered kinds' := by
    refine List.filter_congr fun k _ => ?_
    rw [Bool.eq_iff_iff, List.contains_iff_mem, List.contains_iff_mem, h k]
  rw [findings, findings, hordered]

theorem mem_findings {source : Text} {kinds : List Kind} {o : Occurrence} :
    o ∈ (findings source kinds).occurrences ↔ ∃ kind ∈ kinds, o ∈ kind.occurrences source := by
  simp only [findings, Kind.ordered, List.mem_flatMap, List.mem_filter, List.contains_iff_mem]
  constructor
  · rintro ⟨kind, ⟨-, hk⟩, h⟩
    exact ⟨kind, hk, h⟩
  · rintro ⟨kind, hk, h⟩
    exact ⟨kind, ⟨mem_all kind, hk⟩, h⟩

theorem kind_of_mem_occurrences {kind : Kind} {source : Text} {o : Occurrence} (h : o ∈ kind.occurrences source) :
    o.part.kind = kind := by
  cases kind with
  | selector =>
    obtain ⟨_, _, _, _, hpart⟩ := Selector.exists_place h
    rw [hpart]
  | var =>
    obtain ⟨_, _, _, _, _, _, hpart⟩ := Variable.mem_occurrences.mp h
    rw [hpart]
  | property =>
    obtain ⟨_, _, _, _, _, hpart, _⟩ := Declaration.exists_of_mem_occurrences h
    rw [hpart]
  | url =>
    obtain ⟨_, _, _, _, _, hpart⟩ := Url.exists_of_mem_occurrences h
    rw [hpart]

theorem flatMap_of_nodup {α β : Type} {l : List α} (hl : l.Nodup) {a : α} (ha : a ∈ l) {f : α → List β}
    (hf : ∀ b, b ≠ a → f b = []) : l.flatMap f = f a := by
  obtain ⟨before, after, rfl⟩ := List.append_of_mem ha
  have hnone : ∀ side : List α, a ∉ side → side.flatMap f = [] := by
    intro side hside
    refine List.flatMap_eq_nil_iff.mpr fun b hb => hf b ?_
    rintro rfl
    exact hside hb
  obtain ⟨-, hnodup, hdisjoint⟩ := List.nodup_append.mp hl
  have hbefore : a ∉ before := fun hmem => hdisjoint a hmem a List.mem_cons_self rfl
  rw [List.flatMap_append, List.flatMap_cons, hnone before hbefore, hnone after (List.nodup_cons.mp hnodup).1,
    List.nil_append, List.append_nil]

/-- What only one of the kinds asked for has is all that they have. -/
theorem flatMap_ordered {β : Type} {kind : Kind} {kinds : List Kind} (h : kind ∈ kinds) {f : Kind → List β}
    (hf : ∀ k, k ≠ kind → f k = []) : (Kind.ordered kinds).flatMap f = f kind := by
  have hnodup : (Kind.ordered kinds).Nodup := List.Nodup.filter _ (by decide : Kind.all.Nodup)
  exact flatMap_of_nodup hnodup (List.mem_filter.mpr ⟨mem_all kind, List.contains_iff_mem.mpr h⟩) hf

/-- Of all that is found, what is of one kind is what the recogniser of that kind finds. -/
theorem filter_findings {kind : Kind} {kinds : List Kind} (h : kind ∈ kinds) (source : Text) :
    (findings source kinds).occurrences.filter (·.part.kind = kind) = kind.occurrences source := by
  rw [findings, List.filter_flatMap, flatMap_ordered h]
  · exact List.filter_eq_self.mpr fun o ho => by simp [kind_of_mem_occurrences ho]
  · intro k hk
    exact List.filter_eq_nil_iff.mpr fun o ho => by simpa [kind_of_mem_occurrences ho] using hk

theorem mem_occurrences_of_mem_findings {source : Text} {kinds : List Kind} {o : Occurrence}
    (h : o ∈ (findings source kinds).occurrences) : o ∈ o.part.kind.occurrences source := by
  obtain ⟨kind, -, ho⟩ := mem_findings.mp h
  rwa [kind_of_mem_occurrences ho]

theorem exists_of_mem_occurrences {kind : Kind} {source : Text} {o : Occurrence} (h : o ∈ kind.occurrences source) :
    ∃ before span after, o.Placed source before span after ∧ Spelled o.part span := by
  cases kind with
  | selector =>
    obtain ⟨p, name, hname, hplaced, hpart⟩ := Selector.exists_place h
    exact ⟨p.before, name, p.after, hplaced, hpart ▸ .selector name hname.named hname.trimmed hname.char⟩
  | var =>
    obtain ⟨before, word, name, after, href, hp, hpart⟩ := Variable.mem_occurrences.mp h
    exact ⟨before, _, after, hp, hpart ▸ .var word name _ href⟩
  | property =>
    obtain ⟨before, span, after, p, hp, hpart, hdecl, -⟩ := Declaration.exists_of_mem_occurrences h
    exact ⟨before, span, after, hp, hpart ▸ .property p span hdecl⟩
  | url =>
    obtain ⟨before, f, after, hf, hp, hpart⟩ := Url.exists_of_mem_occurrences h
    exact ⟨_, f.text, _, hp, hpart ▸ .url f.text hf.text_ne hf.text_char⟩

/-- Every finding stands in the source with a spelling of its part for its text. -/
theorem exists_of_mem_findings {source : Text} {kinds : List Kind} {o : Occurrence}
    (h : o ∈ (findings source kinds).occurrences) :
    ∃ before span after, o.Placed source before span after ∧ Spelled o.part span :=
  exists_of_mem_occurrences (mem_occurrences_of_mem_findings h)

end Stylesheet
