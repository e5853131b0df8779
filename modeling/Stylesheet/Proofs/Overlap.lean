/-
  Stylesheet.Proofs.Overlap — which findings may overlap, and how.

  Findings of different kinds that meet are nested, except that a url may cut into a selector or a property, or be cut
  by one. What nests them is what stands around them: a reference has no character of a fence, a selector none that
  could open or close a property, and the text of a url neither a parenthesis nor what stands before one. A url
  and a reference never meet, so that a search for these two kinds drops nothing.

  Main statement: `findings_nested`.
-/

import Stylesheet.Proofs.Placement
import Stylesheet.Proofs.References

namespace Stylesheet

namespace Occurrence

def Meets (a b : Occurrence) : Prop := a.offset < b.stop ∧ b.offset < a.stop

def Within (a b : Occurrence) : Prop := b.offset ≤ a.offset ∧ a.stop ≤ b.stop

instance (a b : Occurrence) : Decidable (a.Meets b) := inferInstanceAs (Decidable (_ ∧ _))

instance (a b : Occurrence) : Decidable (a.Within b) := inferInstanceAs (Decidable (_ ∧ _))

theorem Meets.symm {a b : Occurrence} (h : a.Meets b) : b.Meets a := ⟨h.2, h.1⟩

end Occurrence

/-! ## Selectors and properties -/

theorem not_isListChar_of_opens {c : Char} (h : c = '{' ∨ c = ';') : Selector.isListChar c = false := by
  rcases h with rfl | rfl <;> decide

theorem not_isListChar_of_closes {c : Char} (h : c = ';' ∨ c = '}') : Selector.isListChar c = false := by
  rcases h with rfl | rfl <;> decide

/-- A trimmed stretch does not start in the blanks at the start of its text. -/
theorem Text.length_le_of_trimmed {gap t a m b : Text} (h : gap ++ t = a ++ (m ++ b)) (hgap : Text.allBlank gap = true)
    (htrim : Text.Trimmed m) (hne : m ≠ []) : gap.length ≤ a.length := by
  rcases List.append_eq_append_iff.mp h with ⟨z, rfl, -⟩ | ⟨z, rfl, hz⟩
  · simp
  · cases z with
    | nil => simp
    | cons d z =>
      obtain ⟨e, m, rfl⟩ := List.exists_cons_of_ne_nil hne
      obtain ⟨rfl, -⟩ := List.cons.inj hz
      have hblank := Text.allBlank_iff.mp hgap e (by simp)
      rw [htrim.head e rfl] at hblank
      cases hblank

/-- A trimmed stretch does not end in the blanks at the end of its text. -/
theorem Text.length_le_of_trimmed_end {gap t a m b : Text} (h : t ++ gap = (a ++ m) ++ b)
    (hgap : Text.allBlank gap = true) (htrim : Text.Trimmed m) (hne : m ≠ []) : gap.length ≤ b.length := by
  have hrev : gap.reverse ++ t.reverse = b.reverse ++ (m.reverse ++ a.reverse) := by
    rw [← List.reverse_append, h]
    simp
  have := Text.length_le_of_trimmed hrev (by simpa [Text.allBlank] using hgap)
    ⟨by simpa using htrim.last, by simpa using htrim.head⟩ (by simpa using hne)
  simpa using this

/-- A trimmed text of list characters lies before a declaration, after it or inside it: it cannot have what opens or
    closes the declaration's piece, and it neither starts nor ends in the blanks there. -/
theorem inside_or_apart_of_listChars {source before span after a name b : Text} (hs : source = before ++ span ++ after)
    (hopened : Declaration.Opened before) (hclosed : Declaration.Closed after) (hn : source = a ++ name ++ b)
    (hne : name ≠ []) (htrim : Text.Trimmed name) (hchar : ∀ c ∈ name, Selector.isListChar c = true) :
    a.length + name.length ≤ before.length ∨ before.length + span.length ≤ a.length ∨
      (before.length ≤ a.length ∧ a.length + name.length ≤ before.length + span.length) := by
  obtain ⟨rest, c, gap, rfl, hgap, hc⟩ := hopened
  obtain ⟨gap', c', rest', rfl, hgap', hc'⟩ := hclosed
  have notMem : ∀ {d}, Selector.isListChar d = false → d ∉ name := by
    intro d hd hmem
    rw [hchar d hmem] at hd
    cases hd
  have hopen : rest ++ c :: ((gap ++ span ++ gap') ++ c' :: rest') = a ++ name ++ b := by
    rw [← hn, hs]
    simp
  rcases Text.append_cons_eq_append hopen (notMem (not_isListChar_of_opens hc)) with ⟨z, rfl⟩ | ⟨z, rfl, hclose⟩
  · left
    simp
  rcases Text.append_cons_eq_append hclose (notMem (not_isListChar_of_closes hc')) with ⟨y, hinner⟩ | ⟨y, rfl, -⟩
  · have hstart := Text.length_le_of_trimmed (t := span ++ gap') (a := z) (b := y) (by simpa using hinner) hgap
      htrim hne
    have hstop := Text.length_le_of_trimmed_end hinner hgap' htrim hne
    have hlength := congrArg List.length hinner
    simp only [List.length_append, List.length_cons] at hlength ⊢
    omega
  · simp only [List.length_append, List.length_cons]
    omega

/-! ## What meets is nested -/

section

variable {source : Text} {kinds : List Kind} {a b : Occurrence}

/-- What meets a reference and is none has the reference inside it, and is no url. -/
theorem within_of_meets_var (ha : a ∈ (findings source kinds).occurrences)
    (hb : b ∈ (findings source kinds).occurrences) (hvar : a.part.kind = .var) (hkind : b.part.kind ≠ .var)
    (hmeets : a.Meets b) : a.Within b ∧ (b.part.kind = .selector ∨ b.part.kind = .property) := by
  have hmem := mem_occurrences_of_mem_findings ha
  rw [hvar] at hmem
  obtain ⟨before, word, name, after, href, hplaced, -⟩ := Variable.mem_occurrences.mp hmem
  have hoffset := hplaced.offset_eq
  have hstop := hplaced.stop_eq
  obtain ⟨h1, h2⟩ := hmeets
  rcases apart_or_covers href hplaced.source_eq hb with hapart | ⟨⟨h3, h4⟩, hwhich⟩
  · unfold Occurrence.Apart at hapart
    omega
  · refine ⟨⟨by omega, by omega⟩, hwhich.resolve_left fun hfinds => hkind ?_⟩
    rw [hfinds.part_eq]

/-- A selector that meets a property is inside it. -/
theorem within_of_meets_property (ha : a ∈ (findings source kinds).occurrences)
    (hb : b ∈ (findings source kinds).occurrences) (hselector : a.part.kind = .selector)
    (hproperty : b.part.kind = .property) (hmeets : a.Meets b) : a.Within b := by
  have ha := mem_occurrences_of_mem_findings ha
  have hb := mem_occurrences_of_mem_findings hb
  rw [hselector] at ha
  rw [hproperty] at hb
  obtain ⟨place, name, his, hname, -⟩ := Selector.exists_place ha
  obtain ⟨before, span, after, p, hspan, -, -, hopened, hclosed⟩ := Declaration.exists_of_mem_occurrences hb
  have hoffset := hname.offset_eq
  have hstop := hname.stop_eq
  have hoffset' := hspan.offset_eq
  have hstop' := hspan.stop_eq
  obtain ⟨h1, h2⟩ := hmeets
  unfold Occurrence.Within
  rcases inside_or_apart_of_listChars hspan.source_eq hopened hclosed hname.source_eq his.ne_nil his.trimmed
    his.char with h | h | h
  · omega
  · omega
  · omega

/-- A url and a reference never meet. -/
theorem not_meets_of_url (ha : a ∈ (findings source kinds).occurrences) (hb : b ∈ (findings source kinds).occurrences)
    (hurl : a.part.kind = .url) (hvar : b.part.kind = .var) : ¬ a.Meets b := by
  intro hmeets
  obtain ⟨-, hkind⟩ := within_of_meets_var hb ha hvar (by rw [hurl]; decide) hmeets.symm
  rw [hurl] at hkind
  rcases hkind with h | h <;> cases h

end

inductive Kind.Cross : Kind → Kind → Prop
  | selector : Cross .selector .url
  | property : Cross .property .url

theorem Kind.code_injective : Function.Injective Kind.code := fun k l h =>
  Option.some.inj (by rw [← Kind.ofCode?_code k, h, Kind.ofCode?_code])

/-- Findings that meet, the one of the earlier kind named first. -/
theorem within_or_cross {source : Text} {kinds : List Kind} {a b : Occurrence}
    (ha : a ∈ (findings source kinds).occurrences) (hb : b ∈ (findings source kinds).occurrences)
    (hcode : a.part.kind.code < b.part.kind.code) (hmeets : a.Meets b) :
    a.Within b ∨ b.Within a ∨ a.part.kind.Cross b.part.kind := by
  cases hka : a.part.kind <;> cases hkb : b.part.kind <;> rw [hka, hkb] at hcode
  case selector.var => exact Or.inr (Or.inl (within_of_meets_var hb ha hkb (by rw [hka]; decide) hmeets.symm).1)
  case selector.property => exact Or.inl (within_of_meets_property ha hb hka hkb hmeets)
  case selector.url => exact Or.inr (Or.inr .selector)
  case var.property => exact Or.inl (within_of_meets_var ha hb hka (by rw [hkb]; decide) hmeets).1
  case var.url => exact absurd hmeets.symm (not_meets_of_url hb ha hkb hka)
  case property.url => exact Or.inr (Or.inr .property)
  all_goals exact absurd hcode (by decide)

/-- Nothing is dropped where only references and urls are looked for. -/
theorem dropped_of_var_url {source : Text} {kinds : List Kind} (hkinds : ∀ k ∈ kinds, k = .var ∨ k = .url) :
    Layout.dropped (Layout.verdicts (findings source kinds).occurrences) = [] := by
  refine (dropped_eq_nil (fun o ho => by have := findings_inside ho; omega) ?_).2
  refine (pairwise_findings source kinds).imp_of_mem fun {a b} ha hb hab => ?_
  rcases hab with hcode | ⟨-, hle⟩
  · have isVarOrUrl : ∀ {o}, o ∈ (findings source kinds).occurrences → o.part.kind = .var ∨ o.part.kind = .url := by
      intro o ho
      obtain ⟨k, hk, ho⟩ := mem_findings.mp ho
      rw [kind_of_mem_occurrences ho]
      exact hkinds k hk
    have hapart : ¬ b.Meets a := by
      rcases isVarOrUrl ha with hka | hka <;> rcases isVarOrUrl hb with hkb | hkb
      · rw [hka, hkb] at hcode
        omega
      · exact not_meets_of_url hb ha hkb hka
      · rw [hka, hkb] at hcode
        exact absurd hcode (by decide)
      · rw [hka, hkb] at hcode
        omega
    unfold Occurrence.Meets at hapart
    omega
  · exact Or.inl hle

/-- Of two findings of different kinds that meet, one covers the other, unless one is a url and the other a selector or
    a property. A url and a reference do not meet, so that a search for nothing else reports no overlap. -/
theorem findings_nested (source : Text) (kinds : List Kind) :
    (∀ a ∈ (findings source kinds).occurrences, ∀ b ∈ (findings source kinds).occurrences,
      a.part.kind ≠ b.part.kind → a.Meets b →
        a.Within b ∨ b.Within a ∨ a.part.kind.Cross b.part.kind ∨ b.part.kind.Cross a.part.kind) ∧
    (∀ a ∈ (findings source kinds).occurrences, ∀ b ∈ (findings source kinds).occurrences,
      a.part.kind = .url → b.part.kind = .var → ¬ a.Meets b) ∧
    ∀ options : Options, source.length ≤ options.limit → (∀ k ∈ options.kinds, k = .var ∨ k = .url) →
      ∃ parsed, parse source options = .ok parsed ∧ ∀ d ∈ parsed.diagnostics, d.rule ≠ "overlap".toList := by
  refine ⟨fun a ha b hb hkind hmeets => ?_, fun a ha b hb => not_meets_of_url ha hb, fun options hlimit hkinds => ?_⟩
  · rcases Nat.lt_or_gt_of_ne fun h => hkind (Kind.code_injective h) with hcode | hcode
    · rcases within_or_cross ha hb hcode hmeets with h | h | h
      · exact Or.inl h
      · exact Or.inr (Or.inl h)
      · exact Or.inr (Or.inr (Or.inl h))
    · rcases within_or_cross hb ha hcode hmeets.symm with h | h | h
      · exact Or.inr (Or.inl h)
      · exact Or.inl h
      · exact Or.inr (Or.inr (Or.inr h))
  · obtain ⟨parsed, hparse⟩ := exists_parse hlimit
    exact ⟨parsed, hparse, rule_ne_of_parse hparse (dropped_of_var_url hkinds)⟩

/-- A declaration that ends inside a url, and a reference inside that declaration. -/
theorem findings_nested_root :
    let source := r":root{--a:var(--b)url(c;d)}".toList
    let options : Options := { kinds := [.url, .var] }
    let property : Occurrence := ⟨⟨.property, .property ⟨['a'], "var(--b)url(c".toList⟩, false⟩, 6, 17⟩
    let var : Occurrence := ⟨⟨.var, .text ['b'], false⟩, 10, 8⟩
    let url : Occurrence := ⟨⟨.url, .text "c;d".toList, false⟩, 22, 3⟩
    (findings source Kind.all).occurrences = [var, property, url] ∧
      (property.part.kind ≠ var.part.kind ∧ property.Meets var ∧
        (property.Within var ∨ var.Within property ∨ property.part.kind.Cross var.part.kind ∨
          var.part.kind.Cross property.part.kind)) ∧
      (property.part.kind ≠ url.part.kind ∧ property.Meets url ∧
        (property.Within url ∨ url.Within property ∨ property.part.kind.Cross url.part.kind ∨
          url.part.kind.Cross property.part.kind)) ∧
      (url.part.kind = .url ∧ var.part.kind = .var ∧ ¬ url.Meets var) ∧
      (source.length : Int) ≤ options.limit ∧ (∀ k ∈ options.kinds, k = .var ∨ k = .url) ∧
      ∃ parsed, parse source options = .ok parsed ∧ ∀ d ∈ parsed.diagnostics, d.rule ≠ "overlap".toList := by
  intro source options property var url
  have hfound : (findings source Kind.all).occurrences = [var, property, url] := by decide
  have hlimit : (source.length : Int) ≤ options.limit := by decide
  have hkinds : ∀ k ∈ options.kinds, k = .var ∨ k = .url := by decide
  obtain ⟨hnested, happart, hparse⟩ := findings_nested source Kind.all
  rw [hfound] at hnested happart
  refine ⟨hfound, ⟨by decide, by decide, hnested property (by simp) var (by simp) (by decide) (by decide)⟩,
    ⟨by decide, by decide, hnested property (by simp) url (by simp) (by decide) (by decide)⟩,
    ⟨rfl, rfl, happart url (by simp) var (by simp) rfl rfl⟩, hlimit, hkinds, hparse options hlimit hkinds⟩

end Stylesheet
