/-
  Stylesheet.Proofs.Placement — every finding in its place.

  A finding covers some of the text, and what it covers is a text its part can be read from (`ReadFrom`). Findings
  come kind by kind, and those of one kind one after the other (`pairwise_findings`): so they are a list of which what
  is kept is the one choice there is (`choice_kept_findings`), and where only one kind is looked for, all of them are
  kept (`kept_eq_occurrences`).

  Main statement: `findings_placed`.
-/

import Stylesheet.Proofs.Arrangement

namespace Stylesheet

/-! ## The order of findings -/

theorem pairwise_occurrences (kind : Kind) (source : Text) :
    (kind.occurrences source).Pairwise fun a b => a.stop ≤ b.offset := by
  cases kind with
  | selector => exact Selector.pairwise_occurrences source
  | var => exact Variable.pairwise_occurrences source
  | property => exact Declaration.pairwise_occurrences source
  | url => exact Url.pairwise_occurrences source

section

variable {source : Text} {kinds : List Kind}

theorem findings_inside {o : Occurrence} (h : o ∈ (findings source kinds).occurrences) :
    0 ≤ o.offset ∧ o.offset < o.stop ∧ o.stop ≤ source.length := by
  obtain ⟨before, span, after, hplaced, hspelled⟩ := exists_of_mem_findings h
  have hpos := List.length_pos_of_ne_nil hspelled.span_ne
  have hoffset := hplaced.offset_eq
  have hstop := hplaced.stop_eq
  have hle := hplaced.stop_le
  omega

/-- Findings come kind by kind, those of one kind one after the other. -/
theorem pairwise_findings (source : Text) (kinds : List Kind) :
    (findings source kinds).occurrences.Pairwise fun a b =>
      a.part.kind.code < b.part.kind.code ∨ (a.part.kind = b.part.kind ∧ a.stop ≤ b.offset) := by
  have hordered : (Kind.ordered kinds).Pairwise fun a b => a.code < b.code :=
    List.Pairwise.filter _ (by decide : Kind.all.Pairwise fun a b => a.code < b.code)
  refine List.pairwise_flatMap.mpr ⟨fun kind _ => ?_, hordered.imp fun {k l} hkl a ha b hb => ?_⟩
  · refine (pairwise_occurrences kind source).imp_of_mem fun {a b} ha hb hab => Or.inr ⟨?_, hab⟩
    rw [kind_of_mem_occurrences ha, kind_of_mem_occurrences hb]
  · left
    rwa [kind_of_mem_occurrences ha, kind_of_mem_occurrences hb]

/-- Of two findings at one offset, the one of the earlier kind comes first. -/
theorem pairwise_findings_code (source : Text) (kinds : List Kind) :
    (findings source kinds).occurrences.Pairwise fun a b =>
      a.offset = b.offset → a.part.kind.code < b.part.kind.code := by
  refine (pairwise_findings source kinds).imp_of_mem fun {a b} ha _ hab heq => ?_
  rcases hab with hlt | ⟨-, hle⟩
  · exact hlt
  · have := findings_inside ha
    omega

/-- What is kept of the findings of a text is the one choice there is. -/
theorem choice_kept_findings (source : Text) (kinds : List Kind) :
    Choice (findings source kinds).kept (findings source kinds).occurrences := by
  refine choice_kept (fun o ho => ?_) (pairwise_findings_code source kinds)
  have := findings_inside ho
  omega

theorem kept_eq_of_choice {chosen : List Occurrence} (h : Choice chosen (findings source kinds).occurrences) :
    (findings source kinds).kept = chosen := by
  refine Choice.unique (fun o ho => ?_) (choice_kept_findings source kinds) h
  have := findings_inside ho
  omega

theorem Findings.kept_eq_nil_iff :
    (findings source kinds).kept = [] ↔ (findings source kinds).occurrences = [] := by
  refine ⟨fun h => ?_, Findings.kept_of_occurrences_eq_nil⟩
  by_contra hne
  obtain ⟨o, ho⟩ := List.exists_mem_of_ne_nil _ hne
  rcases (choice_kept_findings source kinds).covered o ho with hk | ⟨k, hk, -⟩
  · rw [h] at hk
    cases hk
  · rw [h] at hk
    cases hk

/-- The segments of a text by any cut of it at the kept findings. -/
theorem segments_of_cuts {options : Options} {parsed : Parsed} (h : parse source options = .ok parsed) {c : Cut}
    (hc : c.Cuts source (findings source options.kinds).kept) :
    parsed.segments = if c.stretches = [] then [.literal source]
      else c.segments.filter fun s => !Layout.isVoid options.dropBlank s := by
  obtain ⟨d, hd, hsegments⟩ := exists_cut_of_parse h
  obtain rfl := hd.unique hc
  have hnil : d.stretches = [] ↔ (findings source options.kinds).occurrences = [] := by
    rw [← Findings.kept_eq_nil_iff, ← hd.found_eq, List.map_eq_nil_iff]
  rw [hsegments]
  simp only [hnil]

/-! ## Findings that are apart -/

theorem dropped_eq_nil {f : Findings} (hpos : ∀ o ∈ f.occurrences, 0 ≤ o.offset ∧ o.offset < o.stop)
    (h : f.occurrences.Pairwise fun a b => a.stop ≤ b.offset ∨ b.stop ≤ a.offset) :
    f.kept = Layout.sorted f.occurrences ∧ Layout.dropped (Layout.verdicts f.occurrences) = [] := by
  have hperm := (Layout.stablySorted_sorted f.occurrences).perm
  have hsorted : (Layout.sorted f.occurrences).Pairwise fun a b => a.stop ≤ b.offset := by
    have happart := (hperm.pairwise_iff fun hab => hab.symm).mpr h
    refine (happart.and (Layout.pairwise_sorted f.occurrences)).imp_of_mem fun {a b} _ hb hab => ?_
    have := hpos b (Layout.mem_sorted.mp hb)
    omega
  refine Layout.scan_judge_of_ordered (Layout.ordered_of_pairwise (fun o ho => ?_) hsorted)
  exact (hpos o (Layout.mem_sorted.mp ho)).1

theorem rule_of_mem_notes {d : Diagnostic} (h : d ∈ (findings source kinds).notes) :
    d.rule = "incomplete_declaration".toList := by
  obtain ⟨kind, -, h⟩ := List.mem_flatMap.mp h
  cases kind with
  | property =>
    obtain ⟨⟨offset, piece⟩, -, h⟩ := List.mem_filterMap.mp h
    change Declaration.note? offset piece = some d at h
    unfold Declaration.note? at h
    split at h
    · cases h
    · rw [← Option.some.inj h]
      rfl
  | selector => cases h
  | var => cases h
  | url => cases h

theorem rule_ne_of_parse {options : Options} {parsed : Parsed} (h : parse source options = .ok parsed)
    (hdropped : Layout.dropped (Layout.verdicts (findings source options.kinds).occurrences) = []) :
    ∀ d ∈ parsed.diagnostics, d.rule ≠ "overlap".toList := by
  intro d hd
  unfold parse at h
  split at h
  · cases h
  · obtain rfl := Except.ok.inj h
    rcases List.mem_append.mp hd with hd | hd
    · rw [rule_of_mem_notes hd]
      decide
    · have hnone : d ∈ Layout.warnings (Layout.verdicts (findings source options.kinds).occurrences) := hd
      rw [Layout.warnings, hdropped] at hnone
      cases hnone

theorem kept_eq_occurrences (hone : ∀ k ∈ kinds, ∀ l ∈ kinds, k = l) :
    (findings source kinds).kept = (findings source kinds).occurrences ∧
      Layout.dropped (Layout.verdicts (findings source kinds).occurrences) = [] := by
  have happart : (findings source kinds).occurrences.Pairwise fun a b => a.stop ≤ b.offset := by
    refine (pairwise_findings source kinds).imp_of_mem fun {a b} ha hb hab => ?_
    obtain ⟨k, hk, ha⟩ := mem_findings.mp ha
    obtain ⟨l, hl, hb⟩ := mem_findings.mp hb
    rcases hab with hlt | ⟨-, hle⟩
    · rw [kind_of_mem_occurrences ha, kind_of_mem_occurrences hb, hone k hk l hl] at hlt
      omega
    · exact hle
  obtain ⟨hkept, hdropped⟩ := dropped_eq_nil (fun o ho => by have := findings_inside ho; omega) (happart.imp Or.inl)
  refine ⟨?_, hdropped⟩
  rw [hkept]
  refine List.mergeSort_of_pairwise (happart.imp_of_mem fun {a b} ha _ hab => decide_eq_true ?_)
  have := findings_inside ha
  omega

/-! ## What findings are read from -/

end

/-- The texts a part can be read from. A property's name is what stands before the first colon of its text, trimmed, or
    that without two dashes in front; its value is what stands after that colon, trimmed. -/
inductive Part.ReadFrom : Part → Text → Prop
  | selector (t : Text) : ReadFrom ⟨.selector, .text t, false⟩ t
  | url (t : Text) : ReadFrom ⟨.url, .text t, false⟩ t
  | var (word name : Text) (escape : Bool) : Text.lower word = "var".toList →
      ReadFrom ⟨.var, .text name, escape⟩ (word ++ "(--".toList ++ name ++ ")".toList)
  | property (p : Property) (left right : Text) : Text.Trimmed (left ++ ':' :: right) → ':' ∉ left →
      (Text.trim left = p.name ∨ Text.trim left = "--".toList ++ p.name) → Text.trim right = p.value →
      ReadFrom ⟨.property, .property p, false⟩ (left ++ ':' :: right)

theorem eq_or_eq_undashed (t : Text) : t = Declaration.undashed t ∨ t = "--".toList ++ Declaration.undashed t := by
  unfold Declaration.undashed
  split
  · exact Or.inr rfl
  · exact Or.inl rfl

theorem Spelled.readFrom {p : Part} {span : Text} (h : Spelled p span) : p.ReadFrom span := by
  cases h with
  | selector => exact .selector _
  | url => exact .url _
  | var word name escape h => exact .var word name escape h.word_eq
  | property p span h =>
    obtain ⟨left, right, rfl, hcolon, -, -, rfl⟩ := Declaration.property?_eq_some_iff.mp h.property_eq
    exact .property _ left right h.trimmed hcolon (eq_or_eq_undashed _) rfl

/-- Every finding covers at least one character of the text, and just a text its part can be read from. Findings of one
    kind come in the order of their offsets, each after the end of the one before it, so that a search for one kind at
    most keeps all of them and reports no overlap. -/
theorem findings_placed (source : Text) (kinds : List Kind) :
    (∀ o ∈ (findings source kinds).occurrences,
      1 ≤ o.length ∧ 0 ≤ o.offset ∧ o.stop ≤ source.length ∧ o.part.ReadFrom (o.spanIn source)) ∧
    ((findings source kinds).occurrences.Pairwise fun a b =>
      a.part.kind = b.part.kind → a.offset < b.offset ∧ a.stop ≤ b.offset) ∧
    ∀ options : Options, source.length ≤ options.limit → (∀ k ∈ options.kinds, ∀ l ∈ options.kinds, k = l) →
      ∃ parsed, parse source options = .ok parsed ∧ (∀ d ∈ parsed.diagnostics, d.rule ≠ "overlap".toList) ∧
        (findings source options.kinds).kept = (findings source options.kinds).occurrences ∧
        parts parsed.segments = (findings source options.kinds).occurrences.map Occurrence.part := by
  refine ⟨fun o ho => ?_, ?_, fun options hlimit hone => ?_⟩
  · obtain ⟨before, span, after, hplaced, hspelled⟩ := exists_of_mem_findings ho
    have hinside := findings_inside ho
    unfold Occurrence.stop at hinside ⊢
    refine ⟨by omega, by omega, by omega, ?_⟩
    rw [hplaced.spanIn_eq]
    exact hspelled.readFrom
  · refine (pairwise_findings source kinds).imp_of_mem fun {a b} ha _ hab hkind => ?_
    have hinside := findings_inside ha
    rcases hab with hlt | ⟨-, hle⟩
    · rw [hkind] at hlt
      omega
    · exact ⟨by omega, hle⟩
  · obtain ⟨parsed, hparse⟩ := exists_parse hlimit
    obtain ⟨hkept, hdropped⟩ := @kept_eq_occurrences source _ hone
    refine ⟨parsed, hparse, rule_ne_of_parse hparse hdropped, hkept, ?_⟩
    rw [parts_of_parse hparse, hkept]

/-- Two properties, the first one with blanks around it and in it. -/
theorem findings_placed_root :
    let source := r":root{ --a : b ;c:d}".toList
    let options : Options := { kinds := [.property] }
    let first : Occurrence := ⟨⟨.property, .property ⟨['a'], ['b']⟩, false⟩, 7, 7⟩
    let second : Occurrence := ⟨⟨.property, .property ⟨['c'], ['d']⟩, false⟩, 16, 3⟩
    (findings source options.kinds).occurrences = [first, second] ∧
      first.part.ReadFrom (first.spanIn source) ∧ second.part.ReadFrom (second.spanIn source) ∧
      (first.part.kind = second.part.kind → first.offset < second.offset ∧ first.stop ≤ second.offset) ∧
      (source.length : Int) ≤ options.limit ∧ (∀ k ∈ options.kinds, ∀ l ∈ options.kinds, k = l) ∧
      ∃ parsed, parse source options = .ok parsed ∧ (∀ d ∈ parsed.diagnostics, d.rule ≠ "overlap".toList) ∧
        (findings source options.kinds).kept = (findings source options.kinds).occurrences ∧
        parts parsed.segments = (findings source options.kinds).occurrences.map Occurrence.part := by
  intro source options first second
  have hfound : (findings source options.kinds).occurrences = [first, second] := by decide
  have hlimit : (source.length : Int) ≤ options.limit := by decide
  have hone : ∀ k ∈ options.kinds, ∀ l ∈ options.kinds, k = l := by decide
  obtain ⟨hplaced, hordered, hparse⟩ := findings_placed source options.kinds
  rw [hfound] at hplaced hordered
  exact ⟨hfound, (hplaced first (by simp)).2.2.2, (hplaced second (by simp)).2.2.2,
    List.rel_of_pairwise_cons hordered (by simp), hlimit, hone, hparse options hlimit hone⟩

end Stylesheet
