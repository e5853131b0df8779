/-
  Stylesheet.Proofs.Rewriting — what becomes of a text that is cut into segments and written back.

  The spans of kept variables change the case of their words and nothing else: this gives the lowered text, which has
  its root block and its pieces where the source has them (`Cut.Cuts.lower`). The spans of kept properties are then
  overwritten in it, each in a piece of its own (`textWith_written_eq_overwrite`). So the pieces of the rewritten text
  are those of the lowered text, the ones with a kept property respelled (`map_snd_pieces_rewritten`).
-/

import Stylesheet.Proofs.Reconstruction
import Stylesheet.Proofs.Occurrence.Spelling
import Stylesheet.Proofs.Text.Overwrite

namespace Stylesheet

def rewritten (source : Text) : Text :=
  (css (arrange source (findings source Kind.all).occurrences false).segments).toOption.getD []

theorem exists_cut_css {source : Text} {options : Options} {parsed : Parsed} (h : parse source options = .ok parsed)
    (hblank : options.dropBlank = false) :
    ∃ c : Cut, c.Cuts source (findings source options.kinds).kept ∧
      css parsed.segments = .ok (c.textWith Stretch.written) := by
  obtain ⟨c, hc, hsegments⟩ := exists_cut_of_parse h
  refine ⟨c, hc, ?_⟩
  rw [hsegments, hblank]
  split
  · rename_i hnone
    rw [Findings.kept_of_occurrences_eq_nil hnone] at hc
    rw [Cut.textWith, hc.stretches_eq_nil, hc.tail_eq, css_cons]
    simp [Segment.css, Except.bind, Except.map]
  · rw [filter_isVoid_false, css_segments c hc.located.spelled]

theorem findings_eq_of_forall_mem {kinds : List Kind} (h : ∀ k, k ∈ kinds) (source : Text) :
    findings source kinds = findings source Kind.all :=
  findings_congr (fun k => iff_of_true (h k) (mem_all k)) source

/-- Options that look for every kind and keep blank literals write a text back as its rewritten text. -/
theorem css_of_parse {source : Text} {options : Options} {parsed : Parsed} (hkinds : ∀ k, k ∈ options.kinds)
    (hblank : options.dropBlank = false) (h : parse source options = .ok parsed) :
    css parsed.segments = .ok (rewritten source) := by
  obtain ⟨c, -, hcss⟩ := exists_cut_css h hblank
  have hsegments : parsed.segments = (arrange source (findings source Kind.all).occurrences false).segments := by
    unfold parse at h
    split at h
    · cases h
    · obtain rfl := Except.ok.inj h
      dsimp only
      rw [findings_eq_of_forall_mem hkinds, hblank]
  rw [rewritten, ← hsegments, hcss]
  rfl

theorem exists_cut_rewritten (source : Text) :
    ∃ c : Cut, c.Cuts source (findings source Kind.all).kept ∧ rewritten source = c.textWith Stretch.written := by
  let options : Options := ⟨source.length, false, Kind.all⟩
  obtain ⟨parsed, hparse⟩ := @exists_parse source options (Int.le_refl _)
  obtain ⟨c, hc, hcss⟩ := exists_cut_css hparse rfl
  rw [css_of_parse mem_all rfl hparse] at hcss
  exact ⟨c, hc, Except.ok.inj hcss⟩

/-! ## The lowered text -/

/-- The span of a part, with `var` in lower case if the part is a variable. -/
def Part.lowered (p : Part) (span : Text) : Text := if p.kind = .var then p.written span else span

section

variable {p : Part} {span : Text}

theorem lowered_var {word name : Text} {escape : Bool} (h : Variable.IsReference word name) :
    Part.lowered ⟨.var, .text name, escape⟩ (Variable.spell word name) = Variable.spell ['v', 'a', 'r'] name :=
  @written_var word name escape h

theorem Part.lowered_of_ne (h : p.kind ≠ .var) : p.lowered span = span := if_neg h

theorem Spelled.lowered (h : Spelled p span) : Spelled p (p.lowered span) := by
  cases h with
  | selector _ hign htrim hchar => exact .selector _ hign htrim hchar
  | url _ hne hchar => exact .url _ hne hchar
  | property p span h => exact .property p span h
  | var word name escape h =>
    rw [lowered_var h]
    exact .var _ name escape h.lower

/-- What is written for a part does not depend on the case. -/
theorem Spelled.written_lowered (h : Spelled p span) : p.written (p.lowered span) = p.written span := by
  cases h with
  | selector | url | property => rfl
  | var word name escape h => rw [lowered_var h, written_var h, written_var h.lower]

theorem Spelled.written_lowered_of_ne (h : Spelled p span) (hk : p.kind ≠ .property) :
    p.written (p.lowered span) = p.lowered span := by
  cases h with
  | selector | url => rfl
  | property => exact absurd rfl hk
  | var word name escape h => rw [lowered_var h, written_var h.lower]

theorem Spelled.lowered_alike (h : Spelled p span) : Text.lower span = Text.lower (p.lowered span) := by
  cases h with
  | selector | url | property => rfl
  | var word name escape h =>
    rw [lowered_var h, Variable.spell, Variable.spell]
    simp only [Text.lower_append, h.word_eq]
    rfl

end

def Stretch.lower (s : Stretch) : Stretch := { s with span := s.found.part.lowered s.span }

def Cut.lower (c : Cut) : Cut := ⟨c.stretches.map Stretch.lower, c.tail⟩

section

variable {source : Text} {c : Cut}

theorem Cut.text_lower_alike (h : ∀ s ∈ c.stretches, Spelled s.found.part s.span) :
    Text.lower c.text = Text.lower c.lower.text := by
  obtain ⟨stretches, tail⟩ := c
  simp only [Cut.text, Cut.textWith, Cut.lower, Text.lower_append]
  congr 1
  induction stretches with
  | nil => rfl
  | cons s stretches ih =>
    simp only [List.map_cons, List.flatMap_cons, Text.lower_append]
    rw [ih fun t ht => h t (List.mem_cons_of_mem _ ht), (h s (by simp)).lowered_alike]
    rfl

theorem aligned_lower {start : Nat} {stretches : List Stretch} (h : Cut.Aligned start stretches)
    (hs : ∀ s ∈ stretches, Spelled s.found.part s.span) : Cut.Aligned start (stretches.map Stretch.lower) := by
  induction stretches generalizing start with
  | nil => trivial
  | cons s stretches ih =>
    obtain ⟨hoffset, hlength, hrest⟩ := h
    have hlen : s.span.length = s.lower.span.length := Text.length_eq_of_lower_eq (hs s (by simp)).lowered_alike
    rw [hlen] at hlength hrest
    exact ⟨hoffset, hlength, ih hrest fun t ht => hs t (List.mem_cons_of_mem _ ht)⟩

theorem Cut.Cuts.lower {found : List Occurrence} (h : c.Cuts source found)
    (hs : ∀ s ∈ c.stretches, Spelled s.found.part s.span) : c.lower.Cuts c.lower.text found := by
  refine ⟨rfl, ?_, aligned_lower h.aligned hs⟩
  rw [← h.found_eq, Cut.lower, List.map_map]
  rfl

theorem textWith_written_lower (h : ∀ s ∈ c.stretches, Spelled s.found.part s.span) :
    c.lower.textWith Stretch.written = c.textWith Stretch.written := by
  rw [Cut.textWith, Cut.textWith, Cut.lower, List.flatMap_map]
  congr 1
  apply List.flatMap_congr
  intro s hs
  rw [Stretch.written, Stretch.written, ← (h s hs).written_lowered]
  rfl

end

/-! ## Overwritten declarations -/

def Cut.respelling (c : Cut) (i : Nat) : Option (Nat × Text) :=
  (c.stretches.find? fun s => decide (s.found.part.kind = .property ∧ s.found.offset = (i : Int))).map fun s =>
    (s.span.length - 1, s.written)

theorem Cut.Aligned.eq_of_offset_eq {start : Nat} {stretches : List Stretch} (h : Cut.Aligned start stretches)
    (hne : ∀ s ∈ stretches, s.span ≠ []) {a b : Stretch} (ha : a ∈ stretches) (hb : b ∈ stretches)
    (hab : a.found.offset = b.found.offset) : a = b := by
  induction stretches generalizing start with
  | nil => cases ha
  | cons s stretches ih =>
    obtain ⟨hoffset, -, hrest⟩ := h
    have hpos := List.length_pos_of_ne_nil (hne s (by simp))
    have later : ∀ t ∈ stretches, s.found.offset < t.found.offset := by
      intro t ht
      have := hrest.start_le t ht
      omega
    rcases List.mem_cons.mp ha with rfl | ha'
    · rcases List.mem_cons.mp hb with rfl | hb'
      · rfl
      · have := later b hb'
        omega
    · rcases List.mem_cons.mp hb with rfl | hb'
      · have := later a ha'
        omega
      · exact ih hrest (fun t ht => hne t (List.mem_cons_of_mem _ ht)) ha' hb'

section

variable {c : Cut}

theorem respelling_eq_some_iff (haligned : Cut.Aligned 0 c.stretches) (hne : ∀ s ∈ c.stretches, s.span ≠ []) {i k : Nat}
    {u : Text} : c.respelling i = some (k, u) ↔ ∃ s ∈ c.stretches, s.found.part.kind = .property ∧ s.found.offset = i ∧
      k = s.span.length - 1 ∧ u = s.written := by
  rw [Cut.respelling, Option.map_eq_some_iff]
  constructor
  · intro h
    obtain ⟨s, hs, heq⟩ := h
    obtain ⟨rfl, rfl⟩ := Prod.mk.inj heq
    have hfound := List.find?_some hs
    obtain ⟨hkind, hoffset⟩ := of_decide_eq_true hfound
    exact ⟨s, List.mem_of_find?_eq_some hs, hkind, hoffset, rfl, rfl⟩
  · intro h
    obtain ⟨s, hs, hkind, hoffset, rfl, rfl⟩ := h
    cases hfind : c.stretches.find? fun s => decide (s.found.part.kind = .property ∧ s.found.offset = (i : Int)) with
    | none =>
      have := List.find?_eq_none.mp hfind s hs
      exact absurd (decide_eq_true ⟨hkind, hoffset⟩) this
    | some a =>
      have hfound := List.find?_some hfind
      obtain ⟨-, hoffset'⟩ := of_decide_eq_true hfound
      have hmem := List.mem_of_find?_eq_some hfind
      obtain rfl : a = s := haligned.eq_of_offset_eq hne hmem hs (hoffset'.trans hoffset.symm)
      exact ⟨a, rfl, rfl⟩

theorem flatMap_written_eq_overwrite {new : Nat → Option (Nat × Text)} {stretches : List Stretch} {tail : Text}
    {start : Nat} (haligned : Cut.Aligned start stretches) (hne : ∀ s ∈ stretches, s.span ≠ [])
    (hplain : ∀ s ∈ stretches, s.found.part.kind ≠ .property → s.written = s.span)
    (hnew : ∀ s ∈ stretches, s.found.part.kind = .property → ∀ i : Nat, s.found.offset = i →
      new i = some (s.span.length - 1, s.written))
    (hnone : ∀ i, start ≤ i → (∀ s ∈ stretches, s.found.part.kind = .property → s.found.offset ≠ i) → new i = none) :
    stretches.flatMap (fun s => s.gap ++ s.written) ++ tail =
      Text.overwrite new start 0 (stretches.flatMap (fun s => s.gap ++ s.span) ++ tail) := by
  induction stretches generalizing start with
  | nil =>
    rw [List.flatMap_nil, List.flatMap_nil, List.nil_append]
    exact (Text.overwrite_eq_self fun i hi _ => hnone i hi (by simp)).symm
  | cons s stretches ih =>
    obtain ⟨hoffset, hlength, hrest⟩ := haligned
    have later : ∀ t ∈ stretches, (start + s.gap.length + s.span.length : Nat) ≤ t.found.offset := hrest.start_le
    have hpos := List.length_pos_of_ne_nil (hne s (by simp))
    have hnone' : ∀ i, start + s.gap.length + s.span.length ≤ i →
        (∀ t ∈ stretches, t.found.part.kind = .property → t.found.offset ≠ i) → new i = none := by
      intro i hi h
      refine hnone i (by omega) fun t ht hk => ?_
      rcases List.mem_cons.mp ht with rfl | ht
      · omega
      · exact h t ht hk
    have hih := ih hrest (fun t ht => hne t (List.mem_cons_of_mem _ ht))
      (fun t ht => hplain t (List.mem_cons_of_mem _ ht)) (fun t ht => hnew t (List.mem_cons_of_mem _ ht)) hnone'
    have hgap : ∀ i, start ≤ i → i < start + s.gap.length → new i = none := by
      intro i h1 h2
      refine hnone i h1 fun t ht _ => ?_
      rcases List.mem_cons.mp ht with rfl | ht
      · omega
      · have := later t ht
        omega
    simp only [List.flatMap_cons, List.append_assoc]
    rw [hih, Text.overwrite_gap hgap]
    congr 1
    by_cases hk : s.found.part.kind = .property
    · exact (Text.overwrite_span (hne s (by simp)) (hnew s (by simp) hk _ hoffset)).symm
    · have hspan : ∀ i, start + s.gap.length ≤ i → i < start + s.gap.length + s.span.length → new i = none := by
        intro i h1 h2
        refine hnone i (by omega) fun t ht hkt => ?_
        rcases List.mem_cons.mp ht with rfl | ht
        · exact absurd hkt hk
        · have := later t ht
          omega
      rw [hplain s (by simp) hk, Text.overwrite_gap hspan]

theorem textWith_written_eq_overwrite (haligned : Cut.Aligned 0 c.stretches) (hne : ∀ s ∈ c.stretches, s.span ≠ [])
    (hplain : ∀ s ∈ c.stretches, s.found.part.kind ≠ .property → s.written = s.span) :
    c.textWith Stretch.written = Text.overwrite c.respelling 0 0 c.text := by
  refine flatMap_written_eq_overwrite haligned hne hplain ?_ ?_
  · intro s hs hk i hi
    exact (respelling_eq_some_iff haligned hne).mpr ⟨s, hs, hk, hi, rfl, rfl⟩
  · intro i _ h
    cases hn : c.respelling i with
    | none => rfl
    | some edit =>
      obtain ⟨s, hs, hk, hi, -⟩ := (respelling_eq_some_iff (u := edit.2) haligned hne).mp hn
      exact absurd hi (h s hs hk)

end

/-! ## The pieces of the rewritten text -/

section

variable {source : Text} {c : Cut}

theorem Cut.Cuts.mem_kept {kinds : List Kind} (hc : c.Cuts source (findings source kinds).kept) {s : Stretch}
    (hs : s ∈ c.stretches) : s.found ∈ (findings source kinds).kept := by
  rw [← hc.found_eq]
  exact List.mem_map_of_mem hs

theorem Cut.Cuts.spelled_lower (hc : c.Cuts source (findings source Kind.all).kept) :
    ∀ s ∈ c.lower.stretches, Spelled s.found.part s.span := by
  intro s hs
  obtain ⟨t, ht, rfl⟩ := List.mem_map.mp hs
  exact (hc.located.spelled t ht).lowered

theorem Cut.Cuts.span_ne (hc : c.Cuts source (findings source Kind.all).kept) : ∀ s ∈ c.lower.stretches, s.span ≠ [] :=
  fun s hs => (hc.spelled_lower s hs).span_ne

/-- The rewritten text is the lowered one with its kept properties overwritten. -/
theorem rewritten_eq_overwrite (hc : c.Cuts source (findings source Kind.all).kept) :
    c.textWith Stretch.written = Text.overwrite c.lower.respelling 0 0 c.lower.text := by
  have hs := hc.located.spelled
  rw [← textWith_written_lower hs]
  refine textWith_written_eq_overwrite (hc.lower hs).aligned hc.span_ne fun s hmem hk => ?_
  obtain ⟨t, ht, rfl⟩ := List.mem_map.mp hmem
  exact (hs t ht).written_lowered_of_ne hk

theorem Cut.Cuts.exists_piece (hc : c.Cuts source (findings source Kind.all).kept) {s : Stretch}
    (hs : s ∈ c.lower.stretches) (hk : s.found.part.kind = .property) :
    ∃ x ∈ Declaration.pieces c.lower.text, ∃ q, Declaration.property? x.2 = some q ∧
      s.found.offset = ↑(x.1 + Text.indent x.2) ∧ s.span = Text.trim x.2 ∧ s.written = q.declaration := by
  have hcl := hc.lower hc.located.spelled
  have hmem : s.found ∈ (findings source Kind.all).kept := by
    rw [← hcl.found_eq]
    exact List.mem_map_of_mem hs
  have hfound := mem_occurrences_of_mem_findings (Layout.mem_of_mem_kept hmem)
  rw [hk] at hfound
  obtain ⟨⟨offset, piece⟩, hpiece, hocc⟩ := List.mem_filterMap.mp hfound
  obtain ⟨p, -, heq⟩ := Option.map_eq_some_iff.mp hocc
  obtain ⟨x, hx, hoffset, hlow⟩ := Text.exists_mem_of_forall₂
    (Declaration.forall₂_pieces (Cut.text_lower_alike hc.located.spelled)) (hc.text_eq.symm ▸ hpiece)
  dsimp only at hoffset hlow
  obtain ⟨before, after, htext, hx1, -⟩ := @Declaration.mem_pieces _ x.1 x.2 hx
  obtain ⟨w, v, hsplit, hw, hv, hindent, ht⟩ := Text.exists_trim x.2
  have hfoundOffset : s.found.offset = ↑(x.1 + Text.indent x.2) := by
    rw [← heq, ← hoffset, ← Text.indent_of_lower_eq hlow]
  have hplaced : s.found.Placed c.lower.text (before ++ w) (Text.trim x.2) (v ++ after) := by
    refine ⟨?_, ?_, ?_⟩
    · rw [htext]
      conv_lhs => rw [hsplit]
      simp
    · rw [hfoundOffset, List.length_append, hindent, hx1]
    · rw [← heq]
      exact congrArg Int.ofNat (Text.length_eq_of_lower_eq (Text.trim_of_lower_eq hlow))
  obtain ⟨l, r, hlr⟩ := List.append_of_mem hs
  obtain ⟨-, hspan, -⟩ := (hcl.placed hlr).unique hplaced
  obtain ⟨q, hpart, hdeclares⟩ := (hc.spelled_lower s hs).exists_property hk
  have hproperty := hdeclares.property_eq
  rw [hspan, Declaration.property?_trim] at hproperty
  refine ⟨x, hx, q, hproperty, hfoundOffset, hspan, ?_⟩
  rw [Stretch.written, hpart]
  rfl

/-- What is overwritten is the declaration of a piece. -/
theorem Cut.Cuts.exists_piece_of_respelling (hc : c.Cuts source (findings source Kind.all).kept) {i k : Nat} {u : Text}
    (h : c.lower.respelling i = some (k, u)) :
    ∃ x ∈ Declaration.pieces c.lower.text, ∃ q, Declaration.property? x.2 = some q ∧ i = x.1 + Text.indent x.2 ∧
      k + 1 = (Text.trim x.2).length ∧ u = q.declaration := by
  obtain ⟨s, hs, hk, hi, rfl, rfl⟩ :=
    (respelling_eq_some_iff (hc.lower hc.located.spelled).aligned hc.span_ne).mp h
  obtain ⟨x, hx, q, hq, hoffset, hspan, hwritten⟩ := hc.exists_piece hs hk
  have hpos := List.length_pos_of_ne_nil (hc.span_ne s hs)
  refine ⟨x, hx, q, hq, by omega, ?_, hwritten⟩
  rw [← hspan]
  omega

def Cut.keeps (c : Cut) (x : Nat × Text) : Bool := (c.respelling (x.1 + Text.indent x.2)).isSome

/-- In a piece nothing is overwritten but its own declaration. -/
theorem Cut.Cuts.eq_of_respelling (hc : c.Cuts source (findings source Kind.all).kept) {x : Nat × Text}
    (hx : x ∈ Declaration.pieces c.lower.text) {i k : Nat} {u : Text} (h1 : x.1 ≤ i) (h2 : i < x.1 + x.2.length)
    (h : c.lower.respelling i = some (k, u)) :
    ∃ q, Declaration.property? x.2 = some q ∧ i = x.1 + Text.indent x.2 ∧ k + 1 = (Text.trim x.2).length ∧
      u = q.declaration := by
  obtain ⟨y, hy, q, hq, hi, hk, hu⟩ := hc.exists_piece_of_respelling h
  have hle := Text.indent_add_length_trim_le y.2
  rcases Declaration.pieces_eq_nil_or_exists_encloses c.lower.text with hnil | ⟨before, body, after, henc⟩
  · rw [hnil] at hx
    cases hx
  · rw [Declaration.pieces_of_encloses henc] at hx hy
    obtain rfl := Text.pieces_unique hx hy (i := i) ⟨h1, h2⟩ ⟨by omega, by omega⟩
    exact ⟨q, hq, hi, hk, hu⟩

theorem Cut.Cuts.respelling_eq_none (hc : c.Cuts source (findings source Kind.all).kept) {x : Nat × Text}
    (hx : x ∈ Declaration.pieces c.lower.text) {i : Nat} (h1 : x.1 ≤ i) (h2 : i < x.1 + x.2.length)
    (h : c.lower.keeps x = true → i ≠ x.1 + Text.indent x.2) : c.lower.respelling i = none := by
  cases hi : c.lower.respelling i with
  | none => rfl
  | some edit =>
    obtain ⟨-, -, heq, -⟩ := hc.eq_of_respelling (k := edit.1) (u := edit.2) hx h1 h2 hi
    refine absurd heq (h ?_)
    rw [Cut.keeps, ← heq, hi]
    rfl

/-- A piece whose property is kept is overwritten with its respelling, any other piece is left as it is. -/
theorem overwrite_piece (hc : c.Cuts source (findings source Kind.all).kept) {x : Nat × Text}
    (hx : x ∈ Declaration.pieces c.lower.text) :
    Text.overwrite c.lower.respelling x.1 0 x.2 =
      if c.lower.keeps x = true then Declaration.respelled x.2 else x.2 := by
  cases hq : Declaration.property? x.2 with
  | none =>
    have hrespelled : Declaration.respelled x.2 = x.2 := by rw [Declaration.respelled, hq]
    rw [hrespelled, ite_self]
    refine Text.overwrite_eq_self fun i h1 h2 => ?_
    cases hi : c.lower.respelling i with
    | none => rfl
    | some edit =>
      obtain ⟨q, hq', -⟩ := hc.eq_of_respelling (k := edit.1) (u := edit.2) hx h1 h2 hi
      rw [hq] at hq'
      cases hq'
  | some q =>
    cases hkeeps : c.lower.keeps x with
    | false =>
      rw [if_neg (by simp)]
      refine Text.overwrite_eq_self fun i h1 h2 => hc.respelling_eq_none hx h1 h2 fun h => ?_
      rw [hkeeps] at h
      cases h
    | true =>
      rw [if_pos rfl]
      obtain ⟨edit, hedit⟩ := Option.isSome_iff_exists.mp hkeeps
      obtain ⟨w, v, hsplit, hw, hv, hindent, ht⟩ := Text.exists_trim x.2
      have hne : Text.trim x.2 ≠ [] := by
        intro hnil
        rw [← Declaration.property?_trim, hnil, Declaration.property?_of_notMem (by simp)] at hq
        cases hq
      have hpos := List.length_pos_of_ne_nil hne
      have hle := Text.indent_add_length_trim_le x.2
      obtain ⟨q', hq', -, hk, hu⟩ :=
        hc.eq_of_respelling (k := edit.1) (u := edit.2) hx (by omega) (by omega) hedit
      obtain rfl : q = q' := Option.some.inj (hq.symm.trans hq')
      have hover : Text.overwrite c.lower.respelling x.1 0 (w ++ Text.trim x.2 ++ v) = w ++ q.declaration ++ v := by
        refine Text.overwrite_middle hne ?_ fun i h1 h2 hi => ?_
        · rw [hindent, hedit, ← hu, ← hk]
          rfl
        · rw [← hsplit] at h2
          rw [hindent] at hi
          exact hc.respelling_eq_none hx h1 h2 fun _ => hi
      have hrespelled : Declaration.respelled (w ++ Text.trim x.2 ++ v) = w ++ q.declaration ++ v :=
        Declaration.respelled_eq hw hv ht (by rw [← hsplit]; exact hq)
      rw [← hsplit] at hover hrespelled
      rw [hover, hrespelled]

/-- What is overwritten in a piece ends no piece and no block. -/
theorem Cut.Cuts.notMem_respelling (hc : c.Cuts source (findings source Kind.all).kept) {i k : Nat} {u : Text}
    (h : c.lower.respelling i = some (k, u)) : ';' ∉ u ∧ '}' ∉ u := by
  obtain ⟨x, hx, q, hq, -, -, rfl⟩ := hc.exists_piece_of_respelling h
  obtain ⟨-, -, -, -, hsemi, hbrace, -⟩ := @Declaration.mem_pieces _ x.1 x.2 hx
  have hdeclares := (Declaration.declares_trim hq hsemi hbrace).declaration
  exact ⟨hdeclares.semicolon, hdeclares.brace⟩

/-- The rewritten text has its root block where the lowered text has it. -/
theorem encloses_rewritten (hc : c.Cuts source (findings source Kind.all).kept) {before body after : Text}
    (h : Declaration.Encloses before body after c.lower.text) :
    Declaration.Encloses before (Text.overwrite c.lower.respelling (before.length + 1) 0 body) after
      (c.textWith Stretch.written) := by
  have inside : ∀ i k u, c.lower.respelling i = some (k, u) → before.length + 1 ≤ i ∧
      i + k < before.length + 1 + body.length := by
    intro i k u hi
    obtain ⟨x, hx, -, -, hxi, hk, -⟩ := hc.exists_piece_of_respelling hi
    rw [Declaration.pieces_of_encloses h] at hx
    obtain ⟨a, b, hbody, hoffset, -⟩ := @Text.mem_pieces _ _ _ x.1 x.2 hx
    have hle := Text.indent_add_length_trim_le x.2
    have hlen := congrArg List.length hbody
    simp only [List.length_append] at hlen
    omega
  have none_of : ∀ i, (i < before.length + 1 ∨ before.length + 1 + body.length ≤ i) → c.lower.respelling i = none := by
    intro i hi
    cases hnew : c.lower.respelling i with
    | none => rfl
    | some edit =>
      have := inside i edit.1 edit.2 hnew
      omega
  have hbrace : '}' ∉ Text.overwrite c.lower.respelling (before.length + 1) 0 body := by
    intro hmem
    rcases Text.mem_overwrite hmem with hmem | ⟨i, k, u, hi, hmem⟩
    · exact h.brace hmem
    · exact (hc.notMem_respelling hi).2 hmem
  have htext : c.textWith Stretch.written =
      before ++ '{' :: (Text.overwrite c.lower.respelling (before.length + 1) 0 body ++ '}' :: after) := by
    have hsplit : c.lower.text = (before ++ ['{']) ++ (body ++ '}' :: after) := by
      rw [h.source_eq]
      simp
    rw [rewritten_eq_overwrite hc, hsplit, Text.overwrite_gap fun i _ hi => none_of i (Or.inl (by simpa using hi)),
      Nat.zero_add, List.length_append, List.length_singleton,
      Text.overwrite_append fun i k u _ _ hi => (inside i k u hi).2,
      Text.overwrite_eq_self fun i hi _ => none_of i (Or.inr hi)]
    simp
  rw [htext]
  exact h.of_lower_eq rfl hbrace

theorem respelling_eq_none (hc : c.Cuts source (findings source Kind.all).kept)
    (h : Declaration.pieces c.lower.text = []) (i : Nat) : c.lower.respelling i = none := by
  cases hi : c.lower.respelling i with
  | none => rfl
  | some edit =>
    obtain ⟨x, hx, -⟩ := hc.exists_piece_of_respelling (u := edit.2) hi
    rw [h] at hx
    cases hx

theorem rewritten_eq_lower (hc : c.Cuts source (findings source Kind.all).kept)
    (h : Declaration.pieces c.lower.text = []) : c.textWith Stretch.written = c.lower.text := by
  rw [rewritten_eq_overwrite hc]
  exact Text.overwrite_eq_self fun i _ _ => respelling_eq_none hc h i

/-- The pieces of the rewritten text are those of the lowered one, respelled where their property is kept. -/
theorem map_snd_pieces_rewritten (hc : c.Cuts source (findings source Kind.all).kept) :
    (Declaration.pieces (c.textWith Stretch.written)).map Prod.snd = (Declaration.pieces c.lower.text).map fun x =>
      if c.lower.keeps x = true then Declaration.respelled x.2 else x.2 := by
  rcases Declaration.pieces_eq_nil_or_exists_encloses c.lower.text with hnil | ⟨before, body, after, h⟩
  · rw [rewritten_eq_lower hc hnil, hnil]
    rfl
  · have hpieces := Declaration.pieces_of_encloses h
    rw [Declaration.pieces_of_encloses (encloses_rewritten hc h), Text.map_snd_pieces_overwrite, ← hpieces]
    · exact List.map_congr_left fun x hx => overwrite_piece hc hx
    · intro i k u _ _ hi
      obtain ⟨x, hx, -, -, hxi, hk, -⟩ := hc.exists_piece_of_respelling hi
      rw [hpieces] at hx
      have hle := Text.indent_add_length_trim_le x.2
      exact ⟨x, hx, by omega, by omega⟩
    · exact fun i k u hi => (hc.notMem_respelling hi).1

theorem lowered_rewritten (hc : c.Cuts source (findings source Kind.all).kept)
    (hlow : Variable.Lowered c.lower.text) : Variable.Lowered (c.textWith Stretch.written) := by
  rcases Declaration.pieces_eq_nil_or_exists_encloses c.lower.text with hnil | ⟨before, body, after, h⟩
  · rw [rewritten_eq_lower hc hnil]
    exact hlow
  · have hout := encloses_rewritten hc h
    have hpieces := map_snd_pieces_rewritten hc
    rw [Declaration.pieces_of_encloses hout] at hpieces
    rw [h.source_eq] at hlow
    obtain ⟨hbefore, hrest⟩ := (Variable.lowered_append_cons_iff (by decide)).mp hlow
    obtain ⟨-, hafter⟩ := (Variable.lowered_append_cons_iff (by decide)).mp hrest
    rw [hout.source_eq]
    refine (Variable.lowered_append_cons_iff (by decide)).mpr ⟨hbefore, ?_⟩
    refine (Variable.lowered_append_cons_iff (by decide)).mpr ⟨?_, hafter⟩
    refine @Variable.lowered_of_pieces (before.length + 1) ';' (by decide) _ fun p hp => ?_
    rw [hpieces] at hp
    obtain ⟨x, hx, rfl⟩ := List.mem_map.mp hp
    obtain ⟨a, b, hxs, -⟩ := @Declaration.mem_pieces _ x.1 x.2 hx
    have hpiece : Variable.Lowered x.2 := by
      rw [h.source_eq] at hxs
      exact hlow.of_infix ⟨a, b, hxs.symm⟩
    split
    · exact Variable.lowered_respelled hpiece
    · exact hpiece

end

end Stylesheet
