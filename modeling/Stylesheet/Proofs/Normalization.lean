/-
  Stylesheet.Proofs.Normalization — when writing a text back has nothing left to change.

  A text is written back as it is just where every kept occurrence is spelled the way it is written
  (`rewritten_eq_self_iff`). Once rewritten it is so if whatever was dropped is spelled that way already
  (`rewritten_rewritten`); what was dropped for an overlap may be kept the next time, so that the text may change again
  (`rewritten_twice`). A change takes away a capital letter or a misspelt declaration, so that changes come to an end
  (`misspellings_rewritten_lt`).

  Main statement: `rewriting_settles`.
-/

import Stylesheet.Proofs.References
import Stylesheet.Proofs.Rewriting

namespace Stylesheet

def Occurrence.PlainIn (o : Occurrence) (source : Text) : Prop :=
  ∀ before span after, o.Placed source before span after → o.part.Plain span

def Findings.dropped (f : Findings) : List Occurrence := Layout.dropped (Layout.verdicts f.occurrences)

theorem Findings.mem_kept_or_mem_dropped {f : Findings} {o : Occurrence} (h : o ∈ f.occurrences) :
    o ∈ f.kept ∨ o ∈ f.dropped :=
  Layout.mem_kept_or_mem_dropped h

theorem plain_iff_plainIn {c : Cut} {source : Text} {found : List Occurrence} (hc : c.Cuts source found) :
    (∀ s ∈ c.stretches, s.found.part.Plain s.span) ↔ ∀ o ∈ found, o.PlainIn source := by
  rw [← hc.found_eq]
  constructor
  · intro h o ho before span after hplaced
    obtain ⟨s, hs, rfl⟩ := List.mem_map.mp ho
    obtain ⟨l, r, hsplit⟩ := List.append_of_mem hs
    obtain ⟨-, hspan, -⟩ := (hc.placed hsplit).unique hplaced
    rw [← hspan]
    exact h s hs
  · intro h s hs
    obtain ⟨l, r, hsplit⟩ := List.append_of_mem hs
    exact h s.found (List.mem_map_of_mem hs) _ _ _ (hc.placed hsplit)

/-- A text is written back as it is just where every kept occurrence is spelled the way it is written. -/
theorem rewritten_eq_self_iff (source : Text) :
    rewritten source = source ↔ ∀ o ∈ (findings source Kind.all).kept, o.PlainIn source := by
  obtain ⟨c, hc, hrewritten⟩ := exists_cut_rewritten source
  rw [← plain_iff_plainIn hc, ← textWith_written_eq_text_iff hc.located, hrewritten, hc.text_eq]

/-! ## Texts without other spellings -/

/-- Where every reference has `var` in lower case and no piece is misspelt, all findings are spelled as they are
    written. -/
theorem plainIn_of_lowered {source : Text} {kinds : List Kind} (hlow : Variable.Lowered source)
    (hpieces : ∀ x ∈ Declaration.pieces source, Declaration.misspelt x.2 = false) {o : Occurrence}
    (ho : o ∈ (findings source kinds).occurrences) : o.PlainIn source := by
  have ho := mem_occurrences_of_mem_findings ho
  intro before span after hplaced
  cases hkind : o.part.kind with
  | selector =>
    rw [hkind] at ho
    obtain ⟨_, _, -, -, hpart⟩ := Selector.exists_place ho
    rw [hpart]
    exact ⟨nofun, nofun⟩
  | url =>
    rw [hkind] at ho
    obtain ⟨_, _, _, -, -, hpart⟩ := Url.exists_of_mem_occurrences ho
    rw [hpart]
    exact ⟨nofun, nofun⟩
  | var =>
    rw [hkind] at ho
    obtain ⟨a, word, name, b, href, hplaced', hpart⟩ := Variable.mem_occurrences.mp ho
    obtain ⟨-, rfl, -⟩ := hplaced.unique hplaced'
    rw [hpart]
    exact (plain_var_iff href).mpr (hlow word name href ⟨a, b, hplaced'.source_eq.symm⟩)
  | property =>
    rw [hkind] at ho
    obtain ⟨x, hx, hocc⟩ := List.mem_filterMap.mp ho
    obtain ⟨a, b, hs, hoffset, -⟩ := @Declaration.mem_pieces _ x.1 x.2 hx
    dsimp only at hocc
    rw [hoffset] at hocc
    obtain ⟨_, _, p, -, -, -, hplaced', hpart, hp⟩ := Declaration.placed_of_piece hs hocc
    obtain ⟨-, rfl, -⟩ := hplaced.unique hplaced'
    rw [Declaration.property?_trim] at hp
    rw [hpart]
    exact plain_property_iff.mpr (Declaration.misspelt_eq_false_iff.mp (hpieces x hx) p hp)

section

variable {source : Text} {c : Cut}

/-- A kept property shows in the piece it has in the lowered text. -/
theorem keeps_of_mem_kept (hc : c.Cuts source (findings source Kind.all).kept) {o : Occurrence}
    (ho : o ∈ (findings source Kind.all).kept) (hk : o.part.kind = .property) {x : Nat × Text}
    (hx : o.offset = ↑(x.1 + Text.indent x.2)) : c.lower.keeps x = true := by
  rw [← hc.found_eq] at ho
  obtain ⟨s, hs, rfl⟩ := List.mem_map.mp ho
  have hmem : s.lower ∈ c.lower.stretches := List.mem_map_of_mem hs
  have hnew := (respelling_eq_some_iff (hc.lower hc.located.spelled).aligned hc.span_ne).mpr
    ⟨s.lower, hmem, hk, hx, rfl, rfl⟩
  rw [Cut.keeps, hnew]
  rfl

/-- A misspelt piece of the lowered text has a property that is kept, or one that is dropped and misspelt. -/
theorem misspelt_of_not_keeps (hc : c.Cuts source (findings source Kind.all).kept)
    (hdropped : ∀ o ∈ (findings source Kind.all).dropped, o.PlainIn source) {x : Nat × Text}
    (hx : x ∈ Declaration.pieces c.lower.text) (hkeeps : c.lower.keeps x ≠ true) :
    Declaration.misspelt x.2 = false := by
  have halike := (Cut.text_lower_alike hc.located.spelled).symm
  rw [hc.text_eq] at halike
  obtain ⟨y, hy, hoffset, hlow⟩ := Text.exists_mem_of_forall₂ (Declaration.forall₂_pieces halike) hx
  rw [Declaration.misspelt_of_lower_eq hlow, Declaration.misspelt_eq_false_iff]
  intro p hp
  obtain ⟨before, after, hs, hbefore, -⟩ := @Declaration.mem_pieces _ y.1 y.2 hy
  let o : Occurrence := ⟨⟨.property, .property p, false⟩, ↑(y.1 + Text.indent y.2), (Text.trim y.2).length⟩
  have hocc : Declaration.occurrence? y.1 y.2 = some o := by
    rw [Declaration.occurrence?, hp]
    rfl
  have hfound : o ∈ (findings source Kind.all).occurrences :=
    mem_findings.mpr ⟨.property, by decide, List.mem_filterMap.mpr ⟨y, hy, hocc⟩⟩
  rcases Findings.mem_kept_or_mem_dropped hfound with hkept | hdrop
  · refine absurd (keeps_of_mem_kept hc hkept rfl ?_) hkeeps
    rw [hoffset, Text.indent_of_lower_eq hlow]
  · rw [hbefore] at hocc
    obtain ⟨w, v, -, -, -, -, hplaced, -, -⟩ := Declaration.placed_of_piece hs hocc
    exact plain_property_iff.mp (hdropped o hdrop _ _ _ hplaced)

theorem word_eq_of_mem_kept (hc : c.Cuts source (findings source Kind.all).kept) {o : Occurrence}
    (ho : o ∈ (findings source Kind.all).kept) (hk : o.part.kind = .var) {before word name after : Text}
    (href : Variable.IsReference word name) (hs : c.lower.text = before ++ Variable.spell word name ++ after)
    (hoffset : o.offset = before.length) : word = ['v', 'a', 'r'] := by
  rw [← hc.found_eq] at ho
  obtain ⟨s, hmem, rfl⟩ := List.mem_map.mp ho
  have hspelled := hc.located.spelled s hmem
  obtain ⟨l, r, hsplit⟩ := List.append_of_mem (List.mem_map_of_mem (f := Stretch.lower) hmem)
  have hplaced := (hc.lower hc.located.spelled).placed hsplit
  obtain ⟨word', name', escape, hpart, hword, href'⟩ := hspelled.exists_var hk
  have hspan : s.lower.span = Variable.spell ['v', 'a', 'r'] name' := by
    show s.found.part.lowered s.span = _
    rw [hpart, hword, lowered_var href']
  rw [hspan] at hplaced
  have hlen := hplaced.offset_eq.symm.trans hoffset
  exact (Variable.same_of_eq href hs (href'.lower) hplaced.source_eq (by omega)).2.1

/-- The lowered text is the text wherever something is kept that is no variable. -/
theorem getElem?_lower_of_covers (hc : c.Cuts source (findings source Kind.all).kept) {o : Occurrence}
    (ho : o ∈ (findings source Kind.all).kept) (hk : o.part.kind ≠ .var) {i : Nat} (h1 : o.offset ≤ i)
    (h2 : i < o.stop) : c.lower.text[i]? = source[i]? := by
  rw [← hc.found_eq] at ho
  obtain ⟨s, hs, rfl⟩ := List.mem_map.mp ho
  obtain ⟨l, r, hsplit⟩ := List.append_of_mem hs
  have hsplit' : c.lower.stretches = l.map Stretch.lower ++ s.lower :: r.map Stretch.lower := by
    rw [Cut.lower, hsplit, List.map_append, List.map_cons]
  have hplaced := hc.placed hsplit
  have hplaced' := (hc.lower hc.located.spelled).placed hsplit'
  have hspan : s.lower.span = s.span := Part.lowered_of_ne hk
  rw [hspan] at hplaced'
  have hoffset := hplaced.offset_eq
  have hoffset' : s.found.offset = _ := hplaced'.offset_eq
  have hstop := hplaced.stop_eq
  obtain ⟨j, rfl⟩ : ∃ j, i = (l.flatMap (fun s => s.gap ++ s.span) ++ s.gap).length + j :=
    ⟨i - (l.flatMap (fun s => s.gap ++ s.span) ++ s.gap).length, by omega⟩
  rw [hplaced.source_eq, Text.getElem?_middle _ _ _ (by omega), hplaced'.source_eq,
    show (l.flatMap (fun s => s.gap ++ s.span) ++ s.gap).length =
      ((l.map Stretch.lower).flatMap (fun s => s.gap ++ s.span) ++ s.lower.gap).length by omega,
    Text.getElem?_middle _ _ _ (by omega)]

/-- If what is dropped has `var` in lower case, so has every reference of the lowered text. -/
theorem lowered_of_dropped (hc : c.Cuts source (findings source Kind.all).kept)
    (hdropped : ∀ o ∈ (findings source Kind.all).dropped, o.PlainIn source) : Variable.Lowered c.lower.text := by
  intro word name href hin
  obtain ⟨before, after, hs⟩ := hin
  have halike := (Cut.text_lower_alike hc.located.spelled).symm
  rw [hc.text_eq, ← hs] at halike
  obtain ⟨before', word', name', after', hs', href', hbefore, -⟩ := Variable.exists_of_lower_eq href halike
  have hlen := Text.length_eq_of_lower_eq hbefore
  obtain ⟨v, hfound, hv, hfinds⟩ := @exists_finding source before' word' name' after' Kind.all (by decide) href' hs'
  rcases Findings.mem_kept_or_mem_dropped hfound with hkept | hdrop
  · have hk : v.part.kind = .var := by rw [hfinds.part_eq]
    exact word_eq_of_mem_kept hc hkept hk href hs.symm (by rw [hfinds.offset_eq, hlen])
  · have hplain := hdropped v hdrop _ _ _ hv
    rw [hfinds.part_eq, plain_var_iff href'] at hplain
    obtain ⟨o, ho, hcovers, hwhich⟩ := @exists_covering source before' word' name' after' Kind.all (by decide) href' hs'
    by_cases hk : o.part.kind = .var
    · have hoffset : o.offset = before'.length := by
        rcases hwhich with hfinds | hkind | hkind
        · exact hfinds.offset_eq
        · rw [hk] at hkind
          cases hkind
        · rw [hk] at hkind
          cases hkind
      exact word_eq_of_mem_kept hc ho hk href hs.symm (by rw [hoffset, hlen])
    · rw [← hplain]
      refine List.ext_getElem? fun i => ?_
      by_cases hi : i < 3
      · have hlen' := href'.length_spell
        rw [← href.getElem?_word hs.symm hi, ← href'.getElem?_word hs' hi, hlen]
        exact getElem?_lower_of_covers hc ho hk (by have := hcovers.1; omega) (by have := hcovers.2; omega)
      · have hout : word.length ≤ i := by
          rw [href.length_word]
          omega
        have hout' : word'.length ≤ i := by
          rw [href'.length_word]
          omega
        rw [List.getElem?_eq_none hout, List.getElem?_eq_none hout']

end

/-- What is dropped from a text changes nothing later on, if it is spelled as it is written. -/
theorem rewritten_rewritten {source : Text} (hdropped : ∀ o ∈ (findings source Kind.all).dropped, o.PlainIn source) :
    rewritten (rewritten source) = rewritten source := by
  obtain ⟨c, hc, hrewritten⟩ := exists_cut_rewritten source
  rw [rewritten_eq_self_iff]
  intro o ho
  rw [hrewritten] at ho ⊢
  refine plainIn_of_lowered (lowered_rewritten hc (lowered_of_dropped hc hdropped)) (fun x hx => ?_)
    (Layout.mem_of_mem_kept ho)
  have hmem : x.2 ∈ (Declaration.pieces (c.textWith Stretch.written)).map Prod.snd := List.mem_map_of_mem hx
  rw [map_snd_pieces_rewritten hc] at hmem
  obtain ⟨y, hy, heq⟩ := List.mem_map.mp hmem
  rw [← heq]
  split
  · exact Declaration.misspelt_respelled y.2
  · rename_i hkeeps
    exact misspelt_of_not_keeps hc hdropped hy hkeeps

/-! ## Every change takes something away -/

/-- The capital letters of a text, and the pieces of its root block that are misspelt. -/
def misspellings (source : Text) : Nat :=
  source.countP Char.isUpper + (Declaration.pieces source).countP fun x => Declaration.misspelt x.2

theorem countP_isUpper_eq_zero_of_allBlank {t : Text} (h : Text.allBlank t = true) : t.countP Char.isUpper = 0 := by
  rw [List.countP_eq_zero]
  intro c hc hupper
  have hblank := Text.allBlank_iff.mp h c hc
  rw [Text.isBlank_eq_false_of_isAlpha (by simp [Char.isAlpha, hupper])] at hblank
  cases hblank

theorem countP_isUpper_trim (t : Text) : (Text.trim t).countP Char.isUpper = t.countP Char.isUpper := by
  obtain ⟨a, b, ht, ha, hb, -, -⟩ := Text.exists_trim t
  conv_rhs => rw [ht]
  rw [List.countP_append, List.countP_append, countP_isUpper_eq_zero_of_allBlank ha,
    countP_isUpper_eq_zero_of_allBlank hb]
  omega

theorem countP_isUpper_undashed (t : Text) : (Declaration.undashed t).countP Char.isUpper = t.countP Char.isUpper := by
  unfold Declaration.undashed
  split
  · rw [List.countP_cons_of_neg (by decide), List.countP_cons_of_neg (by decide)]
  · rfl

theorem countP_isUpper_declaration {t : Text} {p : Property} (h : Declaration.property? t = some p) :
    p.declaration.countP Char.isUpper = t.countP Char.isUpper := by
  obtain ⟨n, v, rfl, -, -, -, rfl⟩ := Declaration.property?_eq_some_iff.mp h
  have hn := (countP_isUpper_undashed (Text.trim n)).trans (countP_isUpper_trim n)
  have hv := countP_isUpper_trim v
  rw [Property.declaration, List.cons_append, List.cons_append, List.countP_cons_of_neg (by decide),
    List.countP_cons_of_neg (by decide), List.countP_append, List.countP_cons_of_neg (by decide),
    List.countP_cons_of_neg (by decide), List.countP_append, List.countP_cons_of_neg (by decide), hn, hv]

theorem lower_eq_self {t : Text} (h : t.countP Char.isUpper = 0) : Text.lower t = t := by
  rw [List.countP_eq_zero] at h
  exact (List.map_congr_left fun c hc => Char.toLower_eq_of_not_isUpper (h c hc)).trans (List.map_id t)

theorem Spelled.countP_isUpper_written_le {p : Part} {span : Text} (h : Spelled p span) :
    (p.written span).countP Char.isUpper ≤ span.countP Char.isUpper := by
  cases h with
  | selector | url => exact Nat.le_refl _
  | property q span h => exact Nat.le_of_eq (countP_isUpper_declaration h.property_eq)
  | var word name escape h =>
    rw [written_var h, Variable.spell, Variable.spell]
    simp only [List.countP_append]
    have : List.countP Char.isUpper ['v', 'a', 'r'] = 0 := by decide
    omega

/-- A variable in another case has a capital letter that is not written. -/
theorem Spelled.countP_isUpper_written_lt {p : Part} {span : Text} (h : Spelled p span) (hk : p.kind = .var)
    (hplain : ¬ p.Plain span) : (p.written span).countP Char.isUpper < span.countP Char.isUpper := by
  obtain ⟨word, name, escape, rfl, rfl, href⟩ := h.exists_var hk
  rw [plain_var_iff href] at hplain
  have hpos : word.countP Char.isUpper ≠ 0 := by
    intro hzero
    rw [← lower_eq_self hzero] at hplain
    exact hplain href.word_eq
  rw [written_var href, Variable.spell, Variable.spell]
  simp only [List.countP_append]
  have : List.countP Char.isUpper ['v', 'a', 'r'] = 0 := by decide
  omega

section

variable {α : Type} {p q : α → Bool} {l : List α}

theorem countP_lt_of_mem (h : ∀ x ∈ l, p x = true → q x = true) {a : α} (ha : a ∈ l) (hp : p a = false)
    (hq : q a = true) : l.countP p < l.countP q := by
  obtain ⟨x, y, rfl⟩ := List.append_of_mem ha
  have hx := List.countP_mono_left (l := x) fun b hb => h b (by simp [hb])
  have hy := List.countP_mono_left (l := y) fun b hb => h b (by simp [hb])
  rw [List.countP_append, List.countP_append, List.countP_cons_of_neg (by simp [hp]), List.countP_cons_of_pos hq]
  omega

end

section

variable {c : Cut} {f g : Stretch → Text} {p : Char → Bool}

theorem countP_textWith_le (h : ∀ s ∈ c.stretches, (f s).countP p ≤ (g s).countP p) :
    (c.textWith f).countP p ≤ (c.textWith g).countP p := by
  obtain ⟨stretches, tail⟩ := c
  rw [Cut.textWith, Cut.textWith, List.countP_append, List.countP_append]
  apply Nat.add_le_add_right
  induction stretches with
  | nil => exact Nat.le_refl _
  | cons s stretches ih =>
    have hs := h s (by simp)
    have hrest := ih fun t ht => h t (List.mem_cons_of_mem _ ht)
    rw [List.flatMap_cons, List.flatMap_cons]
    simp only [List.countP_append] at hrest ⊢
    omega

theorem countP_textWith_lt (h : ∀ s ∈ c.stretches, (f s).countP p ≤ (g s).countP p) {s : Stretch}
    (hs : s ∈ c.stretches) (hlt : (f s).countP p < (g s).countP p) :
    (c.textWith f).countP p < (c.textWith g).countP p := by
  obtain ⟨stretches, tail⟩ := c
  obtain ⟨l, r, rfl⟩ := List.append_of_mem hs
  have hl := @countP_textWith_le ⟨l, []⟩ f g p fun t ht => h t (by simp [ht])
  have hr := @countP_textWith_le ⟨r, []⟩ f g p fun t ht => h t (by simp [ht])
  simp only [Cut.textWith, List.append_nil] at hl hr
  rw [Cut.textWith, Cut.textWith, List.flatMap_append, List.flatMap_append, List.flatMap_cons, List.flatMap_cons]
  simp only [List.countP_append]
  omega

end

section

variable {source : Text} {c : Cut}

theorem countP_misspelt_lower (hc : c.Cuts source (findings source Kind.all).kept) :
    ((Declaration.pieces c.lower.text).countP fun x => Declaration.misspelt x.2) =
      (Declaration.pieces source).countP fun x => Declaration.misspelt x.2 := by
  have halike := (Cut.text_lower_alike hc.located.spelled).symm
  rw [hc.text_eq] at halike
  have hpieces := Declaration.forall₂_pieces halike
  generalize Declaration.pieces c.lower.text = l at hpieces ⊢
  generalize Declaration.pieces source = m at hpieces ⊢
  induction hpieces with
  | nil => rfl
  | cons hxy _ ih => rw [List.countP_cons, List.countP_cons, ih, Declaration.misspelt_of_lower_eq hxy.2]

/-- The misspelt pieces of the rewritten text are those of the lowered one whose property is not kept. -/
theorem countP_misspelt_rewritten (hc : c.Cuts source (findings source Kind.all).kept) :
    ((Declaration.pieces (c.textWith Stretch.written)).countP fun x => Declaration.misspelt x.2) =
      (Declaration.pieces c.lower.text).countP fun x => !c.lower.keeps x && Declaration.misspelt x.2 := by
  have hmap : ∀ l : List (Nat × Text), (l.countP fun x => Declaration.misspelt x.2) =
      (l.map Prod.snd).countP Declaration.misspelt := fun l => by rw [List.countP_map]; rfl
  rw [hmap, map_snd_pieces_rewritten hc, List.countP_map]
  refine List.countP_congr fun x _ => ?_
  rw [Function.comp_apply]
  split
  · rename_i hkeeps
    simp [hkeeps, Declaration.misspelt_respelled]
  · rename_i hkeeps
    simp [hkeeps]

theorem countP_misspelt_rewritten_le (hc : c.Cuts source (findings source Kind.all).kept) :
    ((Declaration.pieces (c.textWith Stretch.written)).countP fun x => Declaration.misspelt x.2) ≤
      (Declaration.pieces source).countP fun x => Declaration.misspelt x.2 := by
  rw [countP_misspelt_rewritten hc, ← countP_misspelt_lower hc]
  exact List.countP_mono_left fun x _ h => (Bool.and_eq_true_iff.mp h).2

theorem countP_misspelt_rewritten_lt (hc : c.Cuts source (findings source Kind.all).kept) {s : Stretch}
    (hs : s ∈ c.stretches) (hk : s.found.part.kind = .property) (hplain : ¬ s.found.part.Plain s.span) :
    ((Declaration.pieces (c.textWith Stretch.written)).countP fun x => Declaration.misspelt x.2) <
      (Declaration.pieces source).countP fun x => Declaration.misspelt x.2 := by
  have hmem : s.lower ∈ c.lower.stretches := List.mem_map_of_mem hs
  obtain ⟨x, hx, q, hq, hoffset, hspan, hwritten⟩ := hc.exists_piece hmem hk
  have hkeeps : c.lower.keeps x = true :=
    keeps_of_mem_kept hc (hc.mem_kept hs) hk hoffset
  have hmisspelt : Declaration.misspelt x.2 = true := by
    by_contra hno
    have htrim := Declaration.misspelt_eq_false_iff.mp (by simpa using hno) q hq
    have heq : s.found.part.written (s.found.part.lowered s.span) = s.found.part.lowered s.span :=
      hwritten.trans (htrim.symm.trans hspan.symm)
    rw [Part.lowered_of_ne (by rw [hk]; decide)] at heq
    exact hplain ((hc.located.spelled s hs).written_eq_iff.mp heq)
  rw [countP_misspelt_rewritten hc, ← countP_misspelt_lower hc]
  exact countP_lt_of_mem (fun y _ h => (Bool.and_eq_true_iff.mp h).2) hx (by rw [hkeeps]; rfl) hmisspelt

end

/-- A text that changes when it is written back loses a misspelling and gets none. -/
theorem misspellings_rewritten_lt {source : Text} (h : rewritten source ≠ source) :
    misspellings (rewritten source) < misspellings source := by
  obtain ⟨c, hc, hrewritten⟩ := exists_cut_rewritten source
  have hspelled := hc.located.spelled
  have hle : ∀ s ∈ c.stretches, s.written.countP Char.isUpper ≤ s.span.countP Char.isUpper :=
    fun s hs => (hspelled s hs).countP_isUpper_written_le
  have hcapitals := countP_textWith_le hle
  have hpieces := countP_misspelt_rewritten_le hc
  obtain ⟨s, hs, hplain⟩ : ∃ s ∈ c.stretches, ¬ s.found.part.Plain s.span := by
    by_contra hall
    push Not at hall
    refine h ?_
    rw [hrewritten, (textWith_written_eq_text_iff hc.located).mpr hall, hc.text_eq]
  have htext : c.textWith (fun s => s.span) = source := hc.text_eq
  rw [htext] at hcapitals
  rw [hrewritten, misspellings, misspellings]
  by_cases hk : s.found.part.kind = .property
  · have := countP_misspelt_rewritten_lt hc hs hk hplain
    omega
  · have hvar : s.found.part.kind = .var := by
      by_contra hvar
      refine hplain ((hspelled s hs).written_eq_iff.mp ?_)
      have hlowered := (hspelled s hs).written_lowered_of_ne hk
      rwa [Part.lowered_of_ne hvar] at hlowered
    have := countP_textWith_lt hle hs ((hspelled s hs).countP_isUpper_written_lt hvar hplain)
    rw [htext] at this
    omega

/-! ## Changes come to an end -/

/-- What takes something away whenever it changes a thing comes to rest. -/
theorem exists_iterate_eq {α : Type} {f : α → α} {size : α → Nat} (h : ∀ a, f a ≠ a → size (f a) < size a) (a : α) :
    ∃ n ≤ size a, ∀ m, n ≤ m → f^[m] a = f^[n] a := by
  induction hn : size a using Nat.strongRecOn generalizing a with
  | ind n ih =>
    by_cases hfix : f a = a
    · refine ⟨0, Nat.zero_le _, fun m _ => ?_⟩
      rw [Function.iterate_fixed hfix, Function.iterate_zero_apply]
    · have hlt := h a hfix
      obtain ⟨k, hk, hrest⟩ := ih (size (f a)) (by omega) (f a) rfl
      refine ⟨k + 1, by omega, fun m hm => ?_⟩
      obtain ⟨j, rfl⟩ : ∃ j, m = j + 1 := ⟨m - 1, by omega⟩
      rw [Function.iterate_succ_apply, Function.iterate_succ_apply]
      exact hrest j (by omega)

/-- A text is written back as its rewritten text. Written back once more that is the same just where everything kept in
    it is spelled the way it is written, and so it is if everything dropped from the text is; and in any case the text
    comes to rest after at most as many rounds as it has misspellings. -/
theorem rewriting_settles {source : Text} {options : Options} (hkinds : ∀ k, k ∈ options.kinds)
    (hblank : options.dropBlank = false) (hlimit : source.length ≤ options.limit)
    (hlimit' : (rewritten source).length ≤ options.limit) :
    ∃ parsed again, parse source options = .ok parsed ∧ css parsed.segments = .ok (rewritten source) ∧
      parse (rewritten source) options = .ok again ∧
      (css again.segments = .ok (rewritten source) ↔
        ∀ o ∈ (findings (rewritten source) options.kinds).kept, o.PlainIn (rewritten source)) ∧
      ((∀ o ∈ (findings source options.kinds).dropped, o.PlainIn source) →
        css again.segments = .ok (rewritten source)) ∧
      ∃ n ≤ misspellings source, ∀ m, n ≤ m → rewritten^[m] source = rewritten^[n] source := by
  obtain ⟨parsed, hparse⟩ := exists_parse hlimit
  obtain ⟨again, hagain⟩ := exists_parse hlimit'
  have hcss := css_of_parse hkinds hblank hagain
  refine ⟨parsed, again, hparse, css_of_parse hkinds hblank hparse, hagain, ?_, ?_, ?_⟩
  · rw [hcss, Except.ok.injEq, rewritten_eq_self_iff, findings_eq_of_forall_mem hkinds]
  · intro hdropped
    rw [findings_eq_of_forall_mem hkinds] at hdropped
    rw [hcss, rewritten_rewritten hdropped]
  · exact exists_iterate_eq (fun _ => misspellings_rewritten_lt) source

/-- A text whose last declaration is covered by a url at first and by none later: it changes twice. -/
theorem rewritten_twice :
    let source := (r":root{a:" ++ "\n" ++ r"url(;q:x) url(;b :c)}").toList
    let once := r":root{--a: url(;--q: x) url(;b :c)}".toList
    let twice := r":root{--a: url(;--q: x) url(;--b: c)}".toList
    ∃ parsed again, parse source {} = .ok parsed ∧ css parsed.segments = .ok once ∧ parse once {} = .ok again ∧
      css again.segments = .ok twice ∧ twice ≠ once := by
  intro source once twice
  have honce : rewritten source = once := by
    unfold rewritten arrange Layout.verdicts
    rw [Layout.sorted_eq_insertionSort]
    decide +kernel
  have htwice : rewritten once = twice := by
    unfold rewritten arrange Layout.verdicts
    rw [Layout.sorted_eq_insertionSort]
    decide +kernel
  obtain ⟨parsed, hparse⟩ := @exists_parse source {} (by decide)
  obtain ⟨again, hagain⟩ := @exists_parse once {} (by decide)
  refine ⟨parsed, again, hparse, ?_, hagain, ?_, by decide +kernel⟩
  · rw [css_of_parse mem_all rfl hparse, honce]
  · rw [css_of_parse mem_all rfl hagain, htwice]

/-- A declaration that is respelled, with a reference dropped inside it, and a reference that is lowered: one round is
    enough. -/
theorem rewriting_settles_root :
    let source := r":root{ a :var(--b)}c{d:VAR(--e)}".toList
    let once := r":root{ --a: var(--b)}c{d:var(--e)}".toList
    rewritten source = once ∧ (∀ o ∈ (findings source Kind.all).dropped, o.PlainIn source) ∧
    (∀ k, k ∈ ({} : Options).kinds) ∧ ({} : Options).dropBlank = false ∧
    (source.length : Int) ≤ ({} : Options).limit ∧ ((rewritten source).length : Int) ≤ ({} : Options).limit ∧
    ∃ parsed again, parse source {} = .ok parsed ∧ css parsed.segments = .ok (rewritten source) ∧
      parse (rewritten source) {} = .ok again ∧
      (css again.segments = .ok (rewritten source) ↔
        ∀ o ∈ (findings (rewritten source) Kind.all).kept, o.PlainIn (rewritten source)) ∧
      ((∀ o ∈ (findings source Kind.all).dropped, o.PlainIn source) → css again.segments = .ok (rewritten source)) ∧
      ∃ n ≤ misspellings source, ∀ m, n ≤ m → rewritten^[m] source = rewritten^[n] source := by
  intro source once
  have honce : rewritten source = once := by
    unfold rewritten arrange Layout.verdicts
    rw [Layout.sorted_eq_insertionSort]
    decide +kernel
  have hdropped : (findings source Kind.all).dropped = [⟨⟨.var, .text ['b'], false⟩, 10, 8⟩] := by
    unfold Findings.dropped Layout.verdicts
    rw [Layout.sorted_eq_insertionSort]
    decide +kernel
  have hplain : ∀ o ∈ (findings source Kind.all).dropped, o.PlainIn source := by
    intro o ho before span after hplaced
    rw [hdropped, List.mem_singleton] at ho
    subst ho
    obtain ⟨-, rfl, -⟩ := hplaced.unique
      (c := r":root{ a :".toList) (n := "var(--b)".toList) (d := r"}c{d:VAR(--e)}".toList)
      ⟨by decide +kernel, by decide +kernel, by decide +kernel⟩
    exact ⟨fun _ => by decide, nofun⟩
  have hlimit : ((rewritten source).length : Int) ≤ ({} : Options).limit := by
    rw [honce]
    decide
  exact ⟨honce, hplain, mem_all, rfl, by decide, hlimit, @rewriting_settles source {} mem_all rfl (by decide) hlimit⟩

end Stylesheet
