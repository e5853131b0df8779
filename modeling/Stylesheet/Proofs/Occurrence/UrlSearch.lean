/-
  Stylesheet.Proofs.Occurrence.UrlSearch — all urls that follow a colon.

  A url may be read in several ways: its blanks and its quotes can belong to its lead, to its text or to its trail. The
  recogniser gives blanks back where it has to, so that it reads a url wherever one can be read (`exists_form?`). The
  pass is armed by the last colon on the line, and it passes over what it has read: from every colon after which a url
  can be read it comes to a url, unless the colon is in one already (`exists_mem_scan`).

  Main statement: `sites_exact` — each url found runs from its colon to its end without overlap, is spelled as one, and
  gives its text; and every colon from which a url can be read is in one that is found.
-/

import Stylesheet.Proofs.Findings
import Stylesheet.Proofs.Occurrence.Retargeting

namespace Stylesheet.Url

/-- A colon, and on the same line and without another colon before it a url, cut in some way. The text of the url may
    start with blanks, and its trail too. -/
structure Spans (source before gap : Text) (f : Form) (after : Text) : Prop where
  source_eq : source = before ++ ':' :: gap ++ f.spelling ++ after
  colon : ':' ∉ gap
  line : '\n' ∉ gap
  lead : IsLead f.lead
  text_ne : f.text ≠ []
  text_char : ∀ c ∈ f.text, isTextChar c = true
  trail : IsTrail f.trail

/-! ## Wherever a url can be read, one is read -/

section

variable {lead pad t trail rest : Text}

/-- The text that runs as far as it can takes the blanks of the trail that it may have. -/
theorem exists_running? (hne : t ≠ []) (hchar : ∀ c ∈ t, isTextChar c = true) (htrail : IsTrail trail)
    (lead rest : Text) : ∃ f, running? lead (t ++ (trail ++ rest)) = some f := by
  obtain ⟨mark, gap, rfl, hgap, hmark⟩ := htrail
  rcases hmark with rfl | ⟨q, hq, rfl⟩
  · have hsplit := takeWhile_append_drop isTextChar gap
    have hhead := head_drop_takeWhile isTextChar gap
    have htaken : ∀ c ∈ gap.takeWhile isTextChar, isTextChar c = true :=
      List.all_eq_true.mp (List.all_takeWhile (p := isTextChar))
    generalize gap.takeWhile isTextChar = taken at hsplit hhead htaken
    generalize gap.drop taken.length = gap' at hsplit hhead
    subst hsplit
    rw [Text.allBlank_append, Bool.and_eq_true] at hgap
    refine ⟨⟨lead, t ++ taken, gap' ++ [')']⟩, ?_⟩
    have htrail : IsTrail (gap' ++ [')']) := ⟨[], gap', rfl, hgap.2, Or.inl rfl⟩
    have hread : running? lead (t ++ taken ++ (gap' ++ [')'] ++ rest)) = some ⟨lead, t ++ taken, gap' ++ [')']⟩ := by
      refine running?_append (by simp [hne]) (fun c hc => ?_) htrail (fun c hc => ?_) rest
      · exact (List.mem_append.mp hc).elim (hchar c) (htaken c)
      · rcases Text.mem_head?_append hc with hc | hc
        · exact hhead c hc
        · obtain rfl := Option.some.inj hc
          decide
    simpa using hread
  · refine ⟨_, running?_append hne hchar ⟨[q], gap, rfl, hgap, Or.inr ⟨q, hq, rfl⟩⟩ ?_ rest⟩
    intro c hc
    obtain rfl := Option.some.inj hc
    simp [isTextChar, hq]

theorem exists_blank? {before ends : Text} {c : Char} (hc : c ≠ '\n') (hends : ∀ d ∈ ends, d = '\n')
    (htrail : IsTrail trail) (ht : ends ++ t = trail ++ rest) (lead : Text) :
    ∃ f, blank? lead (before ++ [c] ++ ends) t = some f := by
  have halike : ends.reverse = ends := by
    rw [List.eq_replicate_of_mem hends, List.reverse_replicate]
  have hreverse : (before ++ [c] ++ ends).reverse = ends ++ (c :: before.reverse) := by
    simp [halike]
  have htake : (ends ++ (c :: before.reverse)).takeWhile (· == '\n') = ends :=
    Text.takeWhile_append_of_all (List.all_eq_true.mpr fun d hd => by simpa using hends d hd) (by simpa using hc)
  unfold blank?
  rw [hreverse, htake]
  dsimp only
  rw [List.drop_left, ht, trail?_append htrail]
  exact ⟨_, rfl⟩

/-- After the blanks, a url is read with the text that runs as far as it can, or else with a blank for its text. -/
theorem exists_inside? (hpad : Text.allBlank pad = true) (hhead : ∀ c ∈ t.head?, Text.isBlank c = false)
    (h : (∃ f, running? (lead ++ pad ++ quote t) (t.drop (quote t).length) = some f) ∨
      ∃ f, blank? lead pad t = some f) :
    ∃ f, inside? lead (pad ++ t) = some f := by
  have htake : (pad ++ t).takeWhile Text.isBlank = pad := Text.takeWhile_append_of_all hpad hhead
  unfold inside?
  rw [htake]
  dsimp only
  rw [List.drop_left]
  split
  · exact ⟨_, rfl⟩
  · rename_i hnone
    rcases h with ⟨f, hf⟩ | h
    · rw [hnone] at hf
      cases hf
    · exact h

/-- The last character of a text that is no line end. -/
theorem exists_before_ends {t : Text} (h : ∃ c ∈ t, c ≠ '\n') :
    ∃ before c ends, t = before ++ [c] ++ ends ∧ c ≠ '\n' ∧ ∀ d ∈ ends, d = '\n' := by
  induction t using List.reverseRecOn with
  | nil =>
    obtain ⟨c, hc, -⟩ := h
    cases hc
  | append_singleton t d ih =>
    by_cases hd : d = '\n'
    · obtain ⟨c, hc, hne⟩ := h
      have hc : c ∈ t := by
        rcases List.mem_append.mp hc with hc | hc
        · exact hc
        · exact absurd ((List.mem_singleton.mp hc).trans hd) hne
      obtain ⟨before, c, ends, rfl, hne, hends⟩ := ih ⟨c, hc, hne⟩
      refine ⟨before, c, ends ++ [d], by simp, hne, fun e he => ?_⟩
      rcases List.mem_append.mp he with he | he
      · exact hends e he
      · exact (List.mem_singleton.mp he).trans hd
    · exact ⟨t, d, [], by simp, hd, nofun⟩

theorem isBlank_eq_false_of_isQuote {c : Char} (h : isQuote c = true) : Text.isBlank c = false := by
  by_contra hblank
  rw [isQuote_eq_false_of_isBlank (by simpa using hblank)] at h
  cases h

theorem ne_of_isTextChar {c : Char} (h : isTextChar c = true) : c ≠ '\n' := by
  rintro rfl
  exact absurd h (by decide)

/-- A text of blanks, before the quote or the parenthesis that ends it. -/
theorem exists_inside?_blank (hpad : Text.allBlank pad = true) (hne : t ≠ []) (hchar : ∀ c ∈ t, isTextChar c = true)
    (hblank : Text.allBlank t = true) (htrail : IsTrail trail) (lead rest : Text) :
    ∃ f, inside? lead (pad ++ (t ++ (trail ++ rest))) = some f := by
  obtain ⟨mark, gap, rfl, hgap, hmark⟩ := htrail
  rcases hmark with rfl | ⟨q, hq, rfl⟩
  · obtain ⟨d, t', rfl⟩ := List.exists_cons_of_ne_nil hne
    obtain ⟨before, c, ends, hall, hc, hends⟩ := @exists_before_ends (pad ++ (d :: t') ++ gap)
      ⟨d, by simp, ne_of_isTextChar (hchar d List.mem_cons_self)⟩
    have hends' : Text.allBlank ends = true := by
      refine Text.allBlank_iff.mpr fun d hd => ?_
      rw [hends d hd]
      decide
    have htrail : IsTrail (ends ++ [')']) := ⟨[], ends, rfl, hends', Or.inl rfl⟩
    have htext : ∃ f, blank? lead (before ++ [c] ++ ends) (')' :: rest) = some f :=
      exists_blank? hc hends htrail (List.append_cons ends ')' rest) lead
    rw [← hall] at htext
    have hinside : ∃ f, inside? lead (pad ++ (d :: t') ++ gap ++ ')' :: rest) = some f :=
      exists_inside? (by rw [Text.allBlank_append, Text.allBlank_append, hpad, hblank, hgap]; rfl) (by simp; decide)
        (Or.inr htext)
    simpa using hinside
  · obtain ⟨before, c, rfl⟩ := (List.eq_nil_or_concat' t).resolve_left hne
    have hc := ne_of_isTextChar (hchar c (by simp))
    have htrail : IsTrail ([q] ++ gap ++ [')']) := ⟨[q], gap, rfl, hgap, Or.inr ⟨q, hq, rfl⟩⟩
    have htext : ∃ f, blank? lead (pad ++ before ++ [c] ++ []) ([q] ++ gap ++ [')'] ++ rest) = some f :=
      exists_blank? hc (List.forall_mem_nil _) htrail rfl lead
    have hinside : ∃ f, inside? lead (pad ++ before ++ [c] ++ [] ++ ([q] ++ gap ++ [')'] ++ rest)) = some f :=
      exists_inside? (by simpa [hpad] using hblank) (by simpa using isBlank_eq_false_of_isQuote hq) (Or.inr htext)
    simpa using hinside

/-- A url is read wherever one can be read. -/
theorem exists_form? (hlead : IsLead lead) (hne : t ≠ []) (hchar : ∀ c ∈ t, isTextChar c = true)
    (htrail : IsTrail trail) (rest : Text) : ∃ f, form? (lead ++ (t ++ (trail ++ rest))) = some f := by
  obtain ⟨word, gap, pad, mark, rfl, hword, hgap, hpad, hmark⟩ := hlead
  have hsource : word ++ gap ++ '(' :: (pad ++ mark) ++ (t ++ (trail ++ rest)) =
      word ++ gap ++ '(' :: (pad ++ (mark ++ (t ++ (trail ++ rest)))) := by simp
  rw [hsource, form?_of_isHead ⟨word, gap, rfl, hword, hgap⟩]
  rcases hmark with rfl | ⟨q, hq, rfl⟩
  · have hsplit := takeWhile_append_drop Text.isBlank t
    have hhead := head_drop_takeWhile Text.isBlank t
    have hblank := Text.allBlank_takeWhile t
    generalize t.takeWhile Text.isBlank = blanks at hsplit hhead hblank
    generalize t.drop blanks.length = u at hsplit hhead
    subst hsplit
    cases u with
    | nil =>
      rw [List.append_nil] at hne hchar ⊢
      exact exists_inside?_blank hpad hne hchar hblank htrail _ rest
    | cons c u =>
      have hc : isQuote c = false := isQuote_eq_false_of_isTextChar (hchar c (by simp))
      have hquote : quote (c :: u ++ (trail ++ rest)) = [] := by simp [quote, hc]
      have hinside : ∃ f, inside? (word ++ gap ++ ['(']) (pad ++ blanks ++ (c :: u ++ (trail ++ rest))) = some f := by
        refine exists_inside? (by simp [hpad, hblank]) (by simpa using hhead) (Or.inl ?_)
        rw [hquote]
        exact exists_running? (by simp) (fun d hd => hchar d (List.mem_append_right _ hd)) htrail _ rest
      simpa using hinside
  · have hhead : Text.isBlank q = false := by
      by_contra h
      rw [isQuote_eq_false_of_isBlank (by simpa using h)] at hq
      cases hq
    have hquote : quote ([q] ++ (t ++ (trail ++ rest))) = [q] := by simp [quote, hq]
    refine exists_inside? hpad (by simpa using isBlank_eq_false_of_isQuote hq) (Or.inl ?_)
    rw [hquote]
    exact exists_running? hne hchar htrail _ rest

end

/-! ## The pass -/

theorem form?_eq_none_of_toLower {c : Char} (h : c.toLower ≠ 'u') (t : Text) : form? (c :: t) = none := by
  unfold form?
  rw [Text.afterWord?, if_neg h]

section

variable {gap t : Text}

/-- From an armed pass, a url is found if one can be read after characters that keep it armed. -/
theorem exists_mem_scan_of_armed (hcolon : ':' ∉ gap) (hline : '\n' ∉ gap) (hform : ∃ f, form? t = some f)
    (offset i : Nat) : ∃ s ∈ scan step ⟨offset, some i, 0⟩ (gap ++ t), s.colon = i ∧ offset ≤ s.word := by
  induction gap generalizing offset with
  | nil =>
    obtain ⟨f, hf⟩ := hform
    cases t with
    | nil => cases hf
    | cons c t =>
      refine ⟨⟨i, offset, f⟩, ?_, rfl, Nat.le_refl _⟩
      rw [List.nil_append, scan_cons]
      exact List.mem_append_left _ (mem_step.mpr ⟨rfl, i, f, rfl, hf, rfl⟩)
  | cons c gap ih =>
    rw [List.mem_cons, not_or] at hcolon hline
    rw [List.cons_append, scan_cons]
    rcases step_cases offset (some i) 0 c (gap ++ t) with ⟨_, hskip, -⟩ | ⟨j, f, -, hi, -, hstep⟩ | ⟨-, -, hstep⟩
    · cases hskip
    · obtain rfl := Option.some.inj hi
      rw [hstep]
      exact ⟨_, List.mem_append_left _ (List.mem_singleton_self _), rfl, Nat.le_refl _⟩
    · obtain ⟨s, hs, hsi, hle⟩ := ih hcolon.2 hline.2 (offset + 1)
      have harm : arm offset (some i) c = some i :=
        mem_arm_iff.mpr (Or.inr ⟨Ne.symm hcolon.1, Ne.symm hline.1, rfl⟩)
      rw [hstep, harm]
      exact ⟨s, hs, hsi, by omega⟩

/-- From every colon after which a url can be read, the pass comes to a url that has the colon in it, unless it is
    passing over the colon already. -/
theorem exists_mem_scan (hcolon : ':' ∉ gap) (hline : '\n' ∉ gap) (hform : ∃ f, form? t = some f) (before : Text) :
    ∀ offset (colon : Option Nat) skip, (∀ i ∈ colon, i ≤ offset) → before.length < skip ∨
      ∃ s ∈ scan step ⟨offset, colon, skip⟩ (before ++ ':' :: gap ++ t), s.colon ≤ offset + before.length ∧
        offset + before.length < s.stop := by
  induction before with
  | nil =>
    intro offset colon skip _
    rw [List.nil_append, List.cons_append, scan_cons, List.length_nil]
    rcases step_cases offset colon skip ':' (gap ++ t) with ⟨k, hk, -⟩ | ⟨_, f, -, -, hf, -⟩ | ⟨-, -, hstep⟩
    · exact Or.inl (by omega)
    · rw [form?_eq_none_of_toLower (by decide)] at hf
      cases hf
    · obtain ⟨s, hs, hsi, hle⟩ := exists_mem_scan_of_armed hcolon hline hform (offset + 1) offset
      rw [hstep]
      refine Or.inr ⟨s, hs, hsi.le, ?_⟩
      rw [Site.stop]
      omega
  | cons c before ih =>
    intro offset colon skip hbefore
    rw [List.cons_append, List.cons_append, scan_cons, List.length_cons]
    rcases step_cases offset colon skip c (before ++ ':' :: gap ++ t) with
      ⟨k, hk, hstep⟩ | ⟨i, f, -, hi, -, hstep⟩ | ⟨-, -, hstep⟩
    · rw [hstep]
      rcases ih (offset + 1) none k (by simp) with h | ⟨s, hs, h1, h2⟩
      · exact Or.inl (by omega)
      · exact Or.inr ⟨s, hs, by omega, by omega⟩
    · have hle := hbefore i hi
      rw [hstep]
      rcases ih (offset + 1) none (f.spelling.length - 1) (by simp) with h | ⟨s, hs, h1, h2⟩
      · refine Or.inr ⟨⟨i, offset, f⟩, List.mem_append_left _ (List.mem_singleton_self _), ?_, ?_⟩
        · dsimp only
          omega
        · rw [Site.stop]
          dsimp only
          omega
      · exact Or.inr ⟨s, List.mem_append_right _ hs, by omega, by omega⟩
    · have hnext : ∀ i ∈ arm offset colon c, i ≤ offset + 1 := by
        intro i hi
        rcases mem_arm_iff.mp hi with ⟨-, rfl⟩ | ⟨-, -, hi⟩
        · omega
        · have := hbefore i hi
          omega
      rw [hstep]
      rcases ih (offset + 1) _ 0 hnext with h | ⟨s, hs, h1, h2⟩
      · exact absurd h (Nat.not_lt_zero _)
      · exact Or.inr ⟨s, hs, by omega, by omega⟩

end

theorem spans_of_mem_sites {source : Text} {s : Site} (h : s ∈ sites source) : ∃ before gap after,
    Spans source before gap s.form after ∧ s.colon = before.length ∧ s.word = (before ++ ':' :: gap).length := by
  obtain ⟨before, gap, after, hsource, hspelled, hcolon, hword, hgap, hline⟩ := exists_gap_of_mem_sites h
  exact ⟨before, gap, after, ⟨hsource, hgap, hline, hspelled.lead, hspelled.text_ne, hspelled.text_char,
    hspelled.trail⟩, hcolon, hword⟩

/-- The urls of a text, each from its colon to its end: they come one after the other without overlap, each is spelled
    as a url after a colon of its line, and what is found of it is its text in its place. No url is missed: a colon from
    which a url can be read, in whatever way it is cut, is in one that is found. -/
theorem sites_exact (source : Text) :
    (findings source Kind.all).occurrences.filter (·.part.kind = .url) = (sites source).map Site.occurrence ∧
    (sites source).Pairwise (fun a b => a.stop ≤ b.colon) ∧
    (∀ s ∈ sites source, ∃ before gap after, Spans source before gap s.form after ∧
      s.colon = before.length ∧ s.stop = (before ++ ':' :: gap ++ s.form.spelling).length ∧
      s.occurrence.Placed source (before ++ ':' :: gap ++ s.form.lead) s.form.text (s.form.trail ++ after) ∧
      s.occurrence.part = ⟨.url, .text s.form.text, false⟩) ∧
    ∀ before gap f after, Spans source before gap f after →
      ∃ s ∈ sites source, s.colon ≤ before.length ∧ before.length < s.stop := by
  refine ⟨filter_findings (by decide) source, pairwise_spans source, fun s hs => ?_,
    fun before gap f after hspans => ?_⟩
  · obtain ⟨before, gap, after, hspans, hcolon, hword⟩ := spans_of_mem_sites hs
    refine ⟨before, gap, after, hspans, hcolon, ?_, ⟨?_, ?_, rfl⟩, rfl⟩
    · rw [Site.stop, hword, ← List.length_append]
    · rw [hspans.source_eq, Form.spelling]
      simp
    · rw [Site.occurrence, hword, ← List.length_append]
  · have hform := exists_form? hspans.lead hspans.text_ne hspans.text_char hspans.trail after
    rcases exists_mem_scan hspans.colon hspans.line hform before 0 none 0 (by simp) with h | ⟨s, hs, h⟩
    · exact absurd h (Nat.not_lt_zero _)
    · have hsource : source = before ++ ':' :: gap ++ (f.lead ++ (f.text ++ (f.trail ++ after))) := by
        rw [hspans.source_eq, Form.spelling]
        simp
      rw [← hsource] at hs
      exact ⟨s, hs, by simpa using h⟩

end Stylesheet.Url
