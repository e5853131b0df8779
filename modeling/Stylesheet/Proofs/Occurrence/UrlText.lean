/-
  Stylesheet.Proofs.Occurrence.UrlText — where the text of a url starts and ends.

  A url may be readable in several ways: a blank may belong to its lead, to its text or to its trail. The recogniser
  lets the blanks of the lead, the quote and then the text run as far as they can, and gives a blank back to the text
  only where nothing else is left for it. So the characters next to a text show how it was cut:
  - to the right, no character follows that the text could have had (`Stopped`);
  - to the left, it follows a quote, or it starts with no blank, or it is the one blank given back (`Started`), as in
    `url( )` and before a quote that none matches.

  Main statement: `texts_delimited`.
-/

import Stylesheet.Proofs.Findings

namespace Stylesheet.Url

/-- A text follows a quote, or it does not start with a blank, or it is a single blank. -/
def Started (before text : Text) : Prop :=
  (∃ q ∈ before.getLast?, isQuote q = true) ∨ (∃ c ∈ text.head?, Text.isBlank c = false) ∨
    ∃ c, text = [c] ∧ Text.isBlank c = true

/-- A text is followed by a closing parenthesis, a quote or a line end. -/
def Stopped (after : Text) : Prop := ∃ c ∈ after.head?, c = ')' ∨ isQuote c = true ∨ c = '\n'

/-! ## The end of a text -/

/-- The trail of a url starts with a blank only if that is a line end. -/
theorem Form.Spelled.stopped {f : Form} (h : f.Spelled) (rest : Text) : Stopped (f.trail ++ rest) := by
  obtain ⟨c, trail, htrail⟩ := List.exists_cons_of_ne_nil h.trail.ne_nil
  have hnot : isTextChar c = false := h.trail_head c (by rw [htrail]; rfl)
  refine ⟨c, by rw [htrail]; rfl, ?_⟩
  obtain ⟨mark, gap, hsplit, hgap, hmark⟩ := h.trail
  rw [htrail] at hsplit
  rcases hmark with rfl | ⟨q, hq, rfl⟩
  · cases gap with
    | nil => exact Or.inl (List.cons.inj hsplit).1
    | cons d gap =>
      obtain rfl : c = d := (List.cons.inj hsplit).1
      right
      right
      by_contra hline
      rw [isTextChar_of_isBlank (Text.allBlank_iff.mp hgap c List.mem_cons_self) hline] at hnot
      cases hnot
  · obtain rfl : c = q := (List.cons.inj hsplit).1
    exact Or.inr (Or.inl hq)

theorem Stopped.takeWhile_eq {text after : Text} (h : Stopped after) (htext : ∀ c ∈ text, isTextChar c = true) :
    (text ++ after).takeWhile isTextChar = text := by
  obtain ⟨c, hc, hstop⟩ := h
  refine Text.takeWhile_append_of_all (List.all_eq_true.mpr htext) fun d hd => ?_
  obtain rfl : c = d := Option.some.inj (hc.symm.trans hd)
  rcases hstop with rfl | hquote | rfl
  · decide
  · simp [isTextChar, hquote]
  · decide

/-! ## The start of a text -/

theorem exists_mem_of_blank? {lead pad t : Text} {f : Form} (h : blank? lead pad t = some f) :
    ∃ c ∈ pad, f.text = [c] := by
  unfold blank? at h
  dsimp only at h
  split at h
  · cases h
  · rename_i c before hdrop
    obtain ⟨trail, -, rfl⟩ := Option.map_eq_some_iff.mp h
    have hmem : c ∈ pad.reverse.drop (pad.reverse.takeWhile (· == '\n')).length := by simp [hdrop]
    exact ⟨c, List.mem_reverse.mp (List.mem_of_mem_drop hmem), rfl⟩

theorem started_of_inside? {lead t : Text} {f : Form} (h : inside? lead t = some f) : Started f.lead f.text := by
  have hpad := Text.allBlank_takeWhile t
  have hinner := head_drop_takeWhile Text.isBlank t
  unfold inside? at h
  dsimp only at h
  generalize t.takeWhile Text.isBlank = pad at h hpad hinner
  generalize t.drop pad.length = inner at h hinner
  split at h
  · rename_i g hg
    obtain rfl := Option.some.inj h
    obtain ⟨hlead, hne, -, -, -, rest, hrest⟩ := running?_eq_some hg
    rcases isMark_quote inner with hmark | ⟨q, hq, hmark⟩
    · obtain ⟨c, text, htext⟩ := List.exists_cons_of_ne_nil hne
      have hsplit : inner = c :: (text ++ g.trail ++ rest) := by simpa [hmark, htext] using hrest
      exact Or.inr (Or.inl ⟨c, by simp [htext], hinner c (by simp [hsplit])⟩)
    · exact Or.inl ⟨q, by simp [hlead, hmark], hq⟩
  · obtain ⟨c, hc, htext⟩ := exists_mem_of_blank? h
    exact Or.inr (Or.inr ⟨c, htext, Text.allBlank_iff.mp hpad c hc⟩)

theorem started_of_form? {t : Text} {f : Form} (h : form? t = some f) : Started f.lead f.text := by
  unfold form? at h
  split at h
  · cases h
  dsimp only at h
  split at h
  · exact started_of_inside? h
  · cases h

/-- What stands before the lead of a url makes no difference to its text. -/
theorem Started.append {lead text : Text} (h : Started lead text) (before : Text) : Started (before ++ lead) text := by
  refine h.imp_left ?_
  rintro ⟨q, hlast, hq⟩
  exact ⟨q, by rw [List.getLast?_append, Option.mem_def.mp hlast]; rfl, hq⟩

/-! ## Urls in a text -/

/-- What is found of a url is a text that runs as far as it can: after it stands a closing parenthesis, a quote or a
    line end. Before it stands a quote, or it starts with no blank, or it is a single blank. -/
theorem texts_delimited (source : Text) (kinds : List Kind) {o : Occurrence}
    (ho : o ∈ (findings source kinds).occurrences) (hkind : o.part.kind = .url) :
    ∃ before text after, o.Placed source before text after ∧ o.part = ⟨.url, .text text, false⟩ ∧
      Stopped after ∧ (text ++ after).takeWhile isTextChar = text ∧ Started before text := by
  have hfound := mem_occurrences_of_mem_findings ho
  rw [hkind] at hfound
  obtain ⟨s, hs, rfl⟩ := List.mem_map.mp hfound
  obtain ⟨before, after, rfl, hspelled, hform, hword, -⟩ := exists_of_mem_sites hs
  have hstopped := hspelled.stopped after
  refine ⟨before ++ s.form.lead, s.form.text, s.form.trail ++ after, ⟨?_, ?_, rfl⟩, rfl, hstopped,
    hstopped.takeWhile_eq hspelled.text_char, (started_of_form? hform).append before⟩
  · simp [Form.spelling]
  · simp [Site.occurrence, hword]

/-- A text that starts with a blank after a quote, one that a line end stops, and a blank given back: the quote after it
    has none to match. -/
theorem texts_delimited_blanks :
    let source := ":url(' a'):url(b\n):url( ')".toList
    let quoted : Occurrence := ⟨⟨.url, .text " a".toList, false⟩, 6, 2⟩
    let line : Occurrence := ⟨⟨.url, .text "b".toList, false⟩, 15, 1⟩
    let blank : Occurrence := ⟨⟨.url, .text " ".toList, false⟩, 23, 1⟩
    (findings source Kind.all).occurrences = [quoted, line, blank] ∧
      ∀ o ∈ [quoted, line, blank], o.part.kind = .url ∧ ∃ before text after,
        o.Placed source before text after ∧ o.part = ⟨.url, .text text, false⟩ ∧
          Stopped after ∧ (text ++ after).takeWhile isTextChar = text ∧ Started before text := by
  intro source quoted line blank
  have hfound : (findings source Kind.all).occurrences = [quoted, line, blank] := by decide +kernel
  have hkind : ∀ o ∈ [quoted, line, blank], o.part.kind = .url := by decide
  refine ⟨hfound, fun o ho => ⟨hkind o ho, ?_⟩⟩
  exact texts_delimited source Kind.all (by rw [hfound]; exact ho) (hkind o ho)

end Stylesheet.Url
