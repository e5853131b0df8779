/-
  Stylesheet.Proofs.Occurrence.Url — urls, and what stands around their texts.

  What the recogniser finds is spelled as a url (`exists_of_mem_occurrences`): a lead that ends in the parenthesis,
  blanks and a quote or none, a text that is not empty, and a trail that starts with a quote, a blank or the closing
  parenthesis. A step of the pass skips, finds a url or goes on to look for one (`step_cases`): a colon that arms it
  stands before it on its line (`Armed`) and after the urls found so far (`Past`), so that urls do not overlap, not even
  from their colons on (`pairwise_spans`). No reference can stand across a url's text or in it (`apart_of_reference`).
-/

import Stylesheet.Occurrence.Url
import Stylesheet.Proofs.Occurrence.Variable

namespace Stylesheet.Url

/-! ## The parts of a url -/

def IsMark (t : Text) : Prop := t = [] ∨ ∃ q, isQuote q = true ∧ t = [q]

def IsLead (t : Text) : Prop :=
  ∃ word gap pad mark, t = word ++ gap ++ '(' :: (pad ++ mark) ∧ Text.lower word = ['u', 'r', 'l'] ∧
    Text.allBlank gap = true ∧ Text.allBlank pad = true ∧ IsMark mark

def IsTrail (t : Text) : Prop := ∃ mark gap, t = mark ++ gap ++ [')'] ∧ Text.allBlank gap = true ∧ IsMark mark

structure Form.Spelled (f : Form) : Prop where
  lead : IsLead f.lead
  text_ne : f.text ≠ []
  text_char : ∀ c ∈ f.text, isTextChar c = true
  trail : IsTrail f.trail
  trail_head : ∀ c ∈ f.trail.head?, isTextChar c = false

theorem isMark_quote (t : Text) : IsMark (quote t) := by
  cases t with
  | nil => exact Or.inl rfl
  | cons c t =>
    by_cases h : isQuote c = true
    · exact Or.inr ⟨c, h, by simp [quote, h]⟩
    · exact Or.inl (by simp [quote, h])

theorem quote_append_drop (t : Text) : quote t ++ t.drop (quote t).length = t := by
  cases t with
  | nil => rfl
  | cons c t =>
    by_cases h : isQuote c = true
    · simp [quote, h]
    · simp [quote, h]

theorem takeWhile_append_drop (p : Char → Bool) (t : Text) : t.takeWhile p ++ t.drop (t.takeWhile p).length = t :=
  (List.prefix_append_drop (List.takeWhile_prefix p)).symm

theorem head_drop_takeWhile (p : Char → Bool) (t : Text) :
    ∀ c ∈ (t.drop (t.takeWhile p).length).head?, p c = false := by
  intro c hc
  have hdrop : t.drop (t.takeWhile p).length = t.dropWhile p :=
    List.append_cancel_left ((takeWhile_append_drop p t).trans List.takeWhile_append_dropWhile.symm)
  have := List.head?_dropWhile_not p t
  rwa [← hdrop, Option.mem_def.mp hc] at this

/-! ## The recogniser of one url -/

theorem trail?_eq_some {t trail : Text} (h : trail? t = some trail) : IsTrail trail ∧ ∃ rest, t = trail ++ rest := by
  unfold trail? at h
  dsimp only at h
  split at h
  · rename_i rest hrest
    obtain rfl := Option.some.inj h
    refine ⟨⟨_, _, rfl, Text.allBlank_takeWhile _, isMark_quote t⟩, rest, ?_⟩
    rw [← List.drop_drop] at hrest
    conv_lhs =>
      rw [← quote_append_drop t, ← takeWhile_append_drop Text.isBlank (t.drop (quote t).length), hrest]
    simp
  · cases h

theorem IsTrail.ne_nil {t : Text} (h : IsTrail t) : t ≠ [] := by
  obtain ⟨mark, gap, rfl, -, -⟩ := h
  simp

/-- A trail starts with a blank or a character that no text has. -/
theorem IsTrail.head {t : Text} (h : IsTrail t) : ∀ c ∈ t.head?, Text.isBlank c = true ∨ isTextChar c = false := by
  obtain ⟨mark, gap, rfl, hgap, hmark⟩ := h
  intro c hc
  rcases hmark with rfl | ⟨q, hq, rfl⟩
  · cases gap with
    | nil =>
      obtain rfl := Option.some.inj hc
      exact Or.inr (by decide)
    | cons d gap =>
      obtain rfl := Option.some.inj hc
      exact Or.inl (Text.allBlank_iff.mp hgap d List.mem_cons_self)
  · obtain rfl := Option.some.inj hc
    exact Or.inr (by simp [isTextChar, hq])

theorem head?_of_append {trail rest : Text} (h : IsTrail trail) : (trail ++ rest).head? = trail.head? := by
  obtain ⟨c, trail, rfl⟩ := List.exists_cons_of_ne_nil h.ne_nil
  rfl

theorem running?_eq_some {lead t : Text} {f : Form} (h : running? lead t = some f) :
    f.lead = lead ∧ f.text ≠ [] ∧ (∀ c ∈ f.text, isTextChar c = true) ∧ IsTrail f.trail ∧
      (∀ c ∈ f.trail.head?, isTextChar c = false) ∧ ∃ rest, t = f.text ++ f.trail ++ rest := by
  unfold running? at h
  dsimp only at h
  split at h
  · cases h
  · rename_i hne
    obtain ⟨trail, htrail, rfl⟩ := Option.map_eq_some_iff.mp h
    obtain ⟨his, rest, hrest⟩ := trail?_eq_some htrail
    refine ⟨rfl, by simpa using hne, fun c hc => ?_, his, ?_, rest, ?_⟩
    · exact List.all_eq_true.mp (List.all_takeWhile (p := isTextChar)) c hc
    · rw [← head?_of_append his, ← hrest]
      exact head_drop_takeWhile isTextChar t
    · rw [List.append_assoc, ← hrest]
      exact (takeWhile_append_drop isTextChar t).symm

theorem isTextChar_of_isBlank {c : Char} (h : Text.isBlank c = true) (hn : c ≠ '\n') : isTextChar c = true := by
  have hne : ∀ d : Char, Text.isBlank d = false → c ≠ d := by
    rintro d hd rfl
    rw [h] at hd
    cases hd
  simp [isTextChar, isQuote, hn, hne '(' (by decide), hne ')' (by decide), hne '\'' (by decide), hne '"' (by decide)]

/-- The text is one blank of the pad, and only line ends follow it there. -/
theorem blank?_eq_some {lead pad t : Text} {f : Form} (hpad : Text.allBlank pad = true)
    (ht : ∀ c ∈ t.head?, Text.isBlank c = false) (h : blank? lead pad t = some f) :
    ∃ before c, f.lead = lead ++ before ∧ f.text = [c] ∧ Text.allBlank before = true ∧ isTextChar c = true ∧
      IsTrail f.trail ∧ (∀ c ∈ f.trail.head?, isTextChar c = false) ∧
      ∃ rest, pad ++ t = before ++ [c] ++ f.trail ++ rest := by
  unfold blank? at h
  dsimp only at h
  split at h
  · cases h
  · rename_i c before hdrop
    obtain ⟨trail, htrail, rfl⟩ := Option.map_eq_some_iff.mp h
    obtain ⟨his, rest, hrest⟩ := trail?_eq_some htrail
    have hpad' := takeWhile_append_drop (· == '\n') pad.reverse
    rw [hdrop] at hpad'
    generalize hends : pad.reverse.takeWhile (· == '\n') = ends at hpad' hrest
    have hall : ∀ d ∈ ends, d = '\n' := by
      intro d hd
      rw [← hends] at hd
      simpa using List.all_eq_true.mp (List.all_takeWhile (p := (· == '\n'))) d hd
    have halike : ends.reverse = ends := by
      rw [List.eq_replicate_of_mem hall, List.reverse_replicate]
    have hpadeq : pad = before.reverse ++ [c] ++ ends := by
      rw [← List.reverse_reverse pad, ← hpad']
      simp [halike]
    have hblank : ∀ d ∈ pad, Text.isBlank d = true := Text.allBlank_iff.mp hpad
    have hc : c ≠ '\n' := by
      have := List.head?_dropWhile_not (· == '\n') pad.reverse
      rw [show pad.reverse.dropWhile (· == '\n') = c :: before from ?_] at this
      · simpa using this
      · apply (List.append_right_inj ends).mp
        rw [← hends, List.takeWhile_append_dropWhile, hends, hpad']
    refine ⟨before.reverse, c, rfl, rfl, ?_, isTextChar_of_isBlank (hblank c (by simp [hpadeq])) hc, his, ?_, rest, ?_⟩
    · exact Text.allBlank_iff.mpr fun d hd => hblank d (by simp [hpadeq, List.mem_reverse.mp hd])
    · intro d hd
      rcases his.head d hd with hd' | hd'
      · rw [← head?_of_append his, ← hrest] at hd
        rcases Text.mem_head?_append hd with hd | hd
        · rw [hall d (List.mem_of_head? hd)]
          decide
        · rw [ht d hd] at hd'
          cases hd'
      · exact hd'
    · rw [hpadeq, List.append_assoc, hrest]
      simp

theorem inside?_eq_some {lead t : Text} {f : Form} (h : inside? lead t = some f) :
    ∃ pad mark, f.lead = lead ++ pad ++ mark ∧ Text.allBlank pad = true ∧ IsMark mark ∧ f.text ≠ [] ∧
      (∀ c ∈ f.text, isTextChar c = true) ∧ IsTrail f.trail ∧ (∀ c ∈ f.trail.head?, isTextChar c = false) ∧
      ∃ rest, t = pad ++ mark ++ f.text ++ f.trail ++ rest := by
  have hpad := Text.allBlank_takeWhile t
  have ht := takeWhile_append_drop Text.isBlank t
  have hinner := head_drop_takeWhile Text.isBlank t
  unfold inside? at h
  dsimp only at h
  generalize t.takeWhile Text.isBlank = pad at h hpad ht hinner
  generalize t.drop pad.length = inner at h ht hinner
  subst ht
  split at h
  · rename_i g hg
    obtain rfl := Option.some.inj h
    obtain ⟨hlead, hne, hchar, htrail, hhead, rest, hrest⟩ := running?_eq_some hg
    refine ⟨pad, quote inner, hlead, hpad, isMark_quote inner, hne, hchar, htrail, hhead, rest, ?_⟩
    conv_lhs => rw [← quote_append_drop inner, hrest]
    simp
  · obtain ⟨before, c, hlead, htext, hbefore, hc, htrail, hhead, rest, hrest⟩ := blank?_eq_some hpad hinner h
    exact ⟨before, [], by simp [hlead], hbefore, Or.inl rfl, by simp [htext], by simp [htext, hc], htrail, hhead, rest,
      by simp [hrest, htext]⟩

theorem form?_eq_some {t : Text} {f : Form} (h : form? t = some f) : f.Spelled ∧ ∃ rest, t = f.spelling ++ rest := by
  unfold form? at h
  split at h
  · cases h
  rename_i rest hrest
  obtain ⟨word, rfl, hword⟩ := Text.afterWord?_eq_some_iff.mp hrest
  have hlen : word.length = 3 := by rw [← Text.length_lower, hword]; rfl
  dsimp only at h
  split at h
  · rename_i inner hinner
    obtain ⟨pad, mark, hlead, hpad, hmark, hne, hchar, htrail, hhead, tail, rfl⟩ := inside?_eq_some h
    have hgap := takeWhile_append_drop Text.isBlank rest
    rw [hinner] at hgap
    have htake : (word ++ rest).take 3 = word := by rw [← hlen, List.take_left]
    rw [htake] at hlead
    refine ⟨⟨⟨word, rest.takeWhile Text.isBlank, pad, mark, by simp [hlead], hword, Text.allBlank_takeWhile rest, hpad,
      hmark⟩, hne, hchar, htrail, hhead⟩, tail, ?_⟩
    conv_lhs => rw [← hgap]
    simp [Form.spelling, hlead]
  · cases h

/-! ## Urls in a text -/

section

variable {offset skip : Nat} {colon : Option Nat} {c : Char}

def arm (offset : Nat) (colon : Option Nat) (c : Char) : Option Nat :=
  if c = ':' then some offset else if c = '\n' then none else colon

theorem mem_arm_iff {i : Nat} :
    i ∈ arm offset colon c ↔ c = ':' ∧ i = offset ∨ c ≠ ':' ∧ c ≠ '\n' ∧ i ∈ colon := by
  unfold arm
  split
  · simp [*, eq_comm]
  · split <;> simp [*]

/-- A step passes over a character of the url before it, or it finds a url and passes over it from there on, or it goes
    on to look for one. -/
theorem step_cases (offset : Nat) (colon : Option Nat) (skip : Nat) (c : Char) (rest : Text) :
    (∃ k, skip = k + 1 ∧ step ⟨offset, colon, skip⟩ c rest = (⟨offset + 1, none, k⟩, [])) ∨
    (∃ i f, skip = 0 ∧ colon = some i ∧ form? (c :: rest) = some f ∧
      step ⟨offset, colon, skip⟩ c rest = (⟨offset + 1, none, f.spelling.length - 1⟩, [⟨i, offset, f⟩])) ∨
    (skip = 0 ∧ (colon = none ∨ form? (c :: rest) = none) ∧
      step ⟨offset, colon, skip⟩ c rest = (⟨offset + 1, arm offset colon c, 0⟩, [])) := by
  cases skip with
  | succ k => exact Or.inl ⟨k, rfl, rfl⟩
  | zero =>
    right
    cases colon with
    | none => exact Or.inr ⟨rfl, Or.inl rfl, rfl⟩
    | some i =>
      cases hf : form? (c :: rest) with
      | none => exact Or.inr ⟨rfl, Or.inr rfl, by simp [step, Reading.site?, hf, arm]⟩
      | some f => exact Or.inl ⟨i, f, rfl, rfl, rfl, by simp [step, Reading.site?, hf]⟩

end

/-- A step finds a url only where none is being passed over, and where a colon arms it. -/
theorem mem_step {r : Reading} {c : Char} {rest : Text} {s : Site} :
    s ∈ (step r c rest).2 ↔ r.skip = 0 ∧ ∃ colon form, r.colon = some colon ∧ form? (c :: rest) = some form ∧
      s = ⟨colon, r.offset, form⟩ := by
  unfold step
  split
  · rename_i n hskip
    simp [hskip]
  · rename_i hskip
    unfold Reading.site?
    cases r.colon with
    | none => simp
    | some colon =>
      cases form? (c :: rest) with
      | none => simp
      | some form => simp [hskip]

/-- The pass stands after what it has read, and a colon that arms it is the last one there, on the last line. -/
def Armed (read : Text) (r : Reading) : Prop :=
  r.offset = read.length ∧
    ∀ i ∈ r.colon, ∃ before gap, read = before ++ ':' :: gap ∧ i = before.length ∧ ':' ∉ gap ∧ '\n' ∉ gap

theorem Armed.next {read : Text} {r : Reading} (h : Armed read r) (c : Char) (rest : Text) :
    Armed (read ++ [c]) (step r c rest).1 := by
  obtain ⟨offset, colon, skip⟩ := r
  obtain ⟨hoffset, hcolon⟩ := h
  dsimp only at hoffset hcolon
  rcases step_cases offset colon skip c rest with ⟨k, -, hstep⟩ | ⟨_, f, -, -, -, hstep⟩ | ⟨-, -, hstep⟩
  · rw [hstep]
    exact ⟨by simp [hoffset], nofun⟩
  · rw [hstep]
    exact ⟨by simp [hoffset], nofun⟩
  · rw [hstep]
    refine ⟨by simp [hoffset], fun i hi => ?_⟩
    rcases mem_arm_iff.mp hi with ⟨rfl, rfl⟩ | ⟨hc, hn, hi⟩
    · exact ⟨read, [], rfl, hoffset, by simp, by simp⟩
    · obtain ⟨before, gap, rfl, rfl, hg, hl⟩ := hcolon i hi
      exact ⟨before, gap ++ [c], by simp, rfl, by simp [hg, Ne.symm hc], by simp [hl, Ne.symm hn]⟩

theorem armed_reached (read rest : Text) : Armed read (reached step ⟨0, none, 0⟩ read rest) :=
  reached_invariant (P := Armed) ⟨rfl, by simp⟩ (fun _ _ c rest h => h.next c rest) read rest

theorem reached_offset (read rest : Text) : (reached step ⟨0, none, 0⟩ read rest).offset = read.length :=
  (armed_reached read rest).1

def Past (n : Nat) (r : Reading) : Prop := n ≤ r.offset + r.skip ∧ ∀ i ∈ r.colon, n ≤ i

theorem Past.next {n : Nat} {r : Reading} (h : Past n r) (c : Char) (rest : Text) : Past n (step r c rest).1 := by
  obtain ⟨offset, colon, skip⟩ := r
  obtain ⟨hoffset, hcolon⟩ := h
  dsimp only at hoffset hcolon
  rcases step_cases offset colon skip c rest with ⟨k, hk, hstep⟩ | ⟨_, f, hskip, -, -, hstep⟩ | ⟨hskip, -, hstep⟩
  · rw [hstep]
    exact ⟨by dsimp only; omega, nofun⟩
  · rw [hstep]
    exact ⟨by dsimp only; omega, nofun⟩
  · rw [hstep]
    refine ⟨by dsimp only; omega, fun i hi => ?_⟩
    rcases mem_arm_iff.mp hi with ⟨-, rfl⟩ | ⟨-, -, hi⟩
    · omega
    · exact hcolon i hi

theorem past_reached {n : Nat} {r : Reading} (h : Past n r) (read rest : Text) : Past n (reached step r read rest) :=
  reached_invariant (P := fun _ r => Past n r) h (fun _ _ c rest h => h.next c rest) read rest

theorem past_of_mem_step {r : Reading} {c : Char} {rest : Text} {s : Site} (h : s ∈ (step r c rest).2) :
    Past s.stop (step r c rest).1 := by
  obtain ⟨offset, colon, skip⟩ := r
  rcases step_cases offset colon skip c rest with ⟨_, -, hstep⟩ | ⟨i, f, -, -, -, hstep⟩ | ⟨-, -, hstep⟩
  · rw [hstep] at h
    cases h
  · rw [hstep] at h ⊢
    obtain rfl := List.mem_singleton.mp h
    refine ⟨?_, nofun⟩
    simp only [Site.stop]
    omega
  · rw [hstep] at h
    cases h

/-- Each url starts, with its colon, after the end of the url before it. -/
theorem pairwise_spans (source : Text) : (sites source).Pairwise fun a b => a.stop ≤ b.colon := by
  refine pairwise_scan (fun read c rest _ => ?_) fun read c mid d rest _ a ha b hb => ?_
  · generalize reached step ⟨0, none, 0⟩ read (c :: rest) = r
    obtain ⟨offset, colon, skip⟩ := r
    rcases step_cases offset colon skip c rest with ⟨_, -, hstep⟩ | ⟨i, f, -, -, -, hstep⟩ | ⟨-, -, hstep⟩
    · simp [hstep]
    · simp [hstep]
    · simp [hstep]
  · obtain ⟨-, i, f, hi, -, rfl⟩ := mem_step.mp hb
    rw [reached_append_cons] at hi
    exact (past_reached (past_of_mem_step ha) mid (d :: rest)).2 i hi

/-- A site is where a url is spelled, and where a colon has armed the pass and nothing is passed over. -/
theorem exists_of_mem_sites {source : Text} {s : Site} (h : s ∈ sites source) :
    ∃ before rest, source = before ++ (s.form.spelling ++ rest) ∧ s.form.Spelled ∧
      form? (s.form.spelling ++ rest) = some s.form ∧ s.word = before.length ∧
      reached step ⟨0, none, 0⟩ before (s.form.spelling ++ rest) = ⟨before.length, some s.colon, 0⟩ := by
  rw [sites, mem_scan] at h
  obtain ⟨before, c, next, rfl, h⟩ := h
  obtain ⟨hskip, colon, f, hcolon, hf, rfl⟩ := mem_step.mp h
  obtain ⟨hspelled, rest, hrest⟩ := form?_eq_some hf
  rw [hrest] at hskip hcolon hf ⊢
  have hoffset := reached_offset before (f.spelling ++ rest)
  refine ⟨before, rest, rfl, hspelled, hf, hoffset, ?_⟩
  show reached step ⟨0, none, 0⟩ before (f.spelling ++ rest) = ⟨before.length, some colon, 0⟩
  generalize reached step ⟨0, none, 0⟩ before (f.spelling ++ rest) = r at hskip hcolon hoffset ⊢
  obtain ⟨offset, colon', skip⟩ := r
  obtain rfl : offset = before.length := hoffset
  obtain rfl : colon' = some colon := hcolon
  obtain rfl : skip = 0 := hskip
  rfl

/-- The colon of a site stands before it on its line, and no other one between the two. -/
theorem exists_gap_of_mem_sites {source : Text} {s : Site} (h : s ∈ sites source) : ∃ before gap rest,
    source = before ++ ':' :: gap ++ s.form.spelling ++ rest ∧ s.form.Spelled ∧ s.colon = before.length ∧
      s.word = (before ++ ':' :: gap).length ∧ ':' ∉ gap ∧ '\n' ∉ gap := by
  obtain ⟨read, rest, rfl, hspelled, -, hword, hreached⟩ := exists_of_mem_sites h
  have harmed := armed_reached read (s.form.spelling ++ rest)
  rw [hreached] at harmed
  obtain ⟨before, gap, rfl, hcolon, hgap, hline⟩ := harmed.2 s.colon rfl
  exact ⟨before, gap, rest, by simp, hspelled, hcolon, hword, hgap, hline⟩

theorem pairwise_sites (source : Text) : (sites source).Pairwise fun a b => a.stop ≤ b.word := by
  refine (pairwise_spans source).imp_of_mem fun {a b} _ hb hab => ?_
  obtain ⟨before, gap, _, -, -, hcolon, hword, -⟩ := exists_gap_of_mem_sites hb
  rw [List.length_append] at hword
  omega

theorem pairwise_occurrences (source : Text) : (occurrences source).Pairwise fun a b => a.stop ≤ b.offset := by
  refine List.pairwise_map.mpr ((pairwise_sites source).imp fun {a b} hab => ?_)
  rw [Site.stop, Form.spelling, List.length_append, List.length_append] at hab
  simp only [Site.occurrence, Occurrence.stop]
  omega

theorem exists_of_mem_occurrences {source : Text} {o : Occurrence} (h : o ∈ occurrences source) :
    ∃ (before : Text) (f : Form) (after : Text), f.Spelled ∧
      o.Placed source (before ++ f.lead) f.text (f.trail ++ after) ∧
      o.part = ⟨.url, .text f.text, false⟩ := by
  obtain ⟨s, hs, rfl⟩ := List.mem_map.mp h
  obtain ⟨before, after, rfl, hspelled, -, hword, -⟩ := exists_of_mem_sites hs
  refine ⟨before, s.form, after, hspelled, ⟨?_, ?_, rfl⟩, rfl⟩
  · simp [Form.spelling]
  · simp [Site.occurrence, hword]

theorem IsLead.mem_open {lead : Text} (h : IsLead lead) : '(' ∈ lead := by
  obtain ⟨word, gap, pad, mark, rfl, -⟩ := h
  simp

theorem IsTrail.mem_close {trail : Text} (h : IsTrail trail) : ')' ∈ trail := by
  obtain ⟨mark, gap, rfl, -⟩ := h
  simp

theorem exists_open_of_mem_sites {source : Text} {s : Site} (h : s ∈ sites source) :
    ∃ i : Nat, source[i]? = some '(' ∧ s.word ≤ i ∧ i < s.word + s.form.lead.length := by
  obtain ⟨before, after, rfl, hspelled, -, hword, -⟩ := exists_of_mem_sites h
  obtain ⟨k, hk, hget⟩ := List.mem_iff_getElem.mp hspelled.lead.mem_open
  have hsource : before ++ (s.form.spelling ++ after) =
      before ++ s.form.lead ++ (s.form.text ++ s.form.trail ++ after) := by
    simp [Form.spelling]
  refine ⟨before.length + k, ?_, by omega, by omega⟩
  rw [hsource, Text.getElem?_middle _ _ _ hk, List.getElem?_eq_getElem hk, hget]

/-- Between the texts of two urls the parenthesis of the second one stands. -/
theorem pairwise_parted (source : Text) : (occurrences source).Pairwise (Occurrence.Parted source) := by
  refine List.pairwise_map.mpr ((pairwise_sites source).imp_of_mem fun {a b} _ hb hab => ?_)
  obtain ⟨i, hget, hle, hlt⟩ := exists_open_of_mem_sites hb
  rw [Site.stop, Form.spelling, List.length_append, List.length_append] at hab
  refine ⟨i, '(', hget, by decide, ?_, ?_⟩
  · simp only [Site.occurrence, Occurrence.stop]
    omega
  · simp only [Site.occurrence]
    omega

/-! ## Urls and references -/

theorem isReferenceChar_eq_false_of_isQuote {c : Char} (h : isQuote c = true) :
    Variable.isReferenceChar c = false := by
  simp only [isQuote, Bool.or_eq_true, beq_iff_eq] at h
  rcases h with rfl | rfl <;> decide

/-- A lead ends in a character that no reference has, or in the parenthesis right after a letter `l` or a blank. -/
theorem last_of_isLead {t : Text} (h : IsLead t) :
    (∃ c ∈ t.getLast?, Variable.isReferenceChar c = false) ∨
      ∃ s c, t = s ++ [c, '('] ∧ (c.toLower = 'l' ∨ Text.isBlank c = true) := by
  obtain ⟨word, gap, pad, mark, rfl, hword, hgap, hpad, hmark⟩ := h
  rcases hmark with rfl | ⟨q, hq, rfl⟩
  · rcases List.eq_nil_or_concat pad with rfl | ⟨pad, c, rfl⟩
    · right
      rcases List.eq_nil_or_concat gap with rfl | ⟨gap, c, rfl⟩
      · obtain ⟨a, b, rfl, -, hb⟩ := List.map_eq_append_iff.mp (show Text.lower word = ['u', 'r'] ++ ['l'] from hword)
        obtain ⟨c, rfl, hc⟩ := List.map_eq_singleton_iff.mp hb
        exact ⟨a, c, by simp, Or.inl hc⟩
      · refine ⟨word ++ gap, c, by simp, Or.inr ?_⟩
        exact Text.allBlank_iff.mp hgap c (by simp)
    · left
      refine ⟨c, by simp [List.getLast?_append, List.getLast?_cons], ?_⟩
      exact Variable.isReferenceChar_eq_false_of_isBlank (Text.allBlank_iff.mp hpad c (by simp))
  · left
    exact ⟨q, by simp [List.getLast?_append, List.getLast?_cons], isReferenceChar_eq_false_of_isQuote hq⟩

/-- A trail starts with a closing parenthesis or a character that no reference has. -/
theorem head_of_isTrail {t : Text} (h : IsTrail t) :
    ∃ c rest, t = c :: rest ∧ (c = ')' ∨ Variable.isReferenceChar c = false) := by
  obtain ⟨mark, gap, rfl, hgap, hmark⟩ := h
  rcases hmark with rfl | ⟨q, hq, rfl⟩
  · cases gap with
    | nil => exact ⟨')', [], rfl, Or.inl rfl⟩
    | cons c gap =>
      refine ⟨c, gap ++ [')'], rfl, Or.inr ?_⟩
      exact Variable.isReferenceChar_eq_false_of_isBlank (Text.allBlank_iff.mp hgap c (by simp))
  · exact ⟨q, gap ++ [')'], rfl, Or.inr (isReferenceChar_eq_false_of_isQuote hq)⟩

/-- A reference lies before the text of a url or after it. -/
theorem apart_of_reference {source b a before word name after : Text} {f : Form} (hf : f.Spelled)
    (hs : source = b ++ f.lead ++ f.text ++ (f.trail ++ a)) (h : Variable.IsReference word name)
    (hr : source = before ++ Variable.spell word name ++ after) :
    before.length + (Variable.spell word name).length ≤ (b ++ f.lead).length ∨
      (b ++ f.lead).length + f.text.length ≤ before.length := by
  have hlen := h.length_spell
  have hget : ∀ i, before.length ≤ i → i < before.length + (Variable.spell word name).length →
      source[i]? = (Variable.spell word name)[i - before.length]? := by
    intro i h1 h2
    rw [hr, ← Text.getElem?_middle before (Variable.spell word name) after (by omega), Nat.add_sub_cancel' h1]
  by_contra hc
  push Not at hc
  obtain ⟨h1, h2⟩ := hc
  by_cases hlt : before.length < (b ++ f.lead).length
  · -- the reference starts in the lead: it has the lead's last character
    have hlast : ∀ c, f.lead.getLast? = some c →
        (Variable.spell word name)[(b ++ f.lead).length - 1 - before.length]? = some c := by
      intro c hc
      rw [← hget _ (by omega) (by omega), hs, Text.getElem?_before _ _ _ (by omega), ← List.getLast?_eq_getElem?,
        List.getLast?_append, hc]
      rfl
    rcases last_of_isLead hf.lead with ⟨c, hc, hno⟩ | ⟨s, c, hlead, hc⟩
    · have := h.isReferenceChar_of_mem (List.mem_of_getElem? (hlast c hc))
      rw [hno] at this
      cases this
    · have hopen := h.eq_of_getElem?_open (hlast '(' (by simp [hlead]))
      have hr2 : source[before.length + 2]? = some c := by
        rw [hs, Text.getElem?_before _ _ _ (by omega), hlead,
          show before.length + 2 = (b ++ s).length by simp [hlead] at hopen ⊢; omega]
        simp
      rw [hget _ (by omega) (by omega), Nat.add_sub_cancel_left, Variable.spell, List.append_assoc,
        Text.getElem?_before _ _ _ (by rw [h.length_word]; omega)] at hr2
      have hlow : c.toLower = 'r' := by
        have : (Text.lower word)[2]? = some c.toLower := by rw [Text.lower, List.getElem?_map, hr2]; rfl
        rw [h.word_eq] at this
        simpa using this.symm
      rcases hc with hc | hc
      · rw [hlow] at hc
        cases hc
      · have := Text.isBlank_eq_false_of_isAlpha (h.isAlpha_of_mem_word (List.mem_of_getElem? hr2))
        rw [hc] at this
        cases this
  · -- it starts in the text: its parenthesis is in the text, or the trail's first character is in its word
    by_cases hin : before.length + 3 < (b ++ f.lead).length + f.text.length
    · have hopen := hget (before.length + 3) (by omega) (by omega)
      rw [Nat.add_sub_cancel_left, h.getElem?_open, hs,
        show before.length + 3 = (b ++ f.lead).length + (before.length + 3 - (b ++ f.lead).length) by omega,
        Text.getElem?_middle _ _ _ (by omega)] at hopen
      have := hf.text_char _ (List.mem_of_getElem? hopen)
      revert this
      decide
    · obtain ⟨c, rest, htrail, hc⟩ := head_of_isTrail hf.trail
      have hhead : source[(b ++ f.lead).length + f.text.length + 0]? = some c := by
        rw [hs, Text.getElem?_after, htrail]
        rfl
      rw [hget _ (by omega) (by omega)] at hhead
      rcases hc with rfl | hc
      · by_cases h3 : (b ++ f.lead).length + f.text.length + 0 - before.length < 3
        · have := h.isAlpha_of_getElem? h3 hhead
          revert this
          decide
        · rw [show (b ++ f.lead).length + f.text.length + 0 - before.length = 3 by omega, h.getElem?_open] at hhead
          cases hhead
      · have := h.isReferenceChar_of_mem (List.mem_of_getElem? hhead)
        rw [hc] at this
        cases this

end Stylesheet.Url
