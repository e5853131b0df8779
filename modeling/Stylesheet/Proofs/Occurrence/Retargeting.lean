/-
  Stylesheet.Proofs.Occurrence.Retargeting — what is found around a url that gives way to another one.

  Nothing is read across an opening parenthesis, except from the word of a url to what is inside its own
  (`form?_append_open`, `form?_of_isHead`). So what comes before a url is found whatever the url has inside, and what
  comes after it is moved along (`exists_occurrences_append`). A text in its place is read as it is if it does not start
  with a blank, because blanks and a quote before it are there already (`form?_spelling`).
-/

import Stylesheet.Proofs.Occurrence.Url

namespace Stylesheet.Url

/-! ## Reading up to a parenthesis -/

section

variable (z y : Text)

theorem quote_append_open : quote (z ++ '(' :: y) = quote z := by
  cases z with
  | nil => rfl
  | cons c z => rfl

theorem takeWhile_append_open {p : Char → Bool} (h : p '(' = false) :
    (z ++ '(' :: y).takeWhile p = z.takeWhile p := by
  rw [List.takeWhile_append]
  split
  · rename_i hlength
    have hall : z.takeWhile p = z := (List.takeWhile_prefix p).eq_of_length hlength
    rw [List.takeWhile_cons_of_neg (by simp [h]), List.append_nil, hall]
  · rfl

theorem length_quote_le : (quote z).length ≤ z.length :=
  (List.length_filter_le _ _).trans (List.length_take_le' _ _)

theorem length_takeWhile_le (p : Char → Bool) : (z.takeWhile p).length ≤ z.length :=
  (List.takeWhile_prefix p).length_le

theorem drop_quote_append_open :
    (z ++ '(' :: y).drop (quote z).length = z.drop (quote z).length ++ '(' :: y :=
  List.drop_append_of_le_length (length_quote_le z)

theorem drop_takeWhile_append_open (p : Char → Bool) :
    (z ++ '(' :: y).drop (z.takeWhile p).length = z.drop (z.takeWhile p).length ++ '(' :: y :=
  List.drop_append_of_le_length (length_takeWhile_le z p)

theorem trail?_append_open : trail? (z ++ '(' :: y) = trail? z := by
  unfold trail?
  rw [quote_append_open]
  dsimp only
  rw [drop_quote_append_open, takeWhile_append_open _ _ (by decide), ← List.drop_drop, ← List.drop_drop,
    drop_quote_append_open, drop_takeWhile_append_open]
  cases (z.drop (quote z).length).drop ((z.drop (quote z).length).takeWhile Text.isBlank).length with
  | nil => simp
  | cons c rest => by_cases hc : c = ')' <;> simp [hc]

theorem running?_append_open (lead : Text) : running? lead (z ++ '(' :: y) = running? lead z := by
  unfold running?
  rw [takeWhile_append_open _ _ (by decide)]
  dsimp only
  rw [drop_takeWhile_append_open, trail?_append_open]

theorem blank?_append_open (lead pad : Text) : blank? lead pad (z ++ '(' :: y) = blank? lead pad z := by
  unfold blank?
  simp only [← List.append_assoc, trail?_append_open]

/-- What stands inside one parenthesis is read up to the next one. -/
theorem inside?_append_open (lead : Text) : inside? lead (z ++ '(' :: y) = inside? lead z := by
  unfold inside?
  rw [takeWhile_append_open _ _ (by decide)]
  dsimp only
  rw [drop_takeWhile_append_open, quote_append_open, drop_quote_append_open, running?_append_open, blank?_append_open]

end

def IsHead (t : Text) : Prop :=
  ∃ word gap, t = word ++ gap ∧ Text.lower word = ['u', 'r', 'l'] ∧ Text.allBlank gap = true

theorem afterWord?_append_cons {word : Text} {c : Char} (h : c.toLower ∉ word) (z y : Text) :
    Text.afterWord? word (z ++ c :: y) = (Text.afterWord? word z).map (· ++ c :: y) := by
  induction word generalizing z with
  | nil => rfl
  | cons w word ih =>
    obtain ⟨hw, hword⟩ := List.ne_and_not_mem_of_not_mem_cons h
    cases z with
    | nil => simp [Text.afterWord?, hw]
    | cons d z =>
      rw [List.cons_append, Text.afterWord?, Text.afterWord?]
      split
      · exact ih hword z
      · rfl

theorem afterWord?_append_open (z y : Text) : Text.afterWord? ['u', 'r', 'l'] (z ++ '(' :: y) =
    (Text.afterWord? ['u', 'r', 'l'] z).map (· ++ '(' :: y) :=
  afterWord?_append_cons (by decide) z y

section

variable {word rest inner : Text}

theorem take_append_of_lower_eq (h : Text.lower word = ['u', 'r', 'l']) : (word ++ rest).take 3 = word := by
  have hlength : word.length = 3 := by rw [← Text.length_lower, h]; rfl
  rw [← hlength, List.take_left]

theorem form?_eq_inside? (h : Text.lower word = ['u', 'r', 'l'])
    (hrest : rest.drop (rest.takeWhile Text.isBlank).length = '(' :: inner) :
    form? (word ++ rest) = inside? (word ++ rest.takeWhile Text.isBlank ++ ['(']) inner := by
  have hafter : Text.afterWord? ['u', 'r', 'l'] (word ++ rest) = some rest :=
    Text.afterWord?_eq_some_iff.mpr ⟨word, rfl, h⟩
  simp only [form?, hafter, hrest, take_append_of_lower_eq h]

theorem form?_eq_none (h : Text.lower word = ['u', 'r', 'l'])
    (hrest : (rest.drop (rest.takeWhile Text.isBlank).length).head? ≠ some '(') : form? (word ++ rest) = none := by
  have hafter : Text.afterWord? ['u', 'r', 'l'] (word ++ rest) = some rest :=
    Text.afterWord?_eq_some_iff.mpr ⟨word, rfl, h⟩
  unfold form?
  rw [hafter]
  dsimp only
  split
  · rename_i inner hinner
    rw [hinner] at hrest
    exact absurd rfl hrest
  · rfl

end

/-- The parenthesis of a url comes right after its word and blanks, so that any other one ends what is read. -/
theorem form?_append_open {z : Text} (h : ¬ IsHead z) (y : Text) : form? (z ++ '(' :: y) = form? z := by
  cases hrest : Text.afterWord? ['u', 'r', 'l'] z with
  | none =>
    unfold form?
    rw [afterWord?_append_open, hrest]
    rfl
  | some rest =>
    obtain ⟨word, rfl, hword⟩ := Text.afterWord?_eq_some_iff.mp hrest
    have hgap := takeWhile_append_drop Text.isBlank rest
    have hdrop := drop_takeWhile_append_open rest y Text.isBlank
    have htake := takeWhile_append_open rest y (p := Text.isBlank) (by decide)
    rw [← htake] at hdrop
    rw [List.append_assoc]
    cases hinner : rest.drop (rest.takeWhile Text.isBlank).length with
    | nil =>
      rw [hinner, List.append_nil] at hgap
      refine absurd ⟨word, rest, rfl, hword, ?_⟩ h
      rw [← hgap]
      exact Text.allBlank_takeWhile rest
    | cons c inner =>
      rw [htake, hinner, List.cons_append, ← htake] at hdrop
      by_cases hc : c = '('
      · subst hc
        rw [form?_eq_inside? hword hdrop, form?_eq_inside? hword hinner, htake, inside?_append_open]
      · rw [form?_eq_none hword (by simpa [hdrop] using hc), form?_eq_none hword (by simpa [hinner] using hc)]

theorem form?_of_isHead {z : Text} (h : IsHead z) (y : Text) : form? (z ++ '(' :: y) = inside? (z ++ ['(']) y := by
  obtain ⟨word, gap, rfl, hword, hgap⟩ := h
  have htake : (gap ++ '(' :: y).takeWhile Text.isBlank = gap :=
    Text.takeWhile_append_of_all hgap (by simp; decide)
  have hdrop : (gap ++ '(' :: y).drop ((gap ++ '(' :: y).takeWhile Text.isBlank).length = '(' :: y := by
    rw [htake, List.drop_left]
  rw [List.append_assoc, form?_eq_inside? hword hdrop, htake]

/-! ## What a url is read from -/

theorem isQuote_eq_false_of_isBlank {c : Char} (h : Text.isBlank c = true) : isQuote c = false := by
  by_contra hq
  rw [Bool.not_eq_false, isQuote, Bool.or_eq_true, beq_iff_eq, beq_iff_eq] at hq
  rcases hq with rfl | rfl <;> exact absurd h (by decide)

theorem isQuote_eq_false_of_isTextChar {c : Char} (h : isTextChar c = true) : isQuote c = false := by
  simp only [isTextChar, Bool.not_eq_true', Bool.or_eq_false_iff] at h
  exact h.1.2

theorem quote_append {mark t : Text} (h : IsMark mark) (ht : ∀ c ∈ t.head?, isQuote c = false) :
    quote (mark ++ t) = mark := by
  rcases h with rfl | ⟨q, hq, rfl⟩
  · cases t with
    | nil => rfl
    | cons c t => simp [quote, ht c rfl]
  · simp [quote, hq]

theorem trail?_append {trail : Text} (h : IsTrail trail) (rest : Text) : trail? (trail ++ rest) = some trail := by
  obtain ⟨mark, gap, rfl, hgap, hmark⟩ := h
  have hhead : ∀ c ∈ (gap ++ ')' :: rest).head?, isQuote c = false := by
    intro c hc
    rcases Text.mem_head?_append hc with hc | hc
    · exact isQuote_eq_false_of_isBlank (Text.allBlank_iff.mp hgap c (List.mem_of_head? hc))
    · obtain rfl := Option.some.inj hc
      decide
  have htake : (gap ++ ')' :: rest).takeWhile Text.isBlank = gap :=
    Text.takeWhile_append_of_all hgap (by simp; decide)
  have hsource : mark ++ gap ++ [')'] ++ rest = mark ++ (gap ++ ')' :: rest) := by simp
  unfold trail?
  rw [hsource, quote_append hmark hhead]
  dsimp only
  rw [List.drop_left, htake, ← List.drop_drop, List.drop_left, List.drop_left]
  rfl

theorem running?_append {lead t trail : Text} (hne : t ≠ []) (hchar : ∀ c ∈ t, isTextChar c = true)
    (htrail : IsTrail trail) (hhead : ∀ c ∈ trail.head?, isTextChar c = false) (rest : Text) :
    running? lead (t ++ (trail ++ rest)) = some ⟨lead, t, trail⟩ := by
  have htake : (t ++ (trail ++ rest)).takeWhile isTextChar = t := by
    refine Text.takeWhile_append_of_all (List.all_eq_true.mpr hchar) ?_
    rwa [head?_of_append htrail]
  unfold running?
  rw [htake]
  dsimp only
  rw [if_neg (by simpa using hne), List.drop_left, trail?_append htrail]
  rfl

/-- A text that does not start with a blank is read after all the blanks and the quote of any lead. -/
theorem form?_spelling {f : Form} (h : f.Spelled) (hblank : ∀ c ∈ f.text.head?, Text.isBlank c = false) (rest : Text) :
    form? (f.spelling ++ rest) = some f := by
  obtain ⟨lead, t, trail⟩ := f
  obtain ⟨hlead, hne, hchar, htrail, hhead⟩ := h
  obtain ⟨word, gap, pad, mark, rfl, hword, hgap, hpad, hmark⟩ := hlead
  dsimp only at *
  obtain ⟨c, u, rfl⟩ := List.exists_cons_of_ne_nil hne
  have hc : isQuote c = false := isQuote_eq_false_of_isTextChar (hchar c List.mem_cons_self)
  have hquote : quote (mark ++ (c :: u ++ (trail ++ rest))) = mark := by
    refine quote_append hmark ?_
    intro d hd
    obtain rfl := Option.some.inj hd
    exact hc
  have htake : (pad ++ (mark ++ (c :: u ++ (trail ++ rest)))).takeWhile Text.isBlank = pad := by
    refine Text.takeWhile_append_of_all hpad ?_
    intro d hd
    rcases hmark with rfl | ⟨q, hq, rfl⟩
    · exact hblank d hd
    · obtain rfl := Option.some.inj hd
      by_contra hd'
      rw [Bool.not_eq_false] at hd'
      rw [isQuote_eq_false_of_isBlank hd'] at hq
      cases hq
  have hsource : Form.spelling ⟨word ++ gap ++ '(' :: (pad ++ mark), c :: u, trail⟩ ++ rest =
      word ++ gap ++ '(' :: (pad ++ (mark ++ (c :: u ++ (trail ++ rest)))) := by
    simp [Form.spelling]
  rw [hsource, form?_of_isHead ⟨word, gap, rfl, hword, hgap⟩, inside?, htake, List.drop_left, hquote, List.drop_left,
    running?_append hne hchar htrail hhead]
  simp

structure IsTarget (t : Text) : Prop where
  ne_nil : t ≠ []
  char : ∀ c ∈ t, isTextChar c = true
  head : ∀ c ∈ t.head?, Text.isBlank c = false

/-! ## Urls on the way -/

theorem not_isHead_cons_append {a : Char} {y head : Text} (h : IsHead head) : ¬ IsHead (a :: y ++ head) := by
  rintro ⟨word, gap, heq, hword, hgap⟩
  obtain ⟨word', gap', rfl, hword', -⟩ := h
  obtain ⟨front, last, rfl, hfront, hlast⟩ :=
    List.map_eq_append_iff.mp (show Text.lower word' = ['u', 'r'] ++ ['l'] from hword')
  obtain ⟨c, rfl, hc⟩ := List.map_eq_singleton_iff.mp hlast
  have hlength : word.length = 3 := by rw [← Text.length_lower, hword]; rfl
  have hlength' : front.length = 2 := by rw [← List.length_map Char.toLower, hfront]; rfl
  have hsplit : word ++ gap = a :: y ++ front ++ (c :: gap') := by
    rw [← heq]
    simp
  obtain ⟨z, -, rfl⟩ := Text.exists_append_of_length_le hsplit (by simp; omega)
  have hblank := Text.allBlank_iff.mp hgap c (by simp)
  rw [Text.isBlank_eq_of_toLower_eq (show c.toLower = 'l'.toLower from hc)] at hblank
  revert hblank
  decide

theorem step_congr {c : Char} {rest rest' : Text} (h : form? (c :: rest) = form? (c :: rest')) (r : Reading) :
    step r c rest = step r c rest' := by
  unfold step Reading.site?
  rw [h]

theorem IsLead.exists_head {lead : Text} (h : IsLead lead) :
    ∃ head inner, IsHead head ∧ lead = head ++ '(' :: inner := by
  obtain ⟨word, gap, pad, mark, rfl, hword, hgap, -, -⟩ := h
  exact ⟨word ++ gap, pad ++ mark, ⟨word, gap, rfl, hword, hgap⟩, rfl⟩

/-- No step before a url looks past its parenthesis. -/
theorem step_before {lead : Text} (h : IsLead lead) (a : Char) (y t t' : Text) (r : Reading) :
    step r a (y ++ (lead ++ t)) = step r a (y ++ (lead ++ t')) := by
  obtain ⟨head, inner, hhead, rfl⟩ := h.exists_head
  have hform : ∀ t, form? (a :: (y ++ (head ++ '(' :: inner ++ t))) = form? (a :: y ++ head) := by
    intro t
    rw [← form?_append_open (not_isHead_cons_append hhead) (inner ++ t)]
    simp
  exact step_congr ((hform t).trans (hform t').symm) r

theorem scan_skip (n : Nat) (m rest : Text) :
    scan step ⟨n, none, m.length⟩ (m ++ rest) = scan step ⟨n + m.length, none, 0⟩ rest :=
  scan_over (f := fun n k => Reading.mk n none k) (fun _ _ _ _ => rfl) n m rest

/-- A url is found where it starts, and after that there is no colon yet. -/
theorem scan_spelling {n colon : Nat} {f : Form} {rest : Text} (hf : form? (f.spelling ++ rest) = some f)
    (hne : f.spelling ≠ []) :
    scan step ⟨n, some colon, 0⟩ (f.spelling ++ rest) =
      ⟨colon, n, f⟩ :: scan step ⟨n + f.spelling.length, none, 0⟩ rest := by
  obtain ⟨c, m, hm⟩ := List.exists_cons_of_ne_nil hne
  have hstep : step ⟨n, some colon, 0⟩ c (m ++ rest) = (⟨n + 1, none, m.length⟩, [⟨colon, n, f⟩]) := by
    rw [hm, List.cons_append] at hf
    unfold step Reading.site?
    dsimp only
    rw [hf, Option.map_some]
    dsimp only
    rw [hm]
    rfl
  rw [hm, List.cons_append, scan_cons, hstep, scan_skip, List.length_cons, Nat.add_assoc, Nat.add_comm 1]
  rfl

def Site.add (k : Nat) (s : Site) : Site := ⟨s.colon + k, s.word + k, s.form⟩

theorem Site.occurrence_add (k : Nat) (s : Site) : (s.add k).occurrence = s.occurrence.shift k := by
  simp [add, occurrence, Occurrence.shift]
  omega

def Reading.add (k : Nat) (r : Reading) : Reading := ⟨r.offset + k, r.colon.map (· + k), r.skip⟩

theorem step_add (k : Nat) (r : Reading) (c : Char) (rest : Text) :
    step (r.add k) c rest = ((step r c rest).1.add k, (step r c rest).2.map (Site.add k)) := by
  obtain ⟨offset, colon, skip⟩ := r
  have hoffset : offset + k + 1 = offset + 1 + k := Nat.add_right_comm _ _ _
  have hcolon : (if c = ':' then some (offset + k) else if c = '\n' then none else colon.map (· + k)) =
      (if c = ':' then some offset else if c = '\n' then none else colon).map (· + k) := by
    split
    · rfl
    · split <;> rfl
  cases skip with
  | succ skip => simp only [Reading.add, step, hoffset, Option.map_none, List.map_nil]
  | zero =>
    simp only [Reading.add, step, Reading.site?]
    cases colon with
    | none => simp only [Option.map_none] at hcolon ⊢; simp only [hcolon, hoffset, List.map_nil]
    | some colon =>
      cases form? (c :: rest) with
      | none => simp only [Option.map_some, Option.map_none] at hcolon ⊢; simp only [hcolon, hoffset, List.map_nil]
      | some f => simp [hoffset, Site.add]

theorem scan_add (k n : Nat) (t : Text) :
    scan step ⟨n + k, none, 0⟩ t = (scan step ⟨n, none, 0⟩ t).map (Site.add k) := by
  have hstep : ∀ (r : Reading) (c : Char) (rest : Text),
      step (r.add k) (id c) (rest.map id) = ((step r c rest).1.add k, (step r c rest).2.map (Site.add k)) := by
    intro r c rest
    rw [List.map_id]
    exact step_add k r c rest
  have hscan := scan_map hstep ⟨n, none, 0⟩ t
  rwa [List.map_id] at hscan

theorem occurrences_add (k n : Nat) (t : Text) : (scan step ⟨n + k, none, 0⟩ t).map Site.occurrence =
    ((scan step ⟨n, none, 0⟩ t).map Site.occurrence).map (Occurrence.shift k) := by
  rw [scan_add, List.map_map, List.map_map]
  exact List.map_congr_left fun s _ => s.occurrence_add k

/-! ## A text in its place -/

/-- Whatever text stands in the place of the text of a url, the other urls are the same, those after it moved along. -/
theorem exists_occurrences_append {before span after : Text} {o : Occurrence}
    (ho : o ∈ occurrences (before ++ span ++ after)) (hplaced : o.Placed (before ++ span ++ after) before span after) :
    ∃ l r : List Occurrence, ∀ t, t = span ∨ IsTarget t →
      occurrences (before ++ t ++ after) =
        l ++ ⟨⟨.url, .text t, false⟩, before.length, t.length⟩ :: r.map (Occurrence.shift t.length) := by
  obtain ⟨⟨colon, n, f⟩, hs, rfl⟩ := List.mem_map.mp ho
  obtain ⟨start, rest, hsource, hspelled, hf, rfl, hreached⟩ := exists_of_mem_sites hs
  dsimp only at *
  obtain ⟨rfl, rfl, rfl⟩ : before = start ++ f.lead ∧ span = f.text ∧ after = f.trail ++ rest := by
    refine hplaced.unique ⟨?_, ?_, rfl⟩
    · rw [hsource]
      simp [Form.spelling]
    · simp [Site.occurrence]
  obtain ⟨found, hfound⟩ := exists_scan_append step ⟨0, none, 0⟩ start (f.spelling ++ rest)
  rw [hreached] at hfound
  let n := start.length + f.lead.length + f.trail.length
  refine ⟨found.map Site.occurrence, (scan step ⟨n, none, 0⟩ rest).map Site.occurrence, fun t ht => ?_⟩
  let g : Form := ⟨f.lead, t, f.trail⟩
  have hg : form? (g.spelling ++ rest) = some g := by
    rcases ht with rfl | ht
    · exact hf
    · have hgs : g.Spelled := ⟨hspelled.lead, ht.ne_nil, ht.char, hspelled.trail, hspelled.trail_head⟩
      exact form?_spelling hgs ht.head rest
  have hne : g.spelling ≠ [] := by
    simp [g, Form.spelling, hspelled.trail.ne_nil]
  have hsteps : ∀ x a y, start = x ++ a :: y →
      ∀ r, step r a (y ++ (g.spelling ++ rest)) = step r a (y ++ (f.spelling ++ rest)) := by
    intro x a y _ r
    have := step_before hspelled.lead a y (t ++ f.trail ++ rest) (f.text ++ f.trail ++ rest) r
    simpa [g, Form.spelling] using this
  have hlength : start.length + g.spelling.length = n + t.length := by
    simp [g, Form.spelling, n]
    omega
  have htext : start ++ f.lead ++ t ++ (f.trail ++ rest) = start ++ (g.spelling ++ rest) := by
    simp [g, Form.spelling]
  rw [occurrences, sites, htext, hfound _ hsteps, scan_spelling hg hne, hlength, List.map_append, List.map_cons,
    occurrences_add]
  simp [Site.occurrence, g]

end Stylesheet.Url
