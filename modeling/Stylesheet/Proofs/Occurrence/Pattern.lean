/-
  Stylesheet.Proofs.Occurrence.Pattern — the selectors that a pattern finds.

  What a selector list is can be written as a pattern (`listPattern`): the start of the text, a line end or a closing
  brace, blanks, list characters, and the opening brace. A search for it takes one list in front of each brace, if there
  is one to take, and among the anchors it comes to the first one, or to the line end right after it
  (`exists_outcomes`). It finds the lists of `occurrences` but for one thing: the blanks after the anchor may be such as
  a list cannot have, a form feed or a space of another script. There the pattern takes all list characters in front of
  the brace, and the pass starts after a line end among them or finds nothing.

  Main statement: `matched_eq` — both find the same selectors wherever no such blank stands between an anchor and the
  list characters in front of a brace, and what the pattern finds where one does.
-/

import Stylesheet.Proofs.Occurrence.Anchor
import Stylesheet.Proofs.Text.Pattern

namespace Stylesheet.Selector

def listPattern : Capture where
  before := .alt (.seq .start (.few Text.isBlank))
    (.alt (.seq (.one (· == '\n')) (.few Text.isBlank)) (.seq (.one (· == '}')) (.many Text.isBlank)))
  group := .seq (.one isListChar) (.many isListChar)
  after := .one (· == '{')

def matched (source : Text) : List Occurrence := (listPattern.search source).flatMap fun m => entries m.base m.group

/-! ## What the pattern can take -/

/-- In front of a brace: blanks after an anchor, and then a list. -/
structure Fits (before front gap list : Text) : Prop where
  split : before = front ++ gap ++ list
  anchored : Anchored front
  blank : Text.allBlank gap = true
  ne_nil : list ≠ []
  char : ∀ c ∈ list, isListChar c = true

/-- In front of a brace: an anchor, blanks of which the last is none that a list can have, and then a list. -/
def Strays (before front gap list : Text) : Prop :=
  Fits before front gap list ∧ ∃ c ∈ gap.getLast?, isListChar c = false

theorem takes_before_iff {offset : Nat} {x : Text} : listPattern.before.Takes offset x ↔
    ∃ a gap, x = a ++ gap ∧ Text.allBlank gap = true ∧ (offset = 0 ∧ a = [] ∨ a = ['\n'] ∨ a = ['}']) := by
  simp only [listPattern, Pattern.Takes, Text.allBlank_iff, beq_iff_eq]
  constructor
  · rintro (⟨a, gap, rfl, ha, hgap⟩ | ⟨_, gap, rfl, ⟨c, rfl, rfl⟩, hgap⟩ | ⟨_, gap, rfl, ⟨c, rfl, rfl⟩, hgap⟩)
    · exact ⟨a, gap, rfl, hgap, Or.inl ha⟩
    · exact ⟨_, gap, rfl, hgap, Or.inr (Or.inl rfl)⟩
    · exact ⟨_, gap, rfl, hgap, Or.inr (Or.inr rfl)⟩
  · rintro ⟨a, gap, rfl, hgap, ha | rfl | rfl⟩
    · exact Or.inl ⟨a, gap, rfl, ha, hgap⟩
    · exact Or.inr (Or.inl ⟨_, gap, rfl, ⟨_, rfl, rfl⟩, hgap⟩)
    · exact Or.inr (Or.inr ⟨_, gap, rfl, ⟨_, rfl, rfl⟩, hgap⟩)

theorem takes_group_iff {offset : Nat} {y : Text} :
    listPattern.group.Takes offset y ↔ y ≠ [] ∧ ∀ c ∈ y, isListChar c = true := by
  simp only [listPattern, Pattern.Takes]
  constructor
  · rintro ⟨_, t, rfl, ⟨c, rfl, hc⟩, ht⟩
    exact ⟨by simp, by simpa using ⟨hc, ht⟩⟩
  · rintro ⟨hne, hchar⟩
    obtain ⟨c, t, rfl⟩ := List.exists_cons_of_ne_nil hne
    exact ⟨[c], t, rfl, ⟨c, rfl, hchar c (by simp)⟩, fun d hd => hchar d (by simp [hd])⟩

theorem brace_notMem_of_isListChar {list : Text} (h : ∀ c ∈ list, isListChar c = true) : '{' ∉ list :=
  fun hmem => absurd (h _ hmem) (by decide)

theorem brace_notMem_of_allBlank {gap : Text} (h : Text.allBlank gap = true) : '{' ∉ gap :=
  fun hmem => absurd (Text.allBlank_iff.mp h _ hmem) (by decide)

theorem eq_of_append_brace {x y t u : Text} (hx : '{' ∉ x) (hy : '{' ∉ y) (h : x ++ '{' :: t = y ++ '{' :: u) :
    x = y := by
  have htake : ∀ {z : Text}, '{' ∉ z → ∀ t, (z ++ '{' :: t).takeWhile (· != '{') = z := by
    intro z hz t
    rw [List.takeWhile_append_of_pos]
    · simp
    · rintro c hc
      exact bne_iff_ne.mpr (ne_of_mem_of_not_mem hc hz)
  rw [← htake hx t, h, htake hy]

/-- A reading of the pattern ends at the next brace, and it is what fits there after an anchor at this place. -/
theorem mem_readings_iff {done z rest : Text} (hz : '{' ∉ z) {m : Capture.Match} :
    m ∈ listPattern.readings done.length (z ++ '{' :: rest) ↔ ∃ a gap list, z = a ++ gap ++ list ∧
      Fits (done ++ z) (done ++ a) gap list ∧ (done = [] ∧ a = [] ∨ a.length = 1) ∧
      m = ⟨(done ++ a ++ gap).length, list, z.length + 1⟩ := by
  simp only [Capture.mem_readings, takes_before_iff, takes_group_iff]
  constructor
  · rintro ⟨_, list, _, rest', hsplit, ⟨a, gap, rfl, hgap, ha⟩, ⟨hne, hchar⟩, ⟨c, rfl, hc⟩, rfl⟩
    obtain rfl : c = '{' := by simpa using hc
    have hbrace : '{' ∉ a ++ gap ++ list := by
      simp only [List.mem_append, not_or]
      refine ⟨⟨?_, brace_notMem_of_allBlank hgap⟩, brace_notMem_of_isListChar hchar⟩
      rcases ha with ⟨-, rfl⟩ | rfl | rfl <;> decide
    obtain rfl := eq_of_append_brace hz hbrace (hsplit.trans (List.append_assoc _ _ _))
    refine ⟨a, gap, list, rfl, ⟨by simp, ?_, hgap, hne, hchar⟩, ?_, by simp [Nat.add_assoc]⟩
    · intro c hc
      rcases ha with ⟨h, rfl⟩ | rfl | rfl
      · rw [List.eq_nil_of_length_eq_zero h] at hc
        cases hc
      · exact Or.inr (by simpa using hc.symm)
      · exact Or.inl (by simpa using hc.symm)
    · rcases ha with ⟨h, rfl⟩ | rfl | rfl
      · exact Or.inl ⟨List.eq_nil_of_length_eq_zero h, rfl⟩
      · exact Or.inr rfl
      · exact Or.inr rfl
  · rintro ⟨a, gap, list, rfl, hfits, ha, rfl⟩
    refine ⟨a ++ gap, list, ['{'], rest, by simp, ⟨a, gap, rfl, hfits.blank, ?_⟩, ⟨hfits.ne_nil, hfits.char⟩,
      ⟨'{', rfl, rfl⟩, by simp [Nat.add_assoc]⟩
    rcases ha with ⟨rfl, rfl⟩ | ha
    · exact Or.inl ⟨rfl, rfl⟩
    · obtain ⟨c, rfl⟩ := List.length_eq_one_iff.mp ha
      rcases hfits.anchored c (by simp) with rfl | rfl
      · exact Or.inr (Or.inr rfl)
      · exact Or.inr (Or.inl rfl)

/-! ## What the search takes -/

/-- The search takes nothing in front of a brace where nothing fits, and else a list whose anchor is the first one of
    those that fit, or right after it. -/
def Outcome (before : Text) : Option Capture.Match → Prop
  | none => ∀ front gap list, ¬ Fits before front gap list
  | some m => ∃ front gap list, Fits before front gap list ∧ m.base = (front ++ gap).length ∧ m.group = list ∧
      ∀ front' gap' list', Fits before front' gap' list' → front.length ≤ front'.length + 1

def Ahead (done z : Text) : Prop :=
  ∀ front gap list, Fits (done ++ z) front gap list → done.length < front.length ∨ done = [] ∧ front = []

theorem ahead_nil (z : Text) : Ahead [] z := fun front _ _ _ =>
  (Nat.eq_zero_or_pos front.length).symm.imp_right fun h => ⟨rfl, List.eq_nil_of_length_eq_zero h⟩

/-- What fits in front of a brace follows the brace before it. -/
theorem ahead_of_brace (done z : Text) : Ahead (done ++ ['{']) z := by
  intro front gap list hfits
  have hsplit := hfits.split
  have hbrace : '{' ∉ gap ++ list := by
    rw [List.mem_append, not_or]
    exact ⟨brace_notMem_of_allBlank hfits.blank, brace_notMem_of_isListChar hfits.char⟩
  rw [List.append_assoc, List.append_assoc, List.singleton_append, ← List.append_nil (front ++ _)] at hsplit
  left
  rcases Text.append_cons_eq_append hsplit hbrace with ⟨w, rfl⟩ | ⟨w, rfl, -⟩
  · have := congrArg List.length hsplit
    simp only [List.length_append, List.length_cons, List.length_nil] at this
    omega
  · rcases List.eq_nil_or_concat' w with rfl | ⟨w, c, rfl⟩
    · rcases hfits.anchored '{' (by simp) with h | h <;> exact absurd h (by decide)
    · simp

namespace Ahead

variable {done z rest : Text}

theorem not_fits (h : Ahead done []) (front gap list : Text) : ¬ Fits (done ++ []) front gap list := by
  intro hfits
  have hlength := congrArg List.length hfits.split
  have hpos := List.length_pos_of_ne_nil hfits.ne_nil
  simp only [List.length_append, List.length_nil] at hlength
  rcases h front gap list hfits with hlt | ⟨rfl, rfl⟩
  · omega
  · simp only [List.length_nil] at hlength
    omega

/-- An anchor that fits at the place where the search stands is the first one, or right after it. -/
theorem length_le (h : Ahead done z) {a : Text} (ha : done = [] ∧ a = [] ∨ a.length = 1) {front gap list : Text}
    (hfits : Fits (done ++ z) front gap list) : (done ++ a).length ≤ front.length + 1 := by
  rw [List.length_append]
  rcases ha with ⟨rfl, rfl⟩ | ha
  · exact Nat.zero_le _
  · rcases h front gap list hfits with hlt | ⟨rfl, rfl⟩
    · omega
    · simp [ha]

/-- Where the pattern cannot be read, no anchor that fits stands. -/
theorem next {c : Char} (h : Ahead done (c :: z)) (hz : '{' ∉ c :: z)
    (hnil : listPattern.readings done.length (c :: z ++ '{' :: rest) = []) : Ahead (done ++ [c]) z := by
  intro front gap list hfits
  rw [List.append_assoc, List.singleton_append] at hfits
  have hstart (a : Text) (hfront : front = done ++ a) (ha : done = [] ∧ a = [] ∨ a.length = 1) : False := by
    subst hfront
    have hsplit := hfits.split
    rw [List.append_assoc, List.append_assoc] at hsplit
    have hmem := (@mem_readings_iff done (c :: z) rest hz _).mpr
      ⟨a, gap, list, by rw [List.append_cancel_left hsplit, List.append_assoc], hfits, ha, rfl⟩
    rw [hnil] at hmem
    cases hmem
  left
  rcases h front gap list hfits with hlt | ⟨rfl, rfl⟩
  · by_contra hle
    rw [List.length_append, List.length_singleton] at hle
    obtain ⟨a, rfl⟩ : done <+: front := List.prefix_of_prefix_length_le ⟨c :: z, rfl⟩
      ⟨gap ++ list, by rw [← List.append_assoc, ← hfits.split]⟩ hlt.le
    rw [List.length_append] at hlt hle
    exact hstart a rfl (Or.inr (by omega))
  · exact (hstart [] rfl (Or.inl ⟨rfl, rfl⟩)).elim

end Ahead

/-- From one brace to the next, the search finds what its outcome at the next brace is. -/
theorem exists_outcome (z : Text) : ∀ done rest, '{' ∉ z → Ahead done z →
    ∃ r, Outcome (done ++ z) r ∧ scan listPattern.step ⟨done.length, 0⟩ (z ++ '{' :: rest) =
      r.toList ++ scan listPattern.step ⟨(done ++ z).length + 1, 0⟩ rest := by
  induction z with
  | nil =>
    intro done rest hz hahead
    have hnil : listPattern.readings done.length ('{' :: rest) = [] := by
      refine List.eq_nil_iff_forall_not_mem.mpr fun m hm => ?_
      obtain ⟨a, gap, list, -, hfits, -⟩ := (@mem_readings_iff done [] rest hz m).mp hm
      exact hahead.not_fits _ _ _ hfits
    refine ⟨none, hahead.not_fits, ?_⟩
    rw [List.nil_append, Capture.scan_of_readings_eq_nil hnil, List.append_nil]
    rfl
  | cons c z ih =>
    intro done rest hz hahead
    cases hread : (listPattern.readings done.length (c :: z ++ '{' :: rest)).head? with
    | some m =>
      obtain ⟨a, gap, list, -, hfits, ha, rfl⟩ := (mem_readings_iff hz).mp (List.mem_of_head? hread)
      refine ⟨some ⟨(done ++ a ++ gap).length, list, (c :: z).length + 1⟩,
        ⟨done ++ a, gap, list, hfits, rfl, rfl, fun _ _ _ => hahead.length_le ha⟩, ?_⟩
      have hcons : c :: z ++ '{' :: rest = (c :: z ++ ['{']) ++ rest := by simp
      rw [hcons] at hread ⊢
      rw [Capture.scan_of_head?_eq_some (by simp) (by simp) hread]
      simp [Nat.add_assoc]
    | none =>
      have hnil := List.head?_eq_none_iff.mp hread
      obtain ⟨r, hr, hscan⟩ :=
        ih (done ++ [c]) rest (fun h => hz (List.mem_cons_of_mem c h)) (hahead.next hz hnil)
      rw [List.append_assoc, List.singleton_append] at hr hscan
      rw [List.length_append, List.length_singleton] at hscan
      refine ⟨r, hr, ?_⟩
      rw [List.cons_append] at hnil ⊢
      rw [Capture.scan_of_readings_eq_nil hnil, hscan]

theorem scan_of_brace_notMem {t : Text} (h : '{' ∉ t) (offset : Nat) : scan listPattern.step ⟨offset, 0⟩ t = [] := by
  induction t generalizing offset with
  | nil => rfl
  | cons c t ih =>
    rw [Capture.scan_of_readings_eq_nil, ih (fun hmem => h (List.mem_cons_of_mem c hmem))]
    refine List.eq_nil_iff_forall_not_mem.mpr fun m hm => ?_
    obtain ⟨x, y, z, rest, hsplit, -, -, ⟨d, rfl, hd⟩, -⟩ := Capture.mem_readings.mp hm
    obtain rfl : d = '{' := by simpa using hd
    exact h (by simp [hsplit])

theorem braces_of_notMem {t : Text} (h : '{' ∉ t) : braces t = [] := by
  refine List.filter_eq_nil_iff.mpr fun b _ hb => h (List.mem_of_getElem? (i := b) ?_)
  simpa using hb

theorem length_append_brace (z : Text) : (z ++ ['{']).length = z.length + 1 := List.length_append

theorem braces_append_cons {z t : Text} (h : '{' ∉ z) :
    braces (z ++ '{' :: t) = z.length :: (braces t).map (z.length + 1 + ·) := by
  have hfront : (List.range z.length).filter (fun b => (z ++ '{' :: t)[b]? == some '{') = braces z :=
    List.filter_congr fun b hb => by rw [List.getElem?_append_left (List.mem_range.mp hb)]
  have hrest (b : Nat) : (z ++ '{' :: t)[z.length + 1 + b]? = t[b]? := by
    rw [List.append_cons, ← length_append_brace, List.getElem?_append_right (Nat.le_add_right _ _),
      Nat.add_sub_cancel_left]
  rw [braces, List.length_append, List.length_cons, Nat.add_comm t.length, ← Nat.add_assoc, List.range_add,
    List.range_succ, List.filter_append, List.filter_append, hfront, braces_of_notMem h,
    List.filter_cons_of_pos (by simp), List.filter_map]
  simp [Function.comp_def, hrest, braces]

/-- The pattern takes at most one list in front of each brace. -/
theorem exists_outcomes (t : Text) : ∀ done, (∀ z, Ahead done z) → ∃ taken : Nat → Option Capture.Match,
    scan listPattern.step ⟨done.length, 0⟩ t = (braces t).filterMap taken ∧
      ∀ b ∈ braces t, Outcome (done ++ t.take b) (taken b) := by
  induction t using Text.pieces_induction '{' with
  | last z hz => exact fun done _ => ⟨fun _ => none, by simp [scan_of_brace_notMem hz, braces_of_notMem hz]⟩
  | cons z t hz ih =>
    intro done hahead
    obtain ⟨r, hr, hscan⟩ := exists_outcome z done t hz (hahead z)
    obtain ⟨taken, htaken, hall⟩ := ih (done ++ z ++ ['{']) (ahead_of_brace _)
    refine ⟨fun b => if b = z.length then r else taken (b - (z.length + 1)), ?_, ?_⟩
    · rw [hscan, braces_append_cons hz, List.filterMap_cons, List.filterMap_map]
      have hlater (b : Nat) : z.length + 1 + b ≠ z.length := by omega
      have hnext : scan listPattern.step ⟨(done ++ z).length + 1, 0⟩ t = (braces t).filterMap taken := by
        rw [← htaken, length_append_brace]
      rw [hnext]
      simp only [Function.comp_def, hlater, if_true, if_false, Nat.add_sub_cancel_left]
      cases r <;> rfl
    · intro b hb
      rw [braces_append_cons hz, List.mem_cons, List.mem_map] at hb
      rcases hb with rfl | ⟨b, hb, rfl⟩
      · simpa using hr
      · have htake : (z ++ '{' :: t).take (z.length + 1 + b) = z ++ ['{'] ++ t.take b := by
          rw [List.append_cons, ← length_append_brace, List.take_length_add_append]
        dsimp only
        rw [if_neg (by omega), Nat.add_sub_cancel_left, htake]
        simpa using hall b hb

/-! ## The selectors in what it takes -/

section

variable {before rest front gap list : Text} {r : Option Capture.Match}

/-- After a stray blank, the pattern takes the selectors of all list characters. -/
theorem Outcome.eq_of_strays (h : Outcome before r) (hstrays : Strays before front gap list) :
    (r.toList.flatMap fun m => entries m.base m.group) = entries (front ++ gap).length list := by
  obtain ⟨hfits, c, hlast, hc⟩ := hstrays
  cases r with
  | none => exact absurd hfits (h _ _ _)
  | some m =>
    obtain ⟨front', gap', list', hfits', hbase, hgroup, hle⟩ := h
    have hle := hle _ _ _ hfits
    obtain ⟨blanks, rfl⟩ := List.getLast?_eq_some_iff.mp hlast
    have hsplit : (front ++ blanks) ++ c :: list = (front' ++ gap') ++ list' ++ [] := by
      rw [List.append_nil, ← hfits'.split, hfits.split]
      simp
    have hnotMem : c ∉ list' := fun hmem => by simp [hfits'.char c hmem] at hc
    rcases Text.append_cons_eq_append hsplit hnotMem with ⟨z, hz⟩ | ⟨w, hw, hlist⟩
    · have := congrArg List.length hsplit
      have := congrArg List.length hz
      simp only [List.length_append, List.length_cons, List.length_nil] at *
      omega
    rw [List.append_nil] at hlist
    rw [List.append_cons] at hw
    obtain ⟨v, -, rfl⟩ := Text.exists_append_of_length_le hw
      (by simp only [List.length_append, List.length_singleton]; omega)
    have hblank := hfits'.blank
    rw [Text.allBlank_append, Bool.and_eq_true] at hblank
    rw [Option.toList_some, List.flatMap_singleton, hbase, hgroup, hw, hlist, entries_indent hblank.2,
      List.append_assoc front, List.length_append]

theorem Fits.gap_char (h : Fits before front gap list) (hstrays : ∀ front gap list, ¬ Strays before front gap list) :
    ∀ c ∈ gap, isListChar c = true := by
  obtain ⟨blanks, run, rfl, -, hrun, hlast⟩ := exists_run gap
  have hblank := h.blank
  rw [Text.allBlank_append, Bool.and_eq_true] at hblank
  rcases List.eq_nil_or_concat' blanks with rfl | ⟨blanks, c, rfl⟩
  · simpa using hrun
  · refine absurd ⟨⟨?_, h.anchored, hblank.1, ?_, ?_⟩, c, by simp, hlast c (by simp)⟩ (hstrays front _ (run ++ list))
    · rw [h.split]
      simp
    · simp [h.ne_nil]
    · intro d hd
      rcases List.mem_append.mp hd with hd | hd
      · exact hrun d hd
      · exact h.char d hd

theorem found_eq_of_isLeast {p : Nat} (h : IsLeast {p | Leads (before ++ rest) before.length p} p) :
    found (before ++ rest) before.length = entries p (before.drop p) := by
  rw [found, list?, (start?_eq_some_iff (by simp)).mpr h, List.take_left]
  simp

theorem found_eq_nil (h : ∀ p, ¬ Leads (before ++ rest) before.length p) :
    found (before ++ rest) before.length = [] := by
  rw [found, list?, (start?_eq_none_iff (by simp)).mpr h]
  rfl

theorem exists_fits_of_leads {p : Nat} (hp : Leads (before ++ rest) before.length p) :
    ∃ front list, p = front.length ∧ Fits before front [] list := by
  obtain ⟨front, list, hsplit, rfl, hne, hanchored, hchar⟩ := leads_iff.mp hp
  exact ⟨front, list, rfl, by simpa using hsplit, hanchored, rfl, hne, hchar⟩

theorem Fits.leads (h : Fits before front gap list) (hgap : ∀ c ∈ gap, isListChar c = true) (rest : Text) :
    Leads (before ++ rest) before.length front.length := by
  refine leads_iff.mpr ⟨front, gap ++ list, ?_, rfl, by simp [h.ne_nil], h.anchored, fun c hc => ?_⟩
  · rw [← List.append_assoc, h.split]
  · rcases List.mem_append.mp hc with hc | hc
    · exact hgap c hc
    · exact h.char c hc

/-- What stands between two anchors that fit is blank if it is one character at most. -/
theorem Fits.allBlank_between {x list' : Text} (h : Fits before (front ++ x) gap list) (h' : Fits before front [] list')
    (hx : x.length ≤ 1) : Text.allBlank x = true := by
  rcases List.eq_nil_or_concat' x with rfl | ⟨y, c, rfl⟩
  · rfl
  · rw [List.length_append, List.length_singleton] at hx
    obtain rfl : y = [] := List.eq_nil_of_length_eq_zero (by omega)
    have hlist : list' = [c] ++ gap ++ list := by
      have hsplit := h'.split.symm.trans h.split
      rw [List.append_nil, List.nil_append, List.append_assoc, List.append_assoc, List.append_cancel_left_eq] at hsplit
      rw [hsplit, List.append_assoc]
    rcases h.anchored c (by simp) with rfl | rfl
    · exact absurd (h'.char '}' (by simp [hlist])) (by decide)
    · rfl

/-- Without a stray blank, the pattern takes the selectors of the list that the pass finds. -/
theorem Outcome.eq_found (h : Outcome before r) (hstrays : ∀ front gap list, ¬ Strays before front gap list)
    (rest : Text) :
    (r.toList.flatMap fun m => entries m.base m.group) = found (before ++ rest) before.length := by
  cases r with
  | none =>
    rw [found_eq_nil]
    · rfl
    · intro p hp
      obtain ⟨front, list, -, hfits⟩ := exists_fits_of_leads hp
      exact h _ _ _ hfits
  | some m =>
    obtain ⟨front, gap, list, hfits, hbase, hgroup, hle⟩ := h
    have hleads := hfits.leads (hfits.gap_char hstrays) rest
    obtain ⟨p, hp⟩ : ∃ p, IsLeast {p | Leads (before ++ rest) before.length p} p :=
      ⟨_, Nat.sInf_mem ⟨_, hleads⟩, fun q hq => Nat.sInf_le hq⟩
    obtain ⟨first, firstList, rfl, hfirst⟩ := exists_fits_of_leads hp.1
    have hsplit : first ++ firstList = front ++ (gap ++ list) := by
      rw [← List.append_assoc, ← hfits.split]
      simpa using hfirst.split.symm
    obtain ⟨x, rfl, rfl⟩ := Text.exists_append_of_length_le hsplit (hp.2 hleads)
    have hx : x.length ≤ 1 := by
      have := hle _ _ _ hfirst
      rw [List.length_append] at this
      omega
    have hblank : Text.allBlank (x ++ gap) = true := by
      rw [Text.allBlank_append, hfits.allBlank_between hfirst hx, hfits.blank]
      rfl
    have hdrop : before.drop first.length = x ++ gap ++ list := by
      rw [hfirst.split]
      simp
    rw [found_eq_of_isLeast hp, hdrop, entries_indent hblank, Option.toList_some, List.flatMap_singleton, hbase, hgroup]
    simp

end

/-- Where no stray blank stands in front of a brace, searching for the pattern finds the selectors of the text. Brace by
    brace, the two differ only after a stray blank: there the pattern takes the entries of all list characters. -/
theorem matched_eq (source : Text) :
    ((∀ b ∈ braces source, ∀ front gap list, ¬ Strays (source.take b) front gap list) →
      matched source = (findings source Kind.all).occurrences.filter (·.part.kind = .selector)) ∧
    ∃ taken : Nat → List Occurrence, matched source = (braces source).flatMap taken ∧
      (findings source Kind.all).occurrences.filter (·.part.kind = .selector) = (braces source).flatMap (found source) ∧
      ∀ b ∈ braces source,
        ((∀ front gap list, ¬ Strays (source.take b) front gap list) → taken b = found source b) ∧
        ∀ front gap list, Strays (source.take b) front gap list → taken b = entries (front ++ gap).length list := by
  obtain ⟨taken, hsearch, htaken⟩ := exists_outcomes source [] ahead_nil
  have hmatched : matched source =
      (braces source).flatMap fun b => (taken b).toList.flatMap fun m => entries m.base m.group := by
    rw [matched, Capture.search, ← List.flatMap_assoc, ← List.filterMap_eq_flatMap_toList, ← hsearch]
    rfl
  have hfound : (findings source Kind.all).occurrences.filter (·.part.kind = .selector) =
      (braces source).flatMap (found source) := by
    rw [filter_findings (by decide)]
    exact occurrences_eq source
  have hsame : ∀ b ∈ braces source, (∀ front gap list, ¬ Strays (source.take b) front gap list) →
      ((taken b).toList.flatMap fun m => entries m.base m.group) = found source b := by
    intro b hb hstrays
    have hlength : (source.take b).length = b := by simpa using le_length_of_mem_braces hb
    simpa only [List.nil_append, hlength, List.take_append_drop] using (htaken b hb).eq_found hstrays (source.drop b)
  refine ⟨fun hstrays => ?_, _, hmatched, hfound, fun b hb => ⟨hsame b hb, fun front gap list => ?_⟩⟩
  · rw [hmatched, hfound]
    exact List.flatMap_congr fun b hb => hsame b hb (hstrays b hb)
  · exact (htaken b hb).eq_of_strays

/-- A form feed in front of a list: the pattern takes it for a blank after the anchor, the list cannot have it. -/
theorem matched_form_feed :
    matched ['\x0c', 'a', '{', '}'] = [⟨⟨.selector, .text ['a'], false⟩, 1, 1⟩] ∧
      (findings ['\x0c', 'a', '{', '}'] Kind.all).occurrences.filter (·.part.kind = .selector) = [] := by
  decide +kernel

end Stylesheet.Selector
