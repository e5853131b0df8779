/-
  Stylesheet.Proofs.Occurrence.RootBlock — where the root block is.

  The pass knows of what it has read only whether `:root` stands in it since the last brace and the last line end
  (`Seen`). So it stops at the first opening brace that follows `:root` on its line without another brace in between
  (`stops_afterBrace?`). That is the brace of the first `:root` that has one at all on its line, for a later `:root` has
  no earlier brace (`Heads.mono`); and no later one is worth a try where this one's brace is never closed, for then
  none is.

  Main statement: `block_exact` — the root block is the leftmost match of a pattern, which searches with backtracking.
-/

import Stylesheet.Proofs.Occurrence.Spelling
import Stylesheet.Proofs.Text.Pattern

namespace Stylesheet.Declaration

def rootWord : Text := [':', 'r', 'o', 'o', 't']

/-- The root block as a pattern: the word in either case, as few characters of its line as can be, an opening brace, the
    body and the closing brace. -/
def rootPattern : Capture where
  before := .word rootWord (.seq (.few (· != '\n')) (.one (· == '{')))
  group := .many (· != '}')
  after := .one (· == '}')

/-- At `start` stands `:root` in either case, and at `brace` the first opening brace after it, on the same line. -/
def Heads (source : Text) (start brace : Nat) : Prop :=
  ∃ before word gap rest, source = before ++ (word ++ gap) ++ '{' :: rest ∧ Text.lower word = rootWord ∧
    '\n' ∉ gap ∧ '{' ∉ gap ∧ start = before.length ∧ brace = before.length + (word ++ gap).length

/-- A `:root` that has an opening brace on its line, and no such one before it. -/
def FirstHeads (source : Text) (start brace : Nat) : Prop :=
  IsLeast {p | ∃ q, Heads source p q} start ∧ Heads source start brace

theorem brace_notMem_word {word : Text} (h : Text.lower word = rootWord) : '{' ∉ word := by
  intro hmem
  have : '{' ∈ Text.lower word := List.mem_map.mpr ⟨'{', hmem, by decide⟩
  rw [h] at this
  exact absurd this (by decide)

/-! ## The brace after `:root` -/

section

variable {source : Text} {start brace start' brace' : Nat}

namespace Heads

theorem getElem?_brace (h : Heads source start brace) : source[brace]? = some '{' := by
  obtain ⟨before, word, gap, rest, rfl, -, -, -, rfl, rfl⟩ := h
  exact Text.getElem?_after before (word ++ gap) ('{' :: rest) 0

theorem lt (h : Heads source start brace) : start < brace := by
  obtain ⟨before, word, gap, rest, rfl, hword, -, -, rfl, rfl⟩ := h
  have hlength : word.length = 5 := by rw [← Text.length_lower, hword]; rfl
  rw [List.length_append]
  omega

/-- Between a `:root` and its brace no other one opens. -/
theorem getElem?_ne (h : Heads source start brace) {i : Nat} (hle : start ≤ i) (hlt : i < brace) :
    source[i]? ≠ some '{' := by
  obtain ⟨before, word, gap, rest, rfl, hword, -, hgap, rfl, rfl⟩ := h
  obtain ⟨k, rfl⟩ := Nat.exists_eq_add_of_le hle
  rw [Text.getElem?_middle _ _ _ (by omega)]
  intro hk
  rcases List.mem_append.mp (List.mem_of_getElem? hk) with hmem | hmem
  · exact brace_notMem_word hword hmem
  · exact hgap hmem

/-- A later `:root` has no earlier brace. -/
theorem mono (h : Heads source start brace) (h' : Heads source start' brace') (hle : start ≤ start') :
    brace ≤ brace' := by
  by_contra hlt
  exact h.getElem?_ne (hle.trans h'.lt.le) (Nat.lt_of_not_le hlt) h'.getElem?_brace

theorem unique (h : Heads source start brace) (h' : Heads source start brace') : brace = brace' :=
  Nat.le_antisymm (h.mono h' (Nat.le_refl _)) (h'.mono h (Nat.le_refl _))

theorem exists_firstHeads (h : Heads source start brace) :
    ∃ start' brace', FirstHeads source start' brace' ∧ brace' ≤ brace := by
  obtain ⟨first, hleast⟩ : ∃ p, IsLeast {p | ∃ q, Heads source p q} p :=
    ⟨_, Nat.sInf_mem ⟨start, brace, h⟩, fun p hp => Nat.sInf_le hp⟩
  obtain ⟨brace', hfirst⟩ := hleast.1
  exact ⟨first, brace', ⟨hleast, hfirst⟩, hfirst.mono h (hleast.2 ⟨brace, h⟩)⟩

end Heads

theorem FirstHeads.unique (h : FirstHeads source start brace) (h' : FirstHeads source start' brace') :
    start = start' ∧ brace = brace' := by
  obtain rfl := h.1.unique h'.1
  exact ⟨rfl, h.2.unique h'.2⟩

end

/-! ## The pass -/

def Seen (done t : Text) : Prop :=
  ∃ front line, done = front ++ line ∧ line ≠ [] ∧ isRoot (line ++ t) = true ∧ '{' ∉ line ∧ '\n' ∉ line

theorem not_seen_nil (t : Text) : ¬ Seen [] t := by
  rintro ⟨front, line, hsplit, hne, -⟩
  exact hne (List.append_eq_nil_iff.mp hsplit.symm).2

theorem not_seen_of_ends {c : Char} (hc : c = '{' ∨ c = '\n') (done t : Text) : ¬ Seen (done ++ [c]) t := by
  rintro ⟨front, line, hsplit, hne, -, hbrace, hline⟩
  obtain ⟨line, d, rfl⟩ := (List.eq_nil_or_concat' line).resolve_left hne
  rw [← List.append_assoc] at hsplit
  obtain rfl : c = d := by simpa using (List.append_inj' hsplit rfl).2
  rcases hc with rfl | rfl
  · exact hbrace (by simp)
  · exact hline (by simp)

theorem seen_append_singleton {c : Char} (hbrace : c ≠ '{') (hline : c ≠ '\n') (done t : Text) :
    Seen (done ++ [c]) t ↔ Seen done (c :: t) ∨ isRoot (c :: t) = true := by
  constructor
  · rintro ⟨front, line, hsplit, hne, hroot, hb, hl⟩
    obtain ⟨line, d, rfl⟩ := (List.eq_nil_or_concat' line).resolve_left hne
    rw [← List.append_assoc] at hsplit
    obtain ⟨rfl, hd⟩ := List.append_inj' hsplit rfl
    obtain rfl : c = d := by simpa using hd
    rw [List.append_assoc, List.singleton_append] at hroot
    rw [List.mem_append, not_or] at hb hl
    rcases List.eq_nil_or_concat' line with rfl | ⟨line, e, rfl⟩
    · exact Or.inr hroot
    · exact Or.inl ⟨front, line ++ [e], rfl, by simp, hroot, hb.1, hl.1⟩
  · rintro (⟨front, line, rfl, -, hroot, hb, hl⟩ | hroot)
    · exact ⟨front, line ++ [c], by simp, by simp, by simpa using hroot, by simpa [hb] using hbrace.symm,
        by simpa [hl] using hline.symm⟩
    · exact ⟨done, [c], rfl, by simp, hroot, by simpa using hbrace.symm, by simpa using hline.symm⟩

/-- At a brace, `:root` was seen if it has this brace. -/
theorem seen_iff_heads {done rest : Text} :
    Seen done ('{' :: rest) ↔ ∃ start, Heads (done ++ '{' :: rest) start done.length := by
  constructor
  · rintro ⟨front, line, rfl, -, hroot, hbrace, hline⟩
    obtain ⟨word, t, hsplit, hword⟩ := isRoot_iff.mp hroot
    have hsplit : line ++ '{' :: rest = [] ++ word ++ t := hsplit
    rcases Text.append_cons_eq_append hsplit (brace_notMem_word hword) with ⟨gap, rfl⟩ | ⟨z, hz, -⟩
    · rw [List.nil_append] at hbrace hline ⊢
      rw [List.mem_append, not_or] at hbrace hline
      exact ⟨front.length, front, word, gap, rest, rfl, hword, hline.2, hbrace.2, rfl, List.length_append⟩
    · cases (List.append_eq_nil_iff.mp hz.symm).2
  · rintro ⟨start, before, word, gap, rest', hsplit, hword, hline, hbrace, -, hlength⟩
    have hlength' : done.length = (before ++ (word ++ gap)).length := hlength.trans List.length_append.symm
    obtain ⟨rfl, hrest⟩ := List.append_inj hsplit hlength'
    refine ⟨before, word ++ gap, rfl, ?_, ?_, ?_, ?_⟩
    · rintro hnil
      rw [(List.append_eq_nil_iff.mp hnil).1] at hword
      cases hword
    · exact isRoot_iff.mpr ⟨word, gap ++ '{' :: rest, by simp, hword⟩
    · rw [List.mem_append, not_or]
      exact ⟨brace_notMem_word hword, hbrace⟩
    · rw [List.mem_append, not_or]
      refine ⟨fun hmem => ?_, hline⟩
      have : '\n' ∈ Text.lower word := List.mem_map.mpr ⟨'\n', hmem, by decide⟩
      rw [hword] at this
      exact absurd this (by decide)

def Stops (done t : Text) : Option (Nat × Text) → Prop
  | some (n, rest) => ∃ read, t = read ++ '{' :: rest ∧ n = (done ++ read).length + 1 ∧
      Seen (done ++ read) ('{' :: rest) ∧
      ∀ read' rest', t = read' ++ '{' :: rest' → Seen (done ++ read') ('{' :: rest') → read.length ≤ read'.length
  | none => ∀ read rest, t = read ++ '{' :: rest → ¬ Seen (done ++ read) ('{' :: rest)

theorem Stops.cons {done t : Text} {c : Char} {r : Option (Nat × Text)} (h : Stops (done ++ [c]) t r)
    (hc : c = '{' → ¬ Seen done (c :: t)) : Stops done (c :: t) r := by
  have later : ∀ read rest, c :: t = read ++ '{' :: rest → Seen (done ++ read) ('{' :: rest) →
      ∃ read', read = c :: read' ∧ t = read' ++ '{' :: rest ∧ Seen (done ++ [c] ++ read') ('{' :: rest) := by
    intro read rest hsplit hseen
    cases read with
    | nil =>
      obtain ⟨rfl, rfl⟩ := List.cons.inj hsplit
      rw [List.append_nil] at hseen
      exact absurd hseen (hc rfl)
    | cons d read =>
      obtain ⟨rfl, rfl⟩ := List.cons.inj hsplit
      exact ⟨read, rfl, rfl, by simpa using hseen⟩
  cases r with
  | none =>
    intro read rest hsplit hseen
    obtain ⟨read', -, hsplit', hseen'⟩ := later read rest hsplit hseen
    exact h read' rest hsplit' hseen'
  | some x =>
    obtain ⟨read, rfl, hn, hseen, hle⟩ := h
    refine ⟨c :: read, rfl, by simpa using hn, by simpa using hseen, fun read' rest' hsplit hseen' => ?_⟩
    obtain ⟨read', rfl, hsplit', hseen'⟩ := later read' rest' hsplit hseen'
    exact Nat.succ_le_succ (hle read' rest' hsplit' hseen')

theorem stops_afterBrace? (t : Text) : ∀ (done : Text) (seen : Bool), (seen = true ↔ Seen done t) →
    Stops done t (afterBrace? done.length seen t) := by
  induction t with
  | nil =>
    intro done seen _ read rest hsplit
    cases (List.append_eq_nil_iff.mp hsplit.symm).2
  | cons c t ih =>
    intro done seen hseen
    have hnext := fun seen' => ih (done ++ [c]) seen'
    rw [List.length_append, List.length_singleton] at hnext
    rw [afterBrace?]
    by_cases hbrace : c = '{'
    · have hlast := not_seen_of_ends (Or.inl hbrace) done t
      rw [if_pos hbrace]
      cases seen with
      | true =>
        rw [if_pos rfl]
        refine ⟨[], by rw [hbrace]; rfl, by simp, ?_, fun _ _ _ _ => Nat.zero_le _⟩
        rw [List.append_nil, ← hbrace]
        exact hseen.mp rfl
      | false =>
        rw [if_neg (by decide)]
        exact (hnext false (by simpa using hlast)).cons fun _ h => by simpa using hseen.mpr h
    · rw [if_neg hbrace]
      by_cases hline : c = '\n'
      · have hlast := not_seen_of_ends (Or.inr hline) done t
        rw [if_pos hline]
        exact (hnext false (by simpa using hlast)).cons fun h => absurd h hbrace
      · rw [if_neg hline]
        refine (hnext _ ?_).cons fun h => absurd h hbrace
        rw [Bool.or_eq_true, hseen, seen_append_singleton hbrace hline]

theorem Heads.exists_seen {source : Text} {start brace : Nat} (h : Heads source start brace) :
    ∃ read rest, source = read ++ '{' :: rest ∧ read.length = brace ∧ Seen read ('{' :: rest) := by
  have hheads := h
  obtain ⟨before, word, gap, rest, rfl, -, -, -, rfl, rfl⟩ := h
  refine ⟨before ++ (word ++ gap), rest, rfl, List.length_append, seen_iff_heads.mpr ⟨before.length, ?_⟩⟩
  rwa [← List.length_append] at hheads

theorem exists_firstHeads_of_stops {source rest : Text} {n : Nat} (h : Stops [] source (some (n, rest))) :
    ∃ start brace, FirstHeads source start brace ∧ n = brace + 1 ∧ rest = source.drop (brace + 1) := by
  obtain ⟨read, rfl, rfl, hseen, hle⟩ := h
  rw [List.nil_append] at hseen ⊢
  obtain ⟨start, hheads⟩ := seen_iff_heads.mp hseen
  obtain ⟨first, brace, hfirst, hbrace⟩ := hheads.exists_firstHeads
  obtain ⟨read', rest', hsplit, rfl, hseen'⟩ := hfirst.2.exists_seen
  have hlength := Nat.le_antisymm (hle read' rest' hsplit hseen') hbrace
  refine ⟨first, read'.length, hfirst, by rw [hlength], ?_⟩
  rw [← hlength, List.drop_length_add_append]
  rfl

/-- The pass stops after the brace of the first `:root` that has one. -/
theorem afterBrace?_eq_some_iff {source rest : Text} {n : Nat} : afterBrace? 0 false source = some (n, rest) ↔
    ∃ start brace, FirstHeads source start brace ∧ n = brace + 1 ∧ rest = source.drop (brace + 1) := by
  have hstops : Stops [] source (afterBrace? 0 false source) :=
    stops_afterBrace? source [] false (iff_of_false (by decide) (not_seen_nil source))
  constructor
  · intro h
    rw [h] at hstops
    exact exists_firstHeads_of_stops hstops
  · rintro ⟨start, brace, hfirst, rfl, rfl⟩
    cases hr : afterBrace? 0 false source with
    | none =>
      rw [hr] at hstops
      obtain ⟨read, rest, hsplit, -, hseen⟩ := hfirst.2.exists_seen
      exact absurd hseen (hstops read rest hsplit)
    | some x =>
      rw [hr] at hstops
      obtain ⟨start', brace', hfirst', hn, hrest⟩ := exists_firstHeads_of_stops hstops
      obtain ⟨-, rfl⟩ := hfirst.unique hfirst'
      exact congrArg some (Prod.ext hn hrest)

/-- The root block is the one of the first `:root` that has a brace, up to the next closing brace. -/
theorem block?_eq_some_iff {source : Text} {b : Block} : block? source = some b ↔
    ∃ start brace after, FirstHeads source start brace ∧ b.base = brace + 1 ∧
      source.drop b.base = b.body ++ '}' :: after ∧ '}' ∉ b.body := by
  constructor
  · intro h
    obtain ⟨before, after, henc, hbase⟩ := exists_encloses h
    obtain ⟨start, brace, hfirst, hlength, hrest⟩ := afterBrace?_eq_some_iff.mp henc.opens
    refine ⟨start, brace, after, hfirst, hbase.trans hlength, ?_, henc.brace⟩
    rw [hrest, hbase, hlength]
  · rintro ⟨start, brace, after, hfirst, hbase, hdrop, hbody⟩
    unfold block?
    rw [afterBrace?_eq_some_iff.mpr ⟨start, brace, hfirst, rfl, rfl⟩]
    dsimp only
    rw [← hbase, hdrop, if_pos (by simp), takeWhile_ne_brace hbody]

/-- There is no root block where no `:root` has a brace, or where that of the first one is not closed. -/
theorem block?_eq_none_iff {source : Text} : block? source = none ↔
    (∀ start brace, ¬ Heads source start brace) ∨
      ∃ start brace, FirstHeads source start brace ∧ '}' ∉ source.drop (brace + 1) := by
  constructor
  · intro h
    by_cases hheads : ∃ start brace, Heads source start brace
    · obtain ⟨start, brace, hheads⟩ := hheads
      obtain ⟨first, brace', hfirst, -⟩ := hheads.exists_firstHeads
      refine Or.inr ⟨first, brace', hfirst, fun hmem => ?_⟩
      obtain ⟨body, after, hdrop, hbody⟩ := List.eq_append_cons_of_mem hmem
      have hsome : block? source = some ⟨brace' + 1, body⟩ :=
        block?_eq_some_iff.mpr ⟨first, brace', after, hfirst, rfl, hdrop, hbody⟩
      rw [h] at hsome
      cases hsome
    · exact Or.inl fun start brace hh => hheads ⟨start, brace, hh⟩
  · intro h
    refine Option.eq_none_iff_forall_ne_some.mpr fun b hb => ?_
    obtain ⟨start, brace, after, hfirst, hbase, hdrop, -⟩ := block?_eq_some_iff.mp hb
    rcases h with h | ⟨start', brace', hfirst', hclose⟩
    · exact h start brace hfirst.2
    · obtain ⟨-, rfl⟩ := hfirst.unique hfirst'
      rw [← hbase, hdrop] at hclose
      exact hclose (by simp)

/-! ## The pattern -/

section

theorem forall_mem_bne_iff {c : Char} {t : Text} : (∀ d ∈ t, (d != c) = true) ↔ c ∉ t := by
  simp only [bne_iff_ne, ne_eq]
  exact ⟨fun h hmem => h c hmem rfl, fun h d hd e => h (e ▸ hd)⟩

variable {source t : Text} {offset start brace : Nat} {m : Capture.Match}

theorem takes_before_iff {x : Text} : rootPattern.before.Takes offset x ↔
    ∃ word gap, x = word ++ gap ++ ['{'] ∧ Text.lower word = rootWord ∧ '\n' ∉ gap := by
  rw [rootPattern, Pattern.takes_word_iff]
  constructor
  · rintro ⟨word, _, rfl, hword, gap, _, rfl, hgap, c, rfl, hc⟩
    obtain rfl : c = '{' := by simpa using hc
    exact ⟨word, gap, by simp, hword, forall_mem_bne_iff.mp hgap⟩
  · rintro ⟨word, gap, rfl, hword, hgap⟩
    exact ⟨word, gap ++ ['{'], by simp, hword, gap, ['{'], rfl, forall_mem_bne_iff.mpr hgap, '{', rfl, rfl⟩

/-- A reading may take any brace of the line for the one that opens the block. -/
theorem mem_readings_iff : m ∈ rootPattern.readings offset t ↔ ∃ word gap body after,
    t = word ++ gap ++ '{' :: (body ++ '}' :: after) ∧ Text.lower word = rootWord ∧ '\n' ∉ gap ∧ '}' ∉ body ∧
      m = ⟨offset + (word ++ gap ++ ['{']).length, body, (word ++ gap ++ ['{']).length + body.length + 1⟩ := by
  simp only [Capture.mem_readings, takes_before_iff]
  constructor
  · rintro ⟨_, body, _, after, rfl, ⟨word, gap, rfl, hword, hgap⟩, hbody, ⟨c, rfl, hc⟩, rfl⟩
    obtain rfl : c = '}' := by simpa using hc
    exact ⟨word, gap, body, after, by simp, hword, hgap, forall_mem_bne_iff.mp hbody, rfl⟩
  · rintro ⟨word, gap, body, after, rfl, hword, hgap, hbody, rfl⟩
    exact ⟨_, body, ['}'], after, by simp, ⟨word, gap, rfl, hword, hgap⟩, forall_mem_bne_iff.mpr hbody, ⟨'}', rfl, rfl⟩,
      rfl⟩

/-- The preferred reading takes the first brace: where that is not closed, no later one is. -/
theorem exists_of_mem_head? (h : m ∈ (rootPattern.readings offset t).head?) : ∃ word gap body after,
    t = word ++ gap ++ '{' :: (body ++ '}' :: after) ∧ Text.lower word = rootWord ∧ '\n' ∉ gap ∧ '{' ∉ gap ∧
      '}' ∉ body ∧ m.base = offset + (word ++ gap).length + 1 ∧ m.group = body := by
  obtain ⟨word, gap, body, after, rfl, hword, hgap, hbody, rfl⟩ := mem_readings_iff.mp (List.mem_of_mem_head? h)
  refine ⟨word, gap, body, after, rfl, hword, hgap, fun hbrace => ?_, hbody, by simp [Nat.add_assoc], rfl⟩
  obtain ⟨gap, skipped, rfl, -⟩ := List.eq_append_cons_of_mem hbrace
  have hmem : '}' ∈ skipped ++ '{' :: (body ++ '}' :: after) := by simp
  obtain ⟨body', after', hsplit, hbody'⟩ := List.eq_append_cons_of_mem hmem
  have hline : '\n' ∉ gap := fun hn => hgap (List.mem_append_left _ hn)
  have hskip : word ++ (gap ++ '{' :: skipped) ++ '{' :: (body ++ '}' :: after) =
      word ++ gap ++ '{' :: (body' ++ '}' :: after') := by
    rw [← hsplit]
    simp
  have hread := (@mem_readings_iff _ offset _).mpr ⟨word, gap, body', after', hskip, hword, hline, hbody', rfl⟩
  have hle := Capture.base_le_of_lazy ((Pattern.lazy_few_one _ _).word rootWord) h hread
  simp only [List.length_append, List.length_cons, List.length_nil] at hle
  omega

/-- Where the pattern is read, `:root` has a brace, and the group is the body after it. -/
theorem heads_of_mem_head? (h : m ∈ (rootPattern.readings start (source.drop start)).head?) :
    ∃ brace after, Heads source start brace ∧ m.base = brace + 1 ∧ source.drop m.base = m.group ++ '}' :: after ∧
      '}' ∉ m.group := by
  obtain ⟨word, gap, body, after, hdrop, hword, hgap, hbrace, hbody, hbase, rfl⟩ := exists_of_mem_head? h
  have hle : start ≤ source.length := by
    by_contra hlt
    rw [List.drop_of_length_le (Nat.le_of_not_le hlt)] at hdrop
    simp at hdrop
  have hlength : (source.take start).length = start := List.length_take_of_le hle
  have hsource : source = source.take start ++ (word ++ gap) ++ '{' :: (m.group ++ '}' :: after) := by
    rw [List.append_assoc, ← hdrop, List.take_append_drop]
  refine ⟨start + (word ++ gap).length, after, ⟨_, word, gap, _, hsource, hword, hgap, hbrace, hlength.symm, ?_⟩, hbase,
    ?_, hbody⟩
  · rw [hlength]
  · rw [hbase, Nat.add_assoc, ← List.drop_drop, hdrop, List.drop_length_add_append]
    rfl

theorem readings_ne_nil_of_heads (h : Heads source start brace) (hclose : '}' ∈ source.drop (brace + 1)) :
    rootPattern.readings start (source.drop start) ≠ [] := by
  obtain ⟨before, word, gap, rest, rfl, hword, hgap, -, rfl, rfl⟩ := h
  rw [← List.length_append, List.drop_length_add_append] at hclose
  obtain ⟨body, after, rfl, hbody⟩ := List.eq_append_cons_of_mem (show '}' ∈ rest from hclose)
  rw [List.append_assoc, List.drop_left]
  exact List.ne_nil_of_mem (mem_readings_iff.mpr ⟨word, gap, body, after, rfl, hword, hgap, hbody, rfl⟩)

/-- What the search comes to first is the root block. -/
theorem block?_eq_some_of_mem_search (h : m ∈ (rootPattern.search source).head?) :
    block? source = some ⟨m.base, m.group⟩ := by
  obtain ⟨start, -, hread, hnone⟩ := Capture.mem_head?_scan.mp h
  simp only [Nat.zero_add] at hread hnone
  obtain ⟨brace, after, hheads, hbase, hdrop, hbody⟩ := heads_of_mem_head? hread
  refine block?_eq_some_iff.mpr ⟨start, brace, after, ⟨⟨⟨brace, hheads⟩, ?_⟩, hheads⟩, hbase, hdrop, hbody⟩
  rintro p ⟨q, hq⟩
  by_contra hlt
  -- a `:root` before this one has an earlier brace, which is closed where this one is
  obtain ⟨k, hk⟩ := Nat.exists_eq_add_of_le (Nat.add_le_add_right (hq.mono hheads (Nat.le_of_not_le hlt)) 1)
  have hclose : '}' ∈ source.drop (q + 1) := by
    refine List.mem_of_mem_drop (i := k) ?_
    rw [List.drop_drop, ← hk, ← hbase, hdrop]
    simp
  exact readings_ne_nil_of_heads hq hclose (hnone p (Nat.lt_of_not_le hlt))

theorem exists_mem_search {b : Block} (h : block? source = some b) : ∃ m, m ∈ (rootPattern.search source).head? := by
  obtain ⟨start, brace, after, hfirst, hbase, hdrop, -⟩ := block?_eq_some_iff.mp h
  have hne := readings_ne_nil_of_heads hfirst.2 (by rw [← hbase, hdrop]; simp)
  obtain ⟨m, ms, hread⟩ := List.exists_cons_of_ne_nil hne
  have hlt : start < source.length := by
    have := (List.getElem?_eq_some_iff.mp hfirst.2.getElem?_brace).1
    have := hfirst.2.lt
    omega
  refine ⟨m, Capture.mem_head?_scan.mpr ⟨start, hlt, ?_, fun p hp => ?_⟩⟩
  · rw [Nat.zero_add, hread]
    rfl
  · rw [Nat.zero_add]
    by_contra hne
    obtain ⟨q, -, hheads, -⟩ := heads_of_mem_head? (List.head?_eq_some_head hne)
    exact absurd (hfirst.1.2 ⟨q, hheads⟩) (Nat.not_le_of_lt hp)

end

/-- The root block is the first match of a search for the pattern. Its brace is the first one after the earliest `:root`
    that has a brace later on its line, and its body runs from there to the next closing brace; there is none just where
    no `:root` has such a brace, or where that brace is not closed. -/
theorem block_exact (source : Text) :
    block? source = (rootPattern.search source).head?.map (fun m => ⟨m.base, m.group⟩) ∧
    (∀ b, block? source = some b ↔ ∃ start brace after, FirstHeads source start brace ∧ b.base = brace + 1 ∧
      source.drop b.base = b.body ++ '}' :: after ∧ '}' ∉ b.body) ∧
    (block? source = none ↔ (∀ start brace, ¬ Heads source start brace) ∨
      ∃ start brace, FirstHeads source start brace ∧ '}' ∉ source.drop (brace + 1)) := by
  refine ⟨?_, fun b => block?_eq_some_iff, block?_eq_none_iff⟩
  cases hsearch : (rootPattern.search source).head? with
  | some m => exact block?_eq_some_of_mem_search hsearch
  | none =>
    refine Option.eq_none_iff_forall_ne_some.mpr fun b hb => ?_
    obtain ⟨m, hm⟩ := exists_mem_search hb
    rw [hsearch] at hm
    cases hm

end Stylesheet.Declaration
