/-
  Stylesheet.Proofs.Occurrence.Renaming — what is found around a selector that gives way to another one.

  A list that follows an anchor is read from there, whatever it has, and nothing of it is left over after its brace
  (`scan_list`). So whatever name stands in the place of a selector, the other selectors are the same, those after it
  moved along (`exists_occurrences_append`), and they are the same without the blanks before the first of them
  (`occurrences_of_blank`).
-/

import Stylesheet.Proofs.Occurrence.Selector

namespace Stylesheet.Selector

/-! ## Lists -/

/-- What a pass finds in a text, and then in what follows it. -/
theorem scan_append (r : Reading) (a b : Text) :
    scan step r (a ++ b) = scan step r a ++ scan step ⟨r.offset + a.length, a.foldl extend r.list⟩ b := by
  induction a generalizing r with
  | nil => rfl
  | cons c a ih =>
    have hoffset : r.offset + (c :: a).length = r.offset + 1 + a.length := by
      rw [List.length_cons]
      omega
    rw [List.cons_append, scan_cons, scan_cons, ih, List.append_assoc, hoffset]
    rfl

theorem scan_of_notMem {r : Reading} {t : Text} (h : '{' ∉ t) : scan step r t = [] := by
  induction t generalizing r with
  | nil => rfl
  | cons c t ih =>
    obtain ⟨hc, ht⟩ := List.ne_and_not_mem_of_not_mem_cons h
    rw [scan_cons, ih ht, List.append_nil, step, if_neg (Ne.symm hc)]

theorem foldl_extend_listChars {list read : Text} (h : ∀ c ∈ list, isListChar c = true) :
    list.foldl extend (some read) = some (list.reverse ++ read) := by
  induction list generalizing read with
  | nil => rfl
  | cons c list ih =>
    have hc : c ≠ '}' := by
      rintro rfl
      exact absurd (h _ List.mem_cons_self) (by decide)
    have hextend : extend (some read) c = some (c :: read) := by
      rw [extend, if_neg hc, if_pos (h c List.mem_cons_self)]
    rw [List.foldl_cons, hextend, ih fun d hd => h d (List.mem_cons_of_mem _ hd)]
    simp

theorem list?_of_reverse (n : Nat) {list : Text} (h : list ≠ []) :
    (Reading.mk (n + list.length) (some list.reverse)).list? = some (n, list) := by
  obtain ⟨c, read, hread⟩ := List.exists_cons_of_ne_nil (mt List.reverse_eq_nil_iff.mp h)
  have hlength : list.length = read.length + 1 := by
    rw [← List.length_reverse, hread, List.length_cons]
  rw [hread, Reading.list?]
  dsimp only
  rw [← hread, List.reverse_reverse, hlength, Nat.add_sub_cancel]

/-- A list is found at its brace, and after that there is no anchor yet. -/
theorem scan_list {n : Nat} {list rest : Text} (hne : list ≠ []) (h : ∀ c ∈ list, isListChar c = true) :
    scan step ⟨n, some []⟩ (list ++ '{' :: rest) = (n, list) :: scan step ⟨n + list.length + 1, none⟩ rest := by
  have hbrace : '{' ∉ list := fun hmem => absurd (h _ hmem) (by decide)
  have hstep : step ⟨n + list.length, some list.reverse⟩ '{' rest = (⟨n + list.length + 1, none⟩, [(n, list)]) := by
    rw [step, if_pos rfl, list?_of_reverse n hne]
    rfl
  rw [scan_append, scan_of_notMem hbrace, List.nil_append, foldl_extend_listChars h, List.append_nil, scan_cons, hstep]
  rfl

def Reading.add (k : Nat) (r : Reading) : Reading := { r with offset := r.offset + k }

def Reading.Within (r : Reading) : Prop := ∀ l ∈ r.list, l.length ≤ r.offset

theorem Reading.list?_add {r : Reading} (h : r.Within) (k : Nat) :
    (r.add k).list? = r.list?.map fun x => (x.1 + k, x.2) := by
  obtain ⟨offset, list⟩ := r
  match list with
  | none => rfl
  | some [] => rfl
  | some (c :: read) =>
    have hle : read.length + 1 ≤ offset := h _ rfl
    have hoffset : offset + k - (read.length + 1) = offset - (read.length + 1) + k := by omega
    simp only [Reading.add, Reading.list?, Option.map_some, hoffset]

theorem step_within {r : Reading} (h : r.Within) (c : Char) (rest : Text) : (step r c rest).1.Within := by
  intro l hl
  show l.length ≤ r.offset + 1
  simp only [step, extend] at hl
  split at hl
  · obtain rfl := Option.some.inj hl
    simp
  · split at hl
    · split at hl
      · rename_i read hread
        obtain rfl := Option.some.inj hl
        have := h read hread
        simpa using this
      · split at hl
        · obtain rfl := Option.some.inj hl
          simp
        · cases hl
    · cases hl

/-- A pass that starts further on finds the same lists, moved along. -/
theorem scan_add_of_within {r : Reading} (hr : r.Within) (k : Nat) (t : Text) :
    scan step (r.add k) t = (scan step r t).map fun x => (x.1 + k, x.2) := by
  have hstep : ∀ (r : Reading) (c : Char) (rest : Text), r.Within →
      step (r.add k) (id c) (rest.map id) =
        ((step r c rest).1.add k, (step r c rest).2.map fun x => (x.1 + k, x.2)) ∧ (step r c rest).1.Within := by
    intro r c rest hr
    refine ⟨?_, step_within hr c rest⟩
    unfold step
    rw [Reading.list?_add hr]
    refine Prod.ext ?_ ?_
    · show Reading.mk (r.offset + k + 1) _ = ⟨r.offset + 1 + k, _⟩
      rw [Nat.add_right_comm]
      rfl
    · dsimp only [id]
      split
      · cases r.list? <;> rfl
      · rfl
  have hscan := scan_map_of (P := Reading.Within) (h := Reading.add k) hstep hr t
  rwa [List.map_id] at hscan

theorem scan_add (k n : Nat) (t : Text) :
    scan step ⟨n + k, none⟩ t = (scan step ⟨n, none⟩ t).map fun x => (x.1 + k, x.2) :=
  scan_add_of_within (r := ⟨n, none⟩) nofun k t

/-! ## Entries -/

theorem entry?_add (offset k : Nat) (entry : Text) :
    entry? (offset + k) entry = Option.map (Occurrence.shift k) ( entry? offset entry) := by
  unfold entry?
  dsimp only
  split
  · rfl
  · simp [Occurrence.shift]
    omega

theorem entries_add (base k : Nat) (list : Text) :
    entries (base + k) list = (entries base list).map (Occurrence.shift k) := by
  show (Text.pieces (base + k) ',' list).filterMap (fun x => entry? x.1 x.2) = _
  rw [Text.pieces_add, Occurrence.filterMap_add fun offset entry => entry?_add offset k entry]
  rfl

theorem flatMap_entries_add (k : Nat) (l : List (Nat × Text)) :
    (l.map fun x => (x.1 + k, x.2)).flatMap (fun x => entries x.1 x.2) =
      (l.flatMap fun x => entries x.1 x.2).map (Occurrence.shift k) := by
  rw [List.flatMap_map, List.map_flatMap]
  exact List.flatMap_congr fun x _ => entries_add x.1 k x.2

theorem entry?_of_isName {name w v : Text} (h : IsName name) (hw : Text.allBlank w = true)
    (hv : Text.allBlank v = true) (offset : Nat) :
    entry? offset (w ++ name ++ v) =
      some ⟨⟨.selector, .text name, false⟩, ↑(offset + w.length), name.length⟩ := by
  have htrim := Text.trim_eq hw hv h.trimmed
  have hindent := Text.indent_eq (b := v) hw h.ne_nil h.trimmed
  refine entry?_eq_some_iff.mpr ⟨?_, ?_⟩
  · rw [htrim, h.named]
  · rw [htrim, hindent]

/-! ## A name in its place -/

theorem lists_of_opens {start list rest : Text} (h : Opens start) (hne : list ≠ [])
    (hchar : ∀ c ∈ list, isListChar c = true) :
    lists (start ++ list ++ '{' :: rest) = scan step ⟨0, some []⟩ start ++
      (start.length, list) :: scan step ⟨start.length + list.length + 1, none⟩ rest := by
  rw [lists, List.append_assoc, scan_append, h, Nat.zero_add, scan_list hne hchar]

namespace Place

variable (p : Place)

def list (name : Text) : Text := p.left ++ (p.indent ++ name ++ p.pad) ++ p.right

theorem source_eq (name : Text) : p.before ++ name ++ p.after = p.start ++ p.list name ++ '{' :: p.rest := by
  simp [before, after, list]

variable {p} {name : Text}

theorem list_ne_nil (h : IsName name) : p.list name ≠ [] := by
  simp [list, h.ne_nil]

theorem list_char (h : IsName name) : ∀ c ∈ p.list name, isListChar c = true := by
  intro c hc
  have hplace := p.char c
  have hname := h.char c
  simp only [list, List.mem_append] at hc hplace
  tauto

theorem comma_notMem_of_allBlank {t : Text} (h : Text.allBlank t = true) : ',' ∉ t := by
  intro hmem
  exact absurd (Text.allBlank_iff.mp h ',' hmem) (by decide)

end Place

theorem entries_list (base : Nat) (p : Place) : ∃ l r : List Occurrence, ∀ name, IsName name →
    entries base (p.list name) =
      l ++ ⟨⟨.selector, .text name, false⟩, ↑(base + (p.left ++ p.indent).length), name.length⟩ ::
        r.map (Occurrence.shift name.length) := by
  obtain ⟨l, r, hpieces⟩ := @Text.exists_pieces_append base ',' _ _ p.left_comma p.right_comma
  refine ⟨l.filterMap fun x => entry? x.1 x.2,
    (r.filterMap fun x => entry? x.1 x.2).map (Occurrence.shift ↑(p.indent.length + p.pad.length)), fun name hname => ?_⟩
  have hcomma : ',' ∉ p.indent ++ name ++ p.pad := by
    simp [Place.comma_notMem_of_allBlank p.indent_blank, hname.comma, Place.comma_notMem_of_allBlank p.pad_blank]
  have hmoved : Occurrence.shift ↑(p.indent ++ name ++ p.pad).length =
      Occurrence.shift name.length ∘ Occurrence.shift ↑(p.indent.length + p.pad.length) := by
    funext o
    rw [Function.comp_apply, Occurrence.shift_shift]
    congr 1
    simp only [List.length_append]
    omega
  show (Text.pieces base ',' (p.left ++ (p.indent ++ name ++ p.pad) ++ p.right)).filterMap (fun x => entry? x.1 x.2) = _
  rw [hpieces _ hcomma, List.filterMap_append, List.filterMap_cons,
    entry?_of_isName hname p.indent_blank p.pad_blank,
    Occurrence.filterMap_add fun offset entry => entry?_add offset _ entry, List.map_map, hmoved,
    List.length_append, Nat.add_assoc]

/-- Whatever name stands in a place, the other selectors are the same, those after it moved along. -/
theorem exists_occurrences_append (p : Place) :
    ∃ l r : List Occurrence, ∀ name, IsName name → occurrences (p.before ++ name ++ p.after) =
      l ++ ⟨⟨.selector, .text name, false⟩, p.before.length, name.length⟩ :: r.map (Occurrence.shift name.length) := by
  obtain ⟨l, r, hentries⟩ := entries_list p.start.length p
  let n := p.start.length + (p.left ++ p.indent ++ (p.pad ++ p.right)).length + 1
  refine ⟨(scan step ⟨0, some []⟩ p.start).flatMap (fun x => entries x.1 x.2) ++ l,
    r ++ (scan step ⟨n, none⟩ p.rest).flatMap fun x => entries x.1 x.2, fun name hname => ?_⟩
  have hlength : p.start.length + (p.list name).length + 1 = n + name.length := by
    simp [Place.list, n]
    omega
  have hbefore : p.start.length + (p.left ++ p.indent).length = p.before.length := by
    simp [Place.before]
  show (lists _).flatMap (fun x => entries x.1 x.2) = _
  rw [p.source_eq, lists_of_opens p.opens (Place.list_ne_nil hname) (Place.list_char hname), hlength, scan_add,
    List.flatMap_append, List.flatMap_cons, flatMap_entries_add, hentries name hname, hbefore]
  simp

/-! ## Blanks before the first name -/

theorem entry?_indent {w : Text} (hw : Text.allBlank w = true) (offset : Nat) (t : Text) :
    entry? offset (w ++ t) = entry? (offset + w.length) t := by
  have htrim : Text.trim (w ++ t) = Text.trim t := by
    simpa using Text.trim_pad (t := t) (b := []) hw rfl
  unfold entry?
  dsimp only
  rw [htrim]
  split
  · rfl
  · rename_i hign
    have hne : Text.trim t ≠ [] := by
      intro hnil
      rw [hnil] at hign
      exact hign rfl
    obtain ⟨a, b, ht, ha, hb, hindent, htrimmed⟩ := Text.exists_trim t
    have hindent' : Text.indent (w ++ t) = w.length + Text.indent t := by
      conv_lhs => rw [ht]
      rw [← List.append_assoc, ← List.append_assoc, Text.indent_eq (by simp [hw, ha]) hne htrimmed, List.length_append,
        hindent]
    rw [hindent', Nat.add_assoc]

theorem entries_indent {w : Text} (hw : Text.allBlank w = true) (base : Nat) (t : Text) :
    entries base (w ++ t) = entries (base + w.length) t := by
  have hcomma := Place.comma_notMem_of_allBlank hw
  show (Text.pieces base ',' (w ++ t)).filterMap (fun x => entry? x.1 x.2) =
    (Text.pieces (base + w.length) ',' t).filterMap fun x => entry? x.1 x.2
  by_cases h : ',' ∈ t
  · obtain ⟨piece, t, rfl, hpiece⟩ := List.eq_append_cons_of_mem h
    have hoffset : base + (w ++ piece).length + 1 = base + w.length + piece.length + 1 := by
      rw [List.length_append]
      omega
    rw [← List.append_assoc, Text.pieces_append_cons (by simp [hcomma, hpiece]), Text.pieces_append_cons hpiece, hoffset,
      List.filterMap_cons, List.filterMap_cons, entry?_indent hw]
  · rw [Text.pieces_of_notMem (by simp [hcomma, h]), Text.pieces_of_notMem h, List.filterMap_cons, List.filterMap_cons,
      entry?_indent hw]

/-- Without blanks at the start of the text, its selectors are the same, moved back by them. -/
theorem occurrences_of_blank {p : Place} {name : Text} (h : IsName name) (hblank : Text.allBlank p.before = true) :
    occurrences (p.before ++ name ++ p.after) =
      (occurrences (name ++ p.after)).map (Occurrence.shift p.before.length) := by
  have hmem : ∀ c ∈ p.before, Text.isBlank c = true := Text.allBlank_iff.mp hblank
  -- an entry before this one would end in a comma, and a list before this one in a brace
  have hleft : p.left = [] := by
    rcases List.eq_nil_or_concat' p.left with hnil | ⟨left, c, hlast⟩
    · exact hnil
    · obtain rfl := p.left_comma c (by simp [hlast])
      exact absurd (hmem ',' (by simp [Place.before, hlast])) (by decide)
  have hbrace : '{' ∉ p.start := by
    intro hc
    exact absurd (hmem '{' (by simp [Place.before, hc])) (by decide)
  let t := name ++ p.pad ++ p.right
  have hsource : p.before ++ name ++ p.after = p.start ++ (p.indent ++ t) ++ '{' :: p.rest := by
    simp [Place.before, Place.after, hleft, t]
  have hsource' : name ++ p.after = [] ++ t ++ '{' :: p.rest := by
    simp [Place.after, t]
  have hlist : p.list name = p.indent ++ t := by
    simp [Place.list, hleft, t]
  have hne : t ≠ [] := by
    simp [t, h.ne_nil]
  have hchar := Place.list_char (p := p) h
  rw [hlist] at hchar
  have hlength : p.before.length = p.start.length + p.indent.length := by
    simp [Place.before, hleft]
  have hoffset : p.start.length + (p.indent ++ t).length + 1 = 0 + t.length + 1 + p.before.length := by
    rw [List.length_append, hlength]
    omega
  have hbase : p.start.length + p.indent.length = 0 + p.before.length := by omega
  rw [hsource, hsource']
  show (lists _).flatMap (fun x => entries x.1 x.2) = ((lists _).flatMap fun x => entries x.1 x.2).map _
  rw [lists_of_opens p.opens (by simp [hne]) hchar, @lists_of_opens [] _ _ rfl hne fun c hc => hchar c (by simp [hc]),
    scan_of_notMem hbrace, List.nil_append, scan_nil, List.nil_append, List.length_nil, List.flatMap_cons,
    List.flatMap_cons, hoffset, scan_add, flatMap_entries_add, entries_indent p.indent_blank, hbase, entries_add,
    List.map_append]

end Stylesheet.Selector
