/-
  Stylesheet.Proofs.Occurrence.Selector — selectors, and the lists they stand in.

  A list is a run of list characters between an anchor and an opening brace (`mem_lists`). A selector is one entry of
  such a list without the blanks around it (`exists_place`), so that it is fenced by commas, blanks, the anchor or the
  brace. Lists do not overlap, and neither do their entries (`pairwise_occurrences`).
-/

import Stylesheet.Occurrence.Selector
import Stylesheet.Proofs.Occurrence.Variable

namespace Stylesheet.Selector

/-! ## Lists -/

/-- A list starts right after this text: there is an anchor, and no list character is read since. -/
def Opens (before : Text) : Prop := before.foldl extend (some []) = some []

theorem reached_eq (read rest : Text) :
    reached step ⟨0, some []⟩ read rest = ⟨read.length, read.foldl extend (some [])⟩ := by
  refine reached_invariant (P := fun read (r : Reading) => r = ⟨read.length, read.foldl extend (some [])⟩) rfl ?_
    read rest
  intro read r c rest h
  rw [h, step, List.length_append, List.foldl_append]
  rfl

theorem extend_eq_some {s : Option Text} {c : Char} {l : Text} (h : extend s c = some l) :
    (l = [] ∧ (c = '}' ∨ c = '\n')) ∨ ∃ read, s = some read ∧ l = c :: read ∧ isListChar c = true := by
  unfold extend at h
  split at h
  · rename_i hc
    exact Or.inl ⟨(Option.some.inj h).symm, Or.inl hc⟩
  · split at h
    · rename_i hc
      split at h
      · rename_i read
        exact Or.inr ⟨read, rfl, (Option.some.inj h).symm, hc⟩
      · split at h
        · rename_i hn
          exact Or.inl ⟨(Option.some.inj h).symm, Or.inr hn⟩
        · cases h
    · cases h

/-- A list starts at the start of the text, after a closing brace or after a line end. -/
theorem Opens.anchored {before : Text} (h : Opens before) : ∀ c ∈ before.getLast?, c = '}' ∨ c = '\n' := by
  intro c hc
  obtain ⟨front, rfl⟩ := List.getLast?_eq_some_iff.mp hc
  rw [Opens, List.foldl_append] at h
  rcases extend_eq_some h with ⟨-, hanchor⟩ | ⟨read, -, hread, -⟩
  · exact hanchor
  · cases hread

/-- The list read so far has list characters only, and it stands where a list starts. -/
theorem exists_of_foldl_extend {read l : Text} (h : read.foldl extend (some []) = some l) :
    ∃ before, read = before ++ l.reverse ∧ Opens before ∧ ∀ c ∈ l, isListChar c = true := by
  induction read using List.reverseRecOn generalizing l with
  | nil =>
    obtain rfl := Option.some.inj h
    exact ⟨[], rfl, rfl, nofun⟩
  | append_singleton read c ih =>
    have hstep := h
    rw [List.foldl_append] at hstep
    rcases extend_eq_some hstep with ⟨rfl, -⟩ | ⟨l', hl', rfl, hc⟩
    · exact ⟨read ++ [c], by simp, h, nofun⟩
    · obtain ⟨before, rfl, hopens, hall⟩ := ih hl'
      refine ⟨before, by simp, hopens, ?_⟩
      intro d hd
      rcases List.mem_cons.mp hd with rfl | hd
      · exact hc
      · exact hall d hd

theorem mem_step {read rest list : Text} {c : Char} {base : Nat}
    (h : (base, list) ∈ (step (reached step ⟨0, some []⟩ read (c :: rest)) c rest).2) :
    c = '{' ∧ ∃ before, read = before ++ list ∧ base = before.length ∧ Opens before ∧ list ≠ [] ∧
      ∀ c ∈ list, isListChar c = true := by
  rw [reached_eq] at h
  simp only [step] at h
  split at h
  · rename_i hc
    rw [Option.mem_toList, Reading.list?] at h
    split at h
    · rename_i d l hl
      obtain ⟨rfl, rfl⟩ := Prod.mk.inj (Option.some.inj h)
      obtain ⟨before, hread, hopens, hall⟩ := exists_of_foldl_extend hl
      refine ⟨hc, before, hread, ?_, hopens, by simp, fun e he => hall e (List.mem_reverse.mp he)⟩
      rw [hread]
      simp
    · cases h
  · cases h

theorem mem_lists {source : Text} {base : Nat} {list : Text} (h : (base, list) ∈ lists source) :
    ∃ before after, source = before ++ list ++ '{' :: after ∧ base = before.length ∧ Opens before ∧ list ≠ [] ∧
      ∀ c ∈ list, isListChar c = true := by
  rw [lists, mem_scan] at h
  obtain ⟨read, c, rest, rfl, h⟩ := h
  obtain ⟨rfl, before, rfl, hbase, hopens, hne, hall⟩ := mem_step h
  exact ⟨before, rest, rfl, hbase, hopens, hne, hall⟩

theorem pairwise_lists (source : Text) : (lists source).Pairwise fun x y => x.1 + x.2.length < y.1 := by
  refine pairwise_scan (fun read c rest _ => ?_) fun read c mid d rest _ x hx y hy => ?_
  · rw [step]
    dsimp only
    split
    · cases Reading.list? _ with
      | none => exact List.Pairwise.nil
      | some l => exact List.pairwise_singleton _ _
    · exact List.Pairwise.nil
  · obtain ⟨rfl, before, hread, hbase, -⟩ := @mem_step _ _ x.2 _ x.1 hx
    obtain ⟨-, before', hread', hbase', -, -, hall⟩ := @mem_step _ _ y.2 _ y.1 hy
    have hbrace : '{' ∉ y.2 := fun hmem => absurd (hall _ hmem) (by decide)
    have hlen := congrArg List.length hread
    have hlen' := congrArg List.length hread'
    rw [← List.append_nil y.2, ← List.append_assoc] at hread'
    simp only [List.length_append, List.length_cons] at hlen hlen'
    rcases Text.append_cons_eq_append hread' hbrace with ⟨z, hz⟩ | ⟨z, hz, -⟩
    · have := congrArg List.length hz
      simp only [List.length_append] at this
      omega
    · have := congrArg List.length hz
      simp only [List.length_append, List.length_cons] at this
      omega

/-! ## Selectors -/

theorem entry?_eq_some_iff {offset : Nat} {entry : Text} {o : Occurrence} :
    entry? offset entry = some o ↔ isIgnored (Text.trim entry) = false ∧
      o = ⟨⟨.selector, .text (Text.trim entry), false⟩, ↑(offset + Text.indent entry), (Text.trim entry).length⟩ := by
  constructor
  · intro h
    unfold entry? at h
    dsimp only at h
    split at h
    · cases h
    · rename_i hign
      exact ⟨by simpa using hign, (Option.some.inj h).symm⟩
  · rintro ⟨hign, rfl⟩
    unfold entry?
    dsimp only
    rw [hign]
    rfl

/-- An ignored entry has letters and a colon only. -/
theorem isAlpha_or_eq_colon_of_isIgnored {entry : Text} (h : isIgnored entry = true) :
    ∀ c ∈ entry, c.isAlpha = true ∨ c = ':' := by
  have hall : ([[], [':', 'r', 'o', 'o', 't'], ['f', 'r', 'o', 'm'], ['t', 'o']] : List Text).all
      (fun entry => entry.all fun c => c.isAlpha || c == ':') = true := rfl
  intro c hc
  simpa using List.all_eq_true.mp (List.all_eq_true.mp hall entry (List.contains_iff_mem.mp h)) c hc

theorem entry?_within {offset : Nat} {entry : Text} {o : Occurrence} (h : entry? offset entry = some o) :
    offset ≤ o.offset ∧ o.stop ≤ ↑(offset + entry.length) := by
  obtain ⟨-, rfl⟩ := entry?_eq_some_iff.mp h
  have := Text.indent_add_length_trim_le entry
  simp only [Occurrence.stop]
  omega

theorem pairwise_entries (base : Nat) (list : Text) : (entries base list).Pairwise fun a b => a.stop ≤ b.offset := by
  refine List.pairwise_filterMap.mpr ((Text.pairwise_pieces base ',' list).imp fun {p q} hpq a ha b hb => ?_)
  have h1 := entry?_within ha
  have h2 := entry?_within hb
  omega

theorem pairwise_occurrences (source : Text) : (occurrences source).Pairwise fun a b => a.stop ≤ b.offset := by
  have within : ∀ {x : Nat × Text} {o : Occurrence}, o ∈ entries x.1 x.2 →
      (x.1 : Int) ≤ o.offset ∧ o.stop ≤ ↑(x.1 + x.2.length) := by
    intro x o ho
    obtain ⟨piece, hpiece, ho⟩ := List.mem_filterMap.mp ho
    have hstart := Text.start_le_of_mem_pieces hpiece
    have hstop := Text.stop_le_of_mem_pieces hpiece
    have := entry?_within ho
    omega
  refine List.pairwise_flatMap.mpr ⟨fun x _ => pairwise_entries x.1 x.2,
    (pairwise_lists source).imp fun {x y} hxy a ha b hb => ?_⟩
  have h1 := within ha
  have h2 := within hb
  omega

structure IsName (name : Text) : Prop where
  named : isIgnored name = false
  trimmed : Text.Trimmed name
  char : ∀ c ∈ name, isListChar c = true
  comma : ',' ∉ name

theorem IsName.ne_nil {name : Text} (h : IsName name) : name ≠ [] := by
  rintro rfl
  have := h.named
  revert this
  decide

/-- A place for a name in a selector list: after `start` the list begins, `left` and `right` are the other entries with
    the commas next to this one, and `indent` and `pad` are the blanks around the name. -/
structure Place where
  start : Text
  left : Text
  indent : Text
  pad : Text
  right : Text
  rest : Text
  opens : Opens start
  char : ∀ c ∈ left ++ indent ++ (pad ++ right), isListChar c = true
  left_comma : ∀ c ∈ left.getLast?, c = ','
  right_comma : ∀ c ∈ right.head?, c = ','
  indent_blank : Text.allBlank indent = true
  pad_blank : Text.allBlank pad = true

namespace Place

def before (p : Place) : Text := p.start ++ p.left ++ p.indent

def after (p : Place) : Text := p.pad ++ p.right ++ '{' :: p.rest

/-- After the blanks a comma follows, or the brace. -/
theorem exists_after (p : Place) : ∃ c rest, p.after = p.pad ++ c :: rest ∧ (c = ',' ∨ c = '{') := by
  cases hright : p.right with
  | nil => exact ⟨'{', p.rest, by simp [after, hright], Or.inr rfl⟩
  | cons c right =>
    exact ⟨c, right ++ '{' :: p.rest, by simp [after, hright], Or.inl (p.right_comma c (by simp [hright]))⟩

theorem fenced (p : Place) : Variable.Fenced p.before p.after := by
  refine ⟨fun c hc => ?_, fun c hc => ?_⟩
  · rw [before] at hc
    rcases Text.mem_getLast?_append hc with hc | hc
    · exact Variable.isReferenceChar_eq_false_of_isBlank
        (Text.allBlank_iff.mp p.indent_blank c (List.mem_of_getLast? hc))
    rcases Text.mem_getLast?_append hc with hc | hc
    · rw [p.left_comma c hc]
      decide
    · rcases p.opens.anchored c hc with rfl | rfl <;> decide
  · obtain ⟨d, rest, hafter, hd⟩ := p.exists_after
    rw [hafter] at hc
    rcases Text.mem_head?_append hc with hc | hc
    · exact Variable.isReferenceChar_eq_false_of_isBlank (Text.allBlank_iff.mp p.pad_blank c (List.mem_of_head? hc))
    · obtain rfl := Option.some.inj hc
      rcases hd with rfl | rfl <;> decide

end Place

/-- The trimmed text of an entry in its place: it has list characters only. -/
theorem exists_of_mem_pieces {source list entry : Text} {base offset : Nat} (hl : (base, list) ∈ lists source)
    (he : (offset, entry) ∈ Text.pieces base ',' list) :
    ∃ p : Place, source = p.before ++ Text.trim entry ++ p.after ∧ p.before.length = offset + Text.indent entry ∧
      (∀ c ∈ Text.trim entry, isListChar c = true) ∧ ',' ∉ Text.trim entry := by
  obtain ⟨start, rest, rfl, rfl, hopens, -, hall⟩ := mem_lists hl
  obtain ⟨left, right, rfl, rfl, hcomma, hleft, hright⟩ := Text.mem_pieces he
  obtain ⟨indent, pad, hentry, hindent, hpad, hlength, -⟩ := Text.exists_trim entry
  have hmem : ∀ c ∈ indent ++ Text.trim entry ++ pad, c ∈ entry := by
    intro c hc
    rwa [hentry]
  refine ⟨⟨start, left, indent, pad, right, rest, hopens, fun c hc => ?_, hleft, hright, hindent, hpad⟩, ?_, ?_, ?_, ?_⟩
  · refine hall c ?_
    simp only [List.mem_append] at hc hmem ⊢
    grind
  · simp only [Place.before, Place.after]
    conv_lhs => rw [hentry]
    simp
  · simp [Place.before, ← hlength]
    omega
  · intro c hc
    exact hall c (by simp [hmem c (by simp [hc])])
  · exact fun hc => hcomma (hmem _ (by simp [hc]))

theorem exists_place {source : Text} {o : Occurrence} (h : o ∈ occurrences source) :
    ∃ (p : Place) (name : Text), IsName name ∧ o.Placed source p.before name p.after ∧
      o.part = ⟨.selector, .text name, false⟩ := by
  obtain ⟨⟨base, list⟩, hl, h⟩ := List.mem_flatMap.mp h
  obtain ⟨⟨offset, entry⟩, he, h⟩ := List.mem_filterMap.mp h
  obtain ⟨hign, rfl⟩ := entry?_eq_some_iff.mp h
  obtain ⟨p, hs, hoffset, hchar, hcomma⟩ := exists_of_mem_pieces hl he
  exact ⟨p, Text.trim entry, ⟨hign, Text.trimmed_trim entry, hchar, hcomma⟩,
    ⟨hs, congrArg Int.ofNat hoffset.symm, rfl⟩, rfl⟩

/-- Between two selectors the comma or the brace after the first of them stands. -/
theorem pairwise_parted (source : Text) : (occurrences source).Pairwise (Occurrence.Parted source) := by
  refine (pairwise_occurrences source).imp_of_mem fun {a b} ha hb hab => ?_
  obtain ⟨p, name, -, hplaced, -⟩ := exists_place ha
  obtain ⟨q, name', hname', hplaced', -⟩ := exists_place hb
  obtain ⟨c, rest, hafter, hc⟩ := p.exists_after
  have hstop := hplaced.stop_eq
  have hoffset' := hplaced'.offset_eq
  have hget : ∀ i, source[p.before.length + name.length + i]? = (p.pad ++ c :: rest)[i]? := by
    intro i
    rw [hplaced.source_eq, Text.getElem?_after, hafter]
  have hblank : Text.isBlank c = false := by
    rcases hc with rfl | rfl <;> decide
  refine ⟨p.before.length + name.length + p.pad.length, c, ?_, hblank, by omega, ?_⟩
  · rw [hget]
    simp
  · by_contra hle
    obtain ⟨d, t, rfl⟩ := List.exists_cons_of_ne_nil hname'.ne_nil
    obtain ⟨k, hk⟩ : ∃ k, q.before.length = p.before.length + name.length + k :=
      Nat.exists_eq_add_of_le (by omega)
    have hd : (p.pad ++ c :: rest)[k]? = some d := by
      rw [← hget, ← hk, hplaced'.source_eq]
      simp
    by_cases hlt : k < p.pad.length
    · rw [List.getElem?_append_left hlt] at hd
      have hpad := Text.allBlank_iff.mp p.pad_blank d (List.mem_of_getElem? hd)
      rw [hname'.trimmed.head d rfl] at hpad
      cases hpad
    · obtain rfl : k = p.pad.length := by omega
      obtain rfl : c = d := by simpa using hd
      rcases hc with rfl | rfl
      · exact hname'.comma List.mem_cons_self
      · exact absurd (hname'.char _ List.mem_cons_self) (by decide)

end Stylesheet.Selector
