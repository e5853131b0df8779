/-
  Stylesheet.Proofs.Occurrence.Moving — what is found around a declaration that gives way to another one.

  Whatever declaration stands in a piece of the root block, the other properties are the same, those after it moved
  along (`Declaration.exists_occurrences_append`). So are the references before it and after it, and a reference next
  to it keeps its mark if the last character of the declaration stays (`Variable.mem_of_stop_le`,
  `Variable.shift_mem_of_le_offset`).
-/

import Stylesheet.Proofs.Occurrence.Spelling

namespace Stylesheet

/-- What is found once `o` gives way to `o'`: what was found apart from it, moved along if it comes after it, and
    besides `o'` itself nothing but what starts inside that. -/
structure Moves (o o' : Occurrence) (found found' : List Occurrence) : Prop where
  left : ∀ f ∈ found, f.stop ≤ o.offset → f ∈ found'
  right : ∀ f ∈ found, o.stop ≤ f.offset → f.shift (o'.length - o.length) ∈ found'
  back : ∀ f ∈ found', f = o' ∨ (f ∈ found ∧ f.stop ≤ o.offset) ∨
    (∃ g ∈ found, o.stop ≤ g.offset ∧ f = g.shift (o'.length - o.length)) ∨ (o'.offset < f.offset ∧ f.offset < o'.stop)

/-- Where one of some occurrences that follow one another grows or shrinks, those after it are moved along. -/
theorem moves_of_pairwise {l r : List Occurrence} {o o' : Occurrence} (hpos : 0 < o.length)
    (hlength : ∀ f ∈ l ++ o :: r, 0 ≤ f.length) (h : (l ++ o :: r).Pairwise fun a b => a.stop ≤ b.offset) :
    Moves o o' (l ++ o :: r) (l ++ o' :: r.map (Occurrence.shift (o'.length - o.length))) := by
  obtain ⟨-, hcons, hl⟩ := List.pairwise_append.mp h
  have hbefore : ∀ f ∈ l, f.stop ≤ o.offset := fun f hf => hl f hf o (by simp)
  have hafter : ∀ f ∈ r, o.stop ≤ f.offset := (List.pairwise_cons.mp hcons).1
  have hstop : o.offset < o.stop := by
    rw [Occurrence.stop]
    omega
  have hle : ∀ f ∈ l ++ o :: r, f.offset ≤ f.stop := by
    intro f hf
    have := hlength f hf
    rw [Occurrence.stop]
    omega
  refine ⟨fun f hf hlt => ?_, fun f hf hlt => ?_, fun f hf => ?_⟩
  · have := hle f hf
    rcases List.mem_append.mp hf with hf | hf
    · exact List.mem_append_left _ hf
    rcases List.mem_cons.mp hf with rfl | hf
    · omega
    · have := hafter f hf
      omega
  · have := hle f hf
    rcases List.mem_append.mp hf with hf | hf
    · have := hbefore f hf
      omega
    rcases List.mem_cons.mp hf with rfl | hf
    · omega
    · exact List.mem_append_right _ (List.mem_cons_of_mem _ (List.mem_map_of_mem hf))
  · rcases List.mem_append.mp hf with hf | hf
    · exact Or.inr (Or.inl ⟨List.mem_append_left _ hf, hbefore f hf⟩)
    rcases List.mem_cons.mp hf with rfl | hf
    · exact Or.inl rfl
    · obtain ⟨g, hg, rfl⟩ := List.mem_map.mp hf
      exact Or.inr (Or.inr (Or.inl ⟨g, by simp [hg], hafter g hg, rfl⟩))

/-! ## Properties -/

namespace Declaration

def occurrenceAt (offset : Nat) (span : Text) (p : Property) : Occurrence :=
  ⟨⟨.property, .property p, false⟩, offset, span.length⟩

theorem occurrence?_add (offset k : Nat) (piece : Text) :
    occurrence? (offset + k) piece = (occurrence? offset piece).map (Occurrence.shift k) := by
  rw [occurrence?, occurrence?, Option.map_map]
  congr 1
  funext p
  simp [Occurrence.shift]
  omega

theorem occurrence?_of_declares {span w v : Text} {p : Property} (h : Declares span p) (hw : Text.allBlank w = true)
    (hv : Text.allBlank v = true) (offset : Nat) :
    occurrence? offset (w ++ span ++ v) = some (occurrenceAt (offset + w.length) span p) := by
  rw [occurrence?, property?_pad hw hv, h.property_eq, Text.trim_eq hw hv h.trimmed,
    Text.indent_eq hw (ne_nil_of_property? h.property_eq) h.trimmed]
  rfl

/-- An occurrence stands between blanks in a piece of the root block, and so does any declaration in its place. -/
theorem exists_piece {before span after : Text} {o : Occurrence} (ho : o ∈ occurrences (before ++ span ++ after))
    (hplaced : o.Placed (before ++ span ++ after) before span after) :
    ∃ start x w v y rest, before = start ++ '{' :: x ++ w ∧ Text.allBlank w = true ∧ Text.allBlank v = true ∧
      (∀ c ∈ x.getLast?, c = ';') ∧ (∀ c ∈ y.head?, c = ';') ∧ ∀ t p, Declares t p → ';' ∉ w ++ t ++ v ∧
        Encloses start (x ++ (w ++ t ++ v) ++ y) rest (before ++ t ++ after) := by
  obtain ⟨⟨offset, piece⟩, hpiece, hocc⟩ := List.mem_filterMap.mp ho
  rcases pieces_eq_nil_or_exists_encloses (before ++ span ++ after) with hnil | ⟨start, body, rest, henc⟩
  · rw [hnil] at hpiece
    cases hpiece
  rw [pieces_of_encloses henc] at hpiece
  obtain ⟨x, y, rfl, rfl, hsemi, hx, hy⟩ := Text.mem_pieces hpiece
  have hsource : before ++ span ++ after = (start ++ '{' :: x) ++ piece ++ (y ++ '}' :: rest) := by
    rw [henc.source_eq]
    simp
  have hbase : start.length + 1 + x.length = (start ++ '{' :: x).length := by simp; omega
  rw [hbase] at hocc
  obtain ⟨w, v, p, hsplit, hw, hv, hplaced', -⟩ := placed_of_piece hsource hocc
  obtain ⟨rfl, -, rfl⟩ := hplaced.unique hplaced'
  have hbrace := henc.brace
  rw [hsplit] at hbrace hsemi
  simp only [List.mem_append, not_or] at hbrace hsemi
  refine ⟨start, x, w, v, y, rest, rfl, hw, hv, hx, hy, fun t q ht => ⟨by simp [hsemi, ht.semicolon], ?_⟩⟩
  have hbody : '}' ∉ x ++ (w ++ t ++ v) ++ y := by simp [hbrace, ht.brace]
  have henc' : Encloses start (x ++ (w ++ t ++ v) ++ y) rest _ := henc.of_lower_eq rfl hbody
  rwa [show start ++ '{' :: (x ++ (w ++ t ++ v) ++ y ++ '}' :: rest) =
    start ++ '{' :: x ++ w ++ t ++ (v ++ (y ++ '}' :: rest)) by simp] at henc'

/-- Whatever declaration stands in the place of an occurrence, the other properties are the same, those after it moved
    along. -/
theorem exists_occurrences_append {before span after : Text} {o : Occurrence}
    (ho : o ∈ occurrences (before ++ span ++ after)) (hplaced : o.Placed (before ++ span ++ after) before span after) :
    ∃ l r : List Occurrence, ∀ t p, Declares t p →
      occurrences (before ++ t ++ after) =
        l ++ occurrenceAt before.length t p :: r.map (Occurrence.shift t.length) := by
  obtain ⟨start, x, w, v, y, rest, rfl, hw, hv, hx, hy, hencloses⟩ := exists_piece ho hplaced
  obtain ⟨l, r, hpieces⟩ := @Text.exists_pieces_append (start.length + 1) _ _ _ hx hy
  refine ⟨l.filterMap fun x => occurrence? x.1 x.2,
    (r.filterMap fun x => occurrence? x.1 x.2).map (Occurrence.shift ↑(w.length + v.length)), fun t p ht => ?_⟩
  obtain ⟨hsemi, henc⟩ := hencloses t p ht
  have hbase : start.length + 1 + x.length + w.length = (start ++ '{' :: x ++ w).length := by simp; omega
  have hmoved : Occurrence.shift ↑(w ++ t ++ v).length =
      Occurrence.shift t.length ∘ Occurrence.shift ↑(w.length + v.length) := by
    funext f
    rw [Function.comp_apply, Occurrence.shift_shift]
    congr 1
    simp only [List.length_append]
    omega
  change (pieces _).filterMap (fun x => occurrence? x.1 x.2) = _
  rw [pieces_of_encloses henc, hpieces _ hsemi, List.filterMap_append, List.filterMap_cons,
    occurrence?_of_declares ht hw hv, Occurrence.filterMap_add fun offset piece => occurrence?_add offset _ piece,
    hbase, List.map_map, hmoved]

theorem length_nonneg {source : Text} {f : Occurrence} (h : f ∈ occurrences source) : 0 ≤ f.length := by
  obtain ⟨_, _, _, _, hplaced, -⟩ := exists_of_mem_occurrences h
  have := hplaced.length_eq
  omega

/-- Where a declaration gives way to another one, the other properties stay apart from it. -/
theorem moves {before span after t : Text} {p q : Property} (hspan : Declares span p) (ht : Declares t q)
    (ho : occurrenceAt before.length span p ∈ occurrences (before ++ span ++ after)) :
    Moves (occurrenceAt before.length span p) (occurrenceAt before.length t q) (occurrences (before ++ span ++ after))
      (occurrences (before ++ t ++ after)) := by
  obtain ⟨l, r, hfound⟩ := exists_occurrences_append ho ⟨rfl, rfl, rfl⟩
  have hlength : ∀ f ∈ occurrences (before ++ span ++ after), 0 ≤ f.length := fun f => length_nonneg
  have hpairwise := pairwise_occurrences (before ++ span ++ after)
  have hmoved : r.map (Occurrence.shift t.length) =
      (r.map (Occurrence.shift span.length)).map (Occurrence.shift (t.length - span.length)) := by
    rw [List.map_map]
    refine List.map_congr_left fun f _ => ?_
    rw [Function.comp_apply, Occurrence.shift_shift]
    congr 1
    omega
  rw [hfound span p hspan] at hlength hpairwise ⊢
  rw [hfound t q ht, hmoved]
  refine moves_of_pairwise ?_ hlength hpairwise
  have := List.length_pos_of_ne_nil (ne_nil_of_property? hspan.property_eq)
  exact Int.natCast_pos.mpr this

end Declaration

/-! ## References -/

namespace Variable

variable {before span after span' : Text} {o : Occurrence}

/-- A reference before a fenced stretch stays, whatever the stretch gives way to. -/
theorem mem_of_stop_le (hf : Fenced before after) (ho : o ∈ occurrences (before ++ span ++ after))
    (hstop : o.stop ≤ before.length) : o ∈ occurrences (before ++ span' ++ after) := by
  obtain ⟨a, word, name, b, href, hplaced, hpart⟩ := mem_occurrences.mp ho
  have hlength := hplaced.stop_eq
  obtain ⟨gap, hgap, hb⟩ : ∃ gap, before = a ++ spell word name ++ gap ∧ b = gap ++ (span ++ after) := by
    have hs := hplaced.source_eq
    rw [List.append_assoc before] at hs
    exact Text.exists_append_of_length_le hs.symm (by rw [List.length_append]; omega)
  -- the last character of the reference does not touch the fence, so that what follows it stays
  have hne : gap ≠ [] := by
    rintro rfl
    have hlast : ')' ∈ before.getLast? := by
      rw [hgap, List.append_nil, spell, ← List.append_assoc, List.getLast?_concat]
      rfl
    have := hf.left _ hlast
    revert this
    decide
  obtain ⟨c, gap, rfl⟩ := List.exists_cons_of_ne_nil hne
  refine mem_occurrences.mpr ⟨a, word, name, c :: gap ++ (span' ++ after), href, ⟨?_, hplaced.offset_eq,
    hplaced.length_eq⟩, ?_⟩
  · rw [hgap]
    simp
  · rw [hpart, hb]
    rfl

/-- A reference after a fenced stretch is moved along, with its mark if the stretch keeps its last character. -/
theorem shift_mem_of_le_offset (hf : Fenced before after) (hlast : span.getLast? = span'.getLast?)
    (ho : o ∈ occurrences (before ++ span ++ after)) (hoffset : ↑(before.length + span.length) ≤ o.offset) :
    o.shift (span'.length - span.length) ∈ occurrences (before ++ span' ++ after) := by
  obtain ⟨a, word, name, b, href, hplaced, hpart⟩ := mem_occurrences.mp ho
  have hstart := hplaced.offset_eq
  obtain ⟨gap, ha, hgap⟩ : ∃ gap, a = before ++ span ++ gap ∧ after = gap ++ (spell word name ++ b) := by
    have hs := hplaced.source_eq
    rw [List.append_assoc a] at hs
    exact Text.exists_append_of_length_le hs (by rw [List.length_append]; omega)
  have hne : gap ≠ [] := by
    rintro rfl
    obtain ⟨c, word', rfl⟩ := List.exists_cons_of_length_eq_add_one href.length_word
    have := hf.right c (by simp [hgap, spell])
    rw [href.isReferenceChar_of_mem (by simp [spell])] at this
    cases this
  obtain ⟨gap, c, rfl⟩ := (List.eq_nil_or_concat' gap).resolve_left hne
  have hescaped : isEscaped (before ++ span' ++ (gap ++ [c])) b = isEscaped a b := by
    rw [ha, isEscaped, isEscaped, ← List.append_assoc, ← List.append_assoc, List.dropLast_concat, List.dropLast_concat]
    simp only [List.getLast?_append, hlast]
  refine mem_occurrences.mpr ⟨before ++ span' ++ (gap ++ [c]), word, name, b, href, ⟨?_, ?_, hplaced.length_eq⟩, ?_⟩
  · rw [hgap]
    simp
  · rw [Occurrence.shift_offset, hstart, ha]
    simp only [List.length_append]
    omega
  · rw [Occurrence.shift_part, hpart, hescaped]

/-- Where a fenced stretch gives way to one that starts with no letter and ends in the same character, the references
    around it stay apart from it. -/
theorem moves {o o' : Occurrence} (hf : Fenced before after) (hlast : span.getLast? = span'.getLast?)
    (hhead : ∃ c t, span' = c :: t ∧ c.isAlpha = false) (ho : o.Placed (before ++ span ++ after) before span after)
    (ho' : o'.Placed (before ++ span' ++ after) before span' after) :
    Moves o o' (occurrences (before ++ span ++ after)) (occurrences (before ++ span' ++ after)) := by
  have hoffset := ho.offset_eq
  have hstop := ho.stop_eq
  have hoffset' := ho'.offset_eq
  have hstop' := ho'.stop_eq
  have hd : o'.length - o.length = (span'.length - span.length : Int) := by rw [ho.length_eq, ho'.length_eq]
  refine ⟨fun f hf' hle => ?_, fun f hf' hle => ?_, fun f hf' => ?_⟩
  · exact mem_of_stop_le hf hf' (by omega)
  · rw [hd]
    exact shift_mem_of_le_offset hf hlast hf' (by omega)
  · obtain ⟨a, word, name, b, href, hplaced, -⟩ := mem_occurrences.mp hf'
    have hfoffset := hplaced.offset_eq
    have hfstop := hplaced.stop_eq
    rcases inside_or_apart rfl hf href hplaced.source_eq with h | h | ⟨h1, h2⟩
    · exact Or.inr (Or.inl ⟨mem_of_stop_le hf hf' (by omega), by omega⟩)
    · refine Or.inr (Or.inr (Or.inl ⟨_, shift_mem_of_le_offset hf hlast.symm hf' (by omega), ?_, ?_⟩))
      · rw [Occurrence.shift_offset]
        omega
      · have hback : (span.length - span'.length + (span'.length - span.length) : Int) = 0 := by omega
        rw [hd, Occurrence.shift_shift, hback, Occurrence.shift_zero]
    · have hne : before.length ≠ a.length := by
        intro heq
        obtain ⟨c, t, rfl, hc⟩ := hhead
        obtain ⟨d, word', rfl⟩ := List.exists_cons_of_length_eq_add_one href.length_word
        have hs := hplaced.source_eq
        rw [List.append_assoc, List.append_assoc] at hs
        have hcd := (List.cons.inj (List.append_inj hs heq).2).1
        have halpha := href.isAlpha_of_mem_word (List.mem_cons_self)
        rw [← hcd, hc] at halpha
        cases halpha
      refine Or.inr (Or.inr (Or.inr ⟨by omega, ?_⟩))
      have := href.length_spell
      omega

end Variable

end Stylesheet
