/-
  Stylesheet.Proofs.Occurrence.Declaration — properties, and the root block they are declared in.

  A declaration is a name and a value parted by its first colon (`property?_eq_some_iff`); blanks around it do not
  count, and neither does the way in which it is spelled: written out again it declares the same property
  (`property?_declaration`) and may stand in the same place (`Declares.declaration`). An occurrence is the trimmed text
  of a piece of the root block, so that blanks and then a brace or a semicolon stand on either side of it
  (`exists_of_mem_occurrences`).
-/

import Stylesheet.Occurrence.Declaration
import Stylesheet.Proofs.Occurrence.Variable

namespace Stylesheet.Declaration

/-! ## One declaration -/

theorem property?_of_notMem {t : Text} (h : ':' ∉ t) : property? t = none := by
  have : t.dropWhile (· ≠ ':') = [] := by
    rw [List.dropWhile_eq_nil_iff]
    intro c hc
    simpa using fun e : c = ':' => h (e ▸ hc)
  rw [property?, this]
  simp [Text.trim, Text.trimStart, Text.trimEnd]

theorem ne_nil_of_property? {t : Text} {p : Property} (h : property? t = some p) : t ≠ [] := by
  rintro rfl
  rw [property?_of_notMem (by simp)] at h
  cases h

theorem property?_append_colon {n v : Text} (h : ':' ∉ n) :
    property? (n ++ ':' :: v) =
      if (Text.trim n).isEmpty || (Text.trim v).isEmpty then none else some ⟨undashed (Text.trim n), Text.trim v⟩ := by
  have hn : ∀ c ∈ n, (decide (c ≠ ':')) = true := by
    intro c hc
    simpa using fun e : c = ':' => h (e ▸ hc)
  rw [property?, List.takeWhile_append_of_pos hn, List.dropWhile_append_of_pos hn]
  simp

theorem property?_eq_some_iff {t : Text} {p : Property} :
    property? t = some p ↔ ∃ n v, t = n ++ ':' :: v ∧ ':' ∉ n ∧ Text.trim n ≠ [] ∧ Text.trim v ≠ [] ∧
      p = ⟨undashed (Text.trim n), Text.trim v⟩ := by
  constructor
  · intro h
    by_cases hc : ':' ∈ t
    · obtain ⟨n, v, rfl, hn⟩ := List.eq_append_cons_of_mem hc
      rw [property?_append_colon hn] at h
      split at h
      · cases h
      · rename_i hne
        simp only [Bool.or_eq_true, List.isEmpty_iff, not_or] at hne
        exact ⟨n, v, rfl, hn, hne.1, hne.2, (Option.some.inj h).symm⟩
    · rw [property?_of_notMem hc] at h
      cases h
  · rintro ⟨n, v, rfl, hn, hname, hvalue, rfl⟩
    rw [property?_append_colon hn, if_neg]
    simp [hname, hvalue]

theorem colon_notMem_of_allBlank {t : Text} (h : Text.allBlank t = true) : ':' ∉ t :=
  fun hc => absurd (Text.allBlank_iff.mp h _ hc) (by decide)

theorem property?_pad {a t b : Text} (ha : Text.allBlank a = true) (hb : Text.allBlank b = true) :
    property? (a ++ t ++ b) = property? t := by
  by_cases hc : ':' ∈ t
  · obtain ⟨n, v, rfl, hn⟩ := List.eq_append_cons_of_mem hc
    have han : ':' ∉ a ++ n := by simp [colon_notMem_of_allBlank ha, hn]
    have hname : Text.trim (a ++ n) = Text.trim n := by simpa using Text.trim_pad (t := n) ha (b := []) rfl
    have hvalue : Text.trim (v ++ b) = Text.trim v := by simpa using Text.trim_pad (a := []) (t := v) rfl hb
    rw [property?_append_colon hn, show a ++ (n ++ ':' :: v) ++ b = (a ++ n) ++ ':' :: (v ++ b) by simp,
      property?_append_colon han, hname, hvalue]
  · rw [property?_of_notMem hc, property?_of_notMem]
    simp [colon_notMem_of_allBlank ha, colon_notMem_of_allBlank hb, hc]

theorem property?_trim (t : Text) : property? (Text.trim t) = property? t := by
  obtain ⟨a, b, ht, ha, hb, -, -⟩ := Text.exists_trim t
  conv_rhs => rw [ht]
  exact (property?_pad ha hb).symm

theorem undashed_suffix (t : Text) : undashed t <:+ t := by
  unfold undashed
  split
  · exact (List.suffix_cons _ _).trans (List.suffix_cons _ _)
  · exact List.suffix_rfl

/-- What every declared property has: no colon and no blank at the end of its name, and a trimmed value. -/
structure Writable (p : Property) : Prop where
  colon : ':' ∉ p.name
  name_last : ∀ c ∈ p.name.getLast?, Text.isBlank c = false
  value_ne : p.value ≠ []
  value_trimmed : Text.Trimmed p.value

theorem writable_of_property? {t : Text} {p : Property} (h : property? t = some p) : Writable p := by
  obtain ⟨n, v, rfl, hn, hname, hvalue, rfl⟩ := property?_eq_some_iff.mp h
  obtain ⟨a, b, hna, -, -, -, htrim⟩ := Text.exists_trim n
  have hsuf := undashed_suffix (Text.trim n)
  refine ⟨fun hc => hn ?_, fun c hc => htrim.last c ?_, hvalue, Text.trimmed_trim v⟩
  · rw [hna]
    simp [hsuf.subset hc]
  · obtain ⟨d, hd⟩ := hsuf
    rw [← hd, List.getLast?_append]
    simp [Option.mem_def.mp hc]

theorem mem_declaration {t : Text} {p : Property} (h : property? t = some p) {c : Char} (hc : c ∈ p.declaration) :
    c ∈ t ∨ c = '-' ∨ c = ':' ∨ c = ' ' := by
  obtain ⟨n, v, rfl, -, -, -, rfl⟩ := property?_eq_some_iff.mp h
  obtain ⟨a, b, hn, -⟩ := Text.exists_trim n
  obtain ⟨a', b', hv, -⟩ := Text.exists_trim v
  simp only [Property.declaration, List.cons_append, List.mem_cons, List.mem_append] at hc
  rcases hc with rfl | rfl | hc | rfl | rfl | hc
  · simp
  · simp
  · left
    rw [hn]
    simp [(undashed_suffix (Text.trim n)).subset hc]
  · simp
  · simp
  · left
    rw [hv]
    simp [hc]

theorem getLast?_declaration {p : Property} (h : p.value ≠ []) : p.declaration.getLast? = p.value.getLast? := by
  obtain ⟨v, c, hv⟩ := (List.eq_nil_or_concat' p.value).resolve_left h
  rw [Property.declaration, hv, show ('-' :: '-' :: p.name) ++ ':' :: ' ' :: (v ++ [c]) =
    (('-' :: '-' :: p.name) ++ ':' :: ' ' :: v) ++ [c] by simp, List.getLast?_concat, List.getLast?_concat]

theorem trimmed_declaration {p : Property} (h : Writable p) : Text.Trimmed p.declaration := by
  constructor
  · intro c hc
    obtain rfl := Option.some.inj hc
    decide
  · intro c hc
    rw [getLast?_declaration h.value_ne] at hc
    exact h.value_trimmed.last c hc

theorem property?_declaration {p : Property} (h : Writable p) : property? p.declaration = some p := by
  have hname : Text.trim ('-' :: '-' :: p.name) = '-' :: '-' :: p.name := by
    refine Text.trim_eq_self ⟨?_, ?_⟩
    · intro c hc
      obtain rfl := Option.some.inj hc
      decide
    · intro c hc
      cases hn : p.name.getLast? with
      | none =>
        rw [List.getLast?_eq_none_iff.mp hn] at hc
        obtain rfl := Option.some.inj hc
        decide
      | some d =>
        refine h.name_last c ?_
        rw [show '-' :: '-' :: p.name = ['-', '-'] ++ p.name by rfl, List.getLast?_append, hn] at hc
        rwa [hn]
  have hvalue : Text.trim (' ' :: p.value) = p.value := by
    simpa using Text.trim_eq (a := [' ']) (b := []) (by decide) rfl h.value_trimmed
  have hcolon : ':' ∉ '-' :: '-' :: p.name := by simp [h.colon]
  rw [Property.declaration, property?_append_colon hcolon, hname, hvalue, if_neg (by simp [h.value_ne])]
  rfl

/-! ## The root block -/

theorem afterBrace?_eq_some {offset : Nat} {seen : Bool} {t rest : Text} {n : Nat}
    (h : afterBrace? offset seen t = some (n, rest)) :
    ∃ read, t = read ++ '{' :: rest ∧ n = offset + read.length + 1 := by
  induction t generalizing offset seen with
  | nil => cases h
  | cons c t ih =>
    have skip : ∀ {seen}, afterBrace? (offset + 1) seen t = some (n, rest) →
        ∃ read, c :: t = read ++ '{' :: rest ∧ n = offset + read.length + 1 := by
      intro seen h
      obtain ⟨read, rfl, rfl⟩ := ih h
      exact ⟨c :: read, rfl, by simp; omega⟩
    unfold afterBrace? at h
    split at h
    · rename_i hc
      split at h
      · obtain ⟨rfl, rfl⟩ := Prod.mk.inj (Option.some.inj h)
        exact ⟨[], by simp [hc], rfl⟩
      · exact skip h
    · split at h <;> exact skip h

structure Encloses (before body after source : Text) : Prop where
  source_eq : source = before ++ '{' :: (body ++ '}' :: after)
  opens : afterBrace? 0 false source = some (before.length + 1, body ++ '}' :: after)
  brace : '}' ∉ body

theorem takeWhile_ne_brace {body after : Text} (h : '}' ∉ body) :
    (body ++ '}' :: after).takeWhile (fun c => decide (c ≠ '}')) = body := by
  have hall : ∀ c ∈ body, (decide (c ≠ '}')) = true := by
    intro c hc
    simpa using fun e : c = '}' => h (e ▸ hc)
  rw [List.takeWhile_append_of_pos hall]
  simp

theorem block?_of_encloses {before body after source : Text} (h : Encloses before body after source) :
    block? source = some ⟨before.length + 1, body⟩ := by
  unfold block?
  rw [h.opens]
  dsimp only
  rw [if_pos (by simp), takeWhile_ne_brace h.brace]

theorem exists_encloses {source : Text} {b : Block} (h : block? source = some b) :
    ∃ before after, Encloses before b.body after source ∧ b.base = before.length + 1 := by
  unfold block? at h
  split at h
  · rename_i base t ht
    split at h
    · rename_i hc
      obtain rfl := Option.some.inj h
      obtain ⟨before, hsource, hbase⟩ := afterBrace?_eq_some ht
      obtain ⟨body, after, rfl, hbody⟩ := List.eq_append_cons_of_mem (List.contains_iff_mem.mp hc)
      dsimp only
      rw [takeWhile_ne_brace hbody]
      have hbase : base = before.length + 1 := by omega
      exact ⟨before, after, ⟨hsource, by rw [ht, hbase], hbody⟩, hbase⟩
    · cases h
  · cases h

theorem pieces_of_encloses {before body after source : Text} (h : Encloses before body after source) :
    pieces source = Text.pieces (before.length + 1) ';' body := by
  rw [pieces, block?_of_encloses h]

/-- A text has no pieces, or it has a root block. -/
theorem pieces_eq_nil_or_exists_encloses (source : Text) :
    pieces source = [] ∨ ∃ before body after, Encloses before body after source := by
  cases hb : block? source with
  | none =>
    left
    rw [pieces, hb]
  | some b =>
    obtain ⟨before, after, h, -⟩ := exists_encloses hb
    exact Or.inr ⟨before, b.body, after, h⟩

/-! ## The recogniser -/

def Opened (before : Text) : Prop :=
  ∃ rest c gap, before = rest ++ c :: gap ∧ Text.allBlank gap = true ∧ (c = '{' ∨ c = ';')

def Closed (after : Text) : Prop :=
  ∃ gap c rest, after = gap ++ c :: rest ∧ Text.allBlank gap = true ∧ (c = ';' ∨ c = '}')

theorem fenced {before after : Text} (hb : Opened before) (ha : Closed after) : Variable.Fenced before after := by
  obtain ⟨rest, c, gap, rfl, hgap, hc⟩ := hb
  obtain ⟨gap', c', rest', rfl, hgap', hc'⟩ := ha
  constructor
  · intro d hd
    rw [List.append_cons] at hd
    rcases Text.mem_getLast?_append hd with hd | hd
    · exact Variable.isReferenceChar_eq_false_of_isBlank (Text.allBlank_iff.mp hgap d (List.mem_of_getLast? hd))
    · simp only [List.getLast?_append, List.getLast?_singleton, Option.some_or, Option.mem_def,
        Option.some.injEq] at hd
      subst hd
      rcases hc with rfl | rfl <;> decide
  · intro d hd
    rcases Text.mem_head?_append hd with hd | hd
    · exact Variable.isReferenceChar_eq_false_of_isBlank (Text.allBlank_iff.mp hgap' d (List.mem_of_head? hd))
    · obtain rfl := Option.some.inj hd
      rcases hc' with rfl | rfl <;> decide

/-- The text of an occurrence: a declaration of the property without blanks around it. -/
structure Declares (span : Text) (p : Property) : Prop where
  property_eq : property? span = some p
  trimmed : Text.Trimmed span
  semicolon : ';' ∉ span
  brace : '}' ∉ span

theorem declares_trim {piece : Text} {p : Property} (h : property? piece = some p) (hsemi : ';' ∉ piece)
    (hbrace : '}' ∉ piece) : Declares (Text.trim piece) p := by
  obtain ⟨w, v, hpiece, -⟩ := Text.exists_trim piece
  have hmem : ∀ c ∈ Text.trim piece, c ∈ piece := by
    intro c hc
    rw [hpiece]
    simp [hc]
  exact ⟨by rw [property?_trim, h], Text.trimmed_trim piece, fun hc => hsemi (hmem _ hc), fun hc => hbrace (hmem _ hc)⟩

/-- A declaration that is written out declares the same property where it stands in the place of its span. -/
theorem Declares.declaration {span : Text} {p : Property} (h : Declares span p) : Declares p.declaration p := by
  have hwritable := writable_of_property? h.property_eq
  refine ⟨property?_declaration hwritable, trimmed_declaration hwritable, fun hc => ?_, fun hc => ?_⟩
  · rcases mem_declaration h.property_eq hc with hc | hc | hc | hc
    · exact h.semicolon hc
    all_goals cases hc
  · rcases mem_declaration h.property_eq hc with hc | hc | hc | hc
    · exact h.brace hc
    all_goals cases hc

/-- A declaration that is written out ends in the character its span ends in, which is the last one of the value. -/
theorem Declares.getLast?_declaration {span : Text} {p : Property} (h : Declares span p) :
    p.declaration.getLast? = span.getLast? := by
  obtain ⟨n, v, rfl, -, -, hvalue, rfl⟩ := property?_eq_some_iff.mp h.property_eq
  obtain ⟨a, b, hv, -, hb, -⟩ := Text.exists_trim v
  have hs : n ++ ':' :: v = (n ++ ':' :: a) ++ Text.trim v ++ b := by
    conv_lhs => rw [hv]
    simp
  rw [Declaration.getLast?_declaration hvalue]
  rcases List.eq_nil_or_concat' b with rfl | ⟨b, d, rfl⟩
  · rw [hs, List.append_nil, List.getLast?_append_of_ne_nil _ hvalue]
  · exfalso
    have hlast := h.trimmed.last d (by rw [hs, ← List.append_assoc, List.getLast?_concat]; rfl)
    rw [Text.allBlank_iff.mp hb d (by simp)] at hlast
    cases hlast

theorem mem_pieces {source : Text} {offset : Nat} {piece : Text} (h : (offset, piece) ∈ pieces source) :
    ∃ before after, source = before ++ piece ++ after ∧ offset = before.length ∧ ';' ∉ piece ∧ '}' ∉ piece ∧
      (∀ c ∈ before.getLast?, c = '{' ∨ c = ';') ∧ before ≠ [] ∧ ∃ c rest, after = c :: rest ∧ (c = ';' ∨ c = '}') := by
  rcases pieces_eq_nil_or_exists_encloses source with hnil | ⟨start, body, rest, henc⟩
  · rw [hnil] at h
    cases h
  · rw [pieces_of_encloses henc] at h
    obtain ⟨x, y, hbody, hoffset, hsemi, hx, hy⟩ := Text.mem_pieces h
    have hsource := henc.source_eq
    have hbrace := henc.brace
    rw [hbody] at hsource hbrace
    refine ⟨start ++ '{' :: x, y ++ '}' :: rest, by simp [hsource], by simp [hoffset]; omega, hsemi,
      fun hc => hbrace (by simp [hc]), ?_, by simp, ?_⟩
    · intro c hc
      rw [List.append_cons] at hc
      rcases Text.mem_getLast?_append hc with hc | hc
      · exact Or.inr (hx c hc)
      · simp only [List.getLast?_append, List.getLast?_singleton, Option.some_or, Option.mem_def,
          Option.some.injEq] at hc
        exact Or.inl hc.symm
    · cases y with
      | nil => exact ⟨'}', rest, rfl, Or.inr rfl⟩
      | cons c y => exact ⟨c, y ++ '}' :: rest, rfl, Or.inl (hy c rfl)⟩

theorem pairwise_occurrences (source : Text) : (occurrences source).Pairwise fun a b => a.stop ≤ b.offset := by
  have within : ∀ {offset : Nat} {piece : Text} {o : Occurrence}, occurrence? offset piece = some o →
      (offset : Int) ≤ o.offset ∧ o.stop ≤ ↑(offset + piece.length) := by
    intro offset piece o h
    obtain ⟨p, -, rfl⟩ := Option.map_eq_some_iff.mp h
    have := Text.indent_add_length_trim_le piece
    simp only [Occurrence.stop]
    omega
  have hpieces : (pieces source).Pairwise fun x y => x.1 + x.2.length < y.1 := by
    rcases pieces_eq_nil_or_exists_encloses source with hnil | ⟨before, body, after, h⟩
    · rw [hnil]
      exact List.Pairwise.nil
    · rw [pieces_of_encloses h]
      exact Text.pairwise_pieces _ ';' body
  refine List.pairwise_filterMap.mpr (hpieces.imp fun {x y} hxy a ha b hb => ?_)
  have h1 := within ha
  have h2 := within hb
  omega

/-- The occurrence in a piece covers its trimmed text. -/
theorem placed_of_piece {source before piece after : Text} {o : Occurrence} (hs : source = before ++ piece ++ after)
    (h : occurrence? before.length piece = some o) :
    ∃ w v p, piece = w ++ Text.trim piece ++ v ∧ Text.allBlank w = true ∧ Text.allBlank v = true ∧
      o.Placed source (before ++ w) (Text.trim piece) (v ++ after) ∧ o.part = ⟨.property, .property p, false⟩ ∧
      property? (Text.trim piece) = some p := by
  obtain ⟨p, hp, rfl⟩ := Option.map_eq_some_iff.mp h
  obtain ⟨w, v, hpiece, hw, hv, hindent, -⟩ := Text.exists_trim piece
  refine ⟨w, v, p, hpiece, hw, hv, ⟨?_, ?_, rfl⟩, rfl, by rw [property?_trim, hp]⟩
  · rw [hs]
    conv_lhs => rw [hpiece]
    simp
  · simp [← hindent]

/-- An occurrence is a declaration between blanks, a brace or a semicolon before them and after them. -/
theorem exists_of_mem_occurrences {source : Text} {o : Occurrence} (h : o ∈ occurrences source) :
    ∃ before span after p, o.Placed source before span after ∧ o.part = ⟨.property, .property p, false⟩ ∧
      Declares span p ∧ Opened before ∧ Closed after := by
  obtain ⟨⟨offset, piece⟩, hpiece, h⟩ := List.mem_filterMap.mp h
  obtain ⟨before, after, hs, rfl, hsemi, hbrace, hlast, hne, c, rest, rfl, hc⟩ := mem_pieces hpiece
  obtain ⟨w, v, p, hp, hw, hv, hplaced, hpart, hprop⟩ := placed_of_piece hs h
  rw [property?_trim] at hprop
  refine ⟨before ++ w, Text.trim piece, v ++ c :: rest, p, hplaced, hpart, declares_trim hprop hsemi hbrace, ?_,
    ⟨v, c, rest, rfl, hv, hc⟩⟩
  refine ⟨before.dropLast, before.getLast hne, w, ?_, hw, hlast _ (List.getLast?_eq_getLast_of_ne_nil hne)⟩
  rw [List.append_cons, List.dropLast_concat_getLast]

end Stylesheet.Declaration
