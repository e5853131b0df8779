/-
  Stylesheet.Proofs.RootRule — properties written as a root rule and read back.

  Not every property can be declared: a name has no colon and no blank at its end, a value is trimmed, and neither has
  what ends a piece of the root block (`Property.Representable`). These are the properties that are declared by their
  own declarations (`representable_iff`), whatever dashes their names start with, and so they are all that a text can
  declare (`representable_of_parse`). Written as the one rule of a stylesheet (`rootRule`), the text is cut at the
  declarations again (`RootRule.cuts`).

  Main statement: `parse_css_rootRule`.
-/

import Stylesheet.Proofs.Occurrence.Moving
import Stylesheet.Proofs.Placement
import Stylesheet.Proofs.Reconstruction

namespace Stylesheet

/-! ## Properties that can be declared -/

/-- A property that can stand in a root block. Its name may be empty and may start with dashes or blanks. -/
structure Property.Representable (p : Property) : Prop extends Declaration.Writable p where
  semicolon : ';' ∉ p.name ∧ ';' ∉ p.value
  brace : '}' ∉ p.name ∧ '}' ∉ p.value

theorem mem_declaration_iff {p : Property} {c : Char} (h : c ≠ '-' ∧ c ≠ ':' ∧ c ≠ ' ') :
    c ∈ p.declaration ↔ c ∈ p.name ∨ c ∈ p.value := by
  simp [Property.declaration, h]

/-- What can be declared is declared by its own declaration, and nothing else is. -/
theorem representable_iff {p : Property} : p.Representable ↔ Declaration.Declares p.declaration p := by
  have hsemicolon : ';' ∈ p.declaration ↔ ';' ∈ p.name ∨ ';' ∈ p.value := mem_declaration_iff (by decide)
  have hbrace : '}' ∈ p.declaration ↔ '}' ∈ p.name ∨ '}' ∈ p.value := mem_declaration_iff (by decide)
  constructor
  · intro h
    refine ⟨Declaration.property?_declaration h.toWritable, Declaration.trimmed_declaration h.toWritable, ?_, ?_⟩
    · rw [hsemicolon, not_or]
      exact h.semicolon
    · rw [hbrace, not_or]
      exact h.brace
  · intro h
    refine ⟨Declaration.writable_of_property? h.property_eq, ?_, ?_⟩
    · rw [← not_or, ← hsemicolon]
      exact h.semicolon
    · rw [← not_or, ← hbrace]
      exact h.brace

theorem occurrence?_declaration {p : Property} (h : p.Representable) (offset : Nat) :
    Declaration.occurrence? offset p.declaration = some (Declaration.occurrenceAt offset p.declaration p) := by
  simpa using Declaration.occurrence?_of_declares (representable_iff.mp h) (w := []) (v := []) rfl rfl offset

theorem representable_of_parse {source : Text} {options : Options} {parsed : Parsed}
    (h : parse source options = .ok parsed) {part : Part} (hpart : part ∈ parts parsed.segments) {p : Property}
    (hp : part.value = .property p) : p.Representable := by
  rw [parts_of_parse h, List.mem_map] at hpart
  obtain ⟨o, ho, rfl⟩ := hpart
  obtain ⟨_, _, _, -, hspelled⟩ := exists_of_mem_findings (Layout.mem_of_mem_kept ho)
  generalize o.part = part at hspelled hp
  cases hspelled with
  | property q span hdecl =>
    obtain rfl := Value.property.inj hp
    exact representable_iff.mpr hdecl.declaration
  | selector | var | url => cases hp

/-! ## The root rule -/

def Property.segment (p : Property) : Segment := .part ⟨.property, .property p, false⟩

def rootRule (p : Property) (ps : List Property) : List Segment :=
  .literal r":root{".toList :: p.segment :: (ps.flatMap fun q => [.literal [';'], q.segment]) ++ [.literal ['}']]

namespace RootRule

def body (p : Property) (ps : List Property) : Text := p.declaration ++ ps.flatMap fun q => ';' :: q.declaration

theorem body_cons (p q : Property) (ps : List Property) : body p (q :: ps) = p.declaration ++ ';' :: body q ps := rfl

def stretchesFrom (start : Nat) (gap : Text) : List Property → List Stretch
  | [] => []
  | p :: ps =>
    ⟨gap, Declaration.occurrenceAt (start + gap.length) p.declaration p, p.declaration⟩ ::
      stretchesFrom (start + gap.length + p.declaration.length) [';'] ps

def cut (p : Property) (ps : List Property) : Cut := ⟨stretchesFrom 0 r":root{".toList (p :: ps), ['}']⟩

theorem aligned_stretchesFrom (start : Nat) (gap : Text) (ps : List Property) :
    Cut.Aligned start (stretchesFrom start gap ps) := by
  induction ps generalizing start gap with
  | nil => trivial
  | cons p ps ih => exact ⟨rfl, rfl, ih _ _⟩

theorem flatMap_stretchesFrom (start : Nat) (ps : List Property) :
    (stretchesFrom start [';'] ps).flatMap (fun s => s.gap ++ s.span) = ps.flatMap fun q => ';' :: q.declaration := by
  induction ps generalizing start with
  | nil => rfl
  | cons p ps ih =>
    rw [stretchesFrom, List.flatMap_cons, List.flatMap_cons, ih]
    rfl

theorem text_cut (p : Property) (ps : List Property) :
    (cut p ps).text = r":root{".toList ++ (body p ps ++ ['}']) := by
  rw [Cut.text, Cut.textWith, cut, stretchesFrom, List.flatMap_cons, flatMap_stretchesFrom, body]
  simp only [List.append_assoc]

theorem segments_cut (p : Property) (ps : List Property) : (cut p ps).segments = rootRule p ps := by
  have segments_stretchesFrom : ∀ start, (stretchesFrom start [';'] ps).flatMap
      (fun s => [Segment.literal s.gap, .part s.found.part]) = ps.flatMap fun q => [.literal [';'], q.segment] := by
    induction ps with
    | nil => exact fun _ => rfl
    | cons q ps ih =>
      intro start
      rw [stretchesFrom, List.flatMap_cons, List.flatMap_cons, ih]
      rfl
  rw [Cut.segments, cut, stretchesFrom, List.flatMap_cons, segments_stretchesFrom]
  rfl

theorem forall_stretchesFrom {start : Nat} {gap : Text} {ps : List Property} {P : Stretch → Prop}
    (h : ∀ p ∈ ps, ∀ gap offset, P ⟨gap, Declaration.occurrenceAt offset p.declaration p, p.declaration⟩) :
    ∀ s ∈ stretchesFrom start gap ps, P s := by
  induction ps generalizing start gap with
  | nil => simp [stretchesFrom]
  | cons p ps ih =>
    intro s hs
    rcases List.mem_cons.mp hs with rfl | hs
    · exact h p List.mem_cons_self _ _
    · exact ih (fun q hq => h q (List.mem_cons_of_mem _ hq)) s hs

section

variable {p : Property} {ps : List Property}

theorem found_stretchesFrom (h : ∀ q ∈ p :: ps, q.Representable) (start : Nat) (gap : Text) :
    (stretchesFrom start gap (p :: ps)).map Stretch.found =
      (Text.pieces (start + gap.length) ';' (body p ps)).filterMap fun x => Declaration.occurrence? x.1 x.2 := by
  induction ps generalizing p start gap with
  | nil =>
    have hp := h p List.mem_cons_self
    have hbody : body p [] = p.declaration := List.append_nil _
    rw [hbody, Text.pieces_of_notMem (representable_iff.mp hp).semicolon, List.filterMap_cons,
      occurrence?_declaration hp]
    rfl
  | cons q ps ih =>
    have hp := h p List.mem_cons_self
    rw [body_cons, Text.pieces_append_cons (representable_iff.mp hp).semicolon, List.filterMap_cons,
      occurrence?_declaration hp, stretchesFrom, List.map_cons, ih fun r hr => h r (List.mem_cons_of_mem _ hr)]
    rfl

theorem encloses (h : ∀ q ∈ p :: ps, q.Representable) :
    Declaration.Encloses ":root".toList (body p ps) [] (cut p ps).text := by
  have hbrace : ∀ q ∈ p :: ps, '}' ∉ q.declaration := fun q hq => (representable_iff.mp (h q hq)).brace
  rw [text_cut]
  refine ⟨rfl, rfl, ?_⟩
  rw [body, List.mem_append, List.mem_flatMap, not_or]
  refine ⟨hbrace p (by simp), ?_⟩
  rintro ⟨q, hq, hmem⟩
  rcases List.mem_cons.mp hmem with heq | hmem
  · exact absurd heq (by decide)
  · exact hbrace q (by simp [hq]) hmem

theorem cuts (h : ∀ q ∈ p :: ps, q.Representable) :
    (cut p ps).Cuts (cut p ps).text (findings (cut p ps).text [.property]).kept := by
  refine ⟨rfl, ?_, aligned_stretchesFrom _ _ _⟩
  have honly : (findings (cut p ps).text [.property]).occurrences = Declaration.occurrences (cut p ps).text :=
    List.append_nil _
  rw [(kept_eq_occurrences (by decide)).1, honly, Declaration.occurrences,
    Declaration.pieces_of_encloses (encloses h)]
  exact found_stretchesFrom h 0 _

/-- No literal of a root rule is blank, so that none is left out. -/
theorem filter_isVoid (dropBlank : Bool) :
    (rootRule p ps).filter (fun s => !Layout.isVoid dropBlank s) = rootRule p ps := by
  refine List.filter_eq_self.mpr fun s hs => ?_
  simp only [rootRule, List.cons_append, List.mem_cons, List.mem_append, List.mem_flatMap, List.not_mem_nil,
    or_false] at hs
  rcases hs with rfl | rfl | ⟨q, -, rfl | rfl⟩ | rfl
  · cases dropBlank <;> rfl
  · rfl
  · cases dropBlank <;> rfl
  · rfl
  · cases dropBlank <;> rfl

theorem css_eq (h : ∀ q ∈ p :: ps, q.Representable) : css (rootRule p ps) = .ok (cut p ps).text := by
  have hspelled : ∀ s ∈ (cut p ps).stretches, Spelled s.found.part s.span :=
    forall_stretchesFrom fun q hq _ _ => .property q _ (representable_iff.mp (h q hq))
  have hwritten : ∀ s ∈ (cut p ps).stretches, s.written = s.span := forall_stretchesFrom fun _ _ _ _ => rfl
  have hcss := css_segments (cut p ps) hspelled
  rwa [Cut.textWith_written_eq_text hwritten, segments_cut, ← filter_isVoid_false, filter_isVoid] at hcss

end

end RootRule

/-- A root rule that declares properties that can be declared is read back as it is, if the text is not too long; and
    no text has other properties than those. -/
theorem parse_css_rootRule :
    (∀ (p : Property) (ps : List Property), (∀ q ∈ p :: ps, q.Representable) →
      ∃ out, css (rootRule p ps) = .ok out ∧ ∀ options : Options, (∀ k, k ∈ options.kinds ↔ k = .property) →
        (parse out options).map Parsed.segments =
          if options.limit < out.length then .error (.tooLong out.length options.limit) else .ok (rootRule p ps)) ∧
    ∀ source options parsed, parse source options = .ok parsed → ∀ part ∈ parts parsed.segments, ∀ p,
      part.value = .property p → p.Representable := by
  refine ⟨fun p ps h => ⟨_, RootRule.css_eq h, fun options hkinds => ?_⟩,
    fun _ _ _ hparse _ hpart _ hp => representable_of_parse hparse hpart hp⟩
  split
  · rename_i hlimit
    rw [parse, if_pos hlimit]
    rfl
  · rename_i hlimit
    obtain ⟨parsed, hparse⟩ := exists_parse (Int.not_lt.mp hlimit)
    have hsame : ∀ k, k ∈ [Kind.property] ↔ k ∈ options.kinds := fun k => by rw [hkinds, List.mem_singleton]
    have hcuts := RootRule.cuts h
    rw [findings_congr hsame] at hcuts
    have hsegments := segments_of_cuts hparse hcuts
    rw [if_neg (by simp [RootRule.cut, RootRule.stretchesFrom]), RootRule.segments_cut, RootRule.filter_isVoid]
      at hsegments
    rw [hparse, ← hsegments]
    rfl

/-- A property without a name, and one with dashes and a blank at the start of its name and a colon in its value. -/
theorem parse_css_rootRule_dashes :
    let p : Property := ⟨[], ['a']⟩
    let q : Property := ⟨"-- b".toList, "c:d".toList⟩
    let options : Options := { kinds := [.property] }
    let out := r":root{--: a;---- b: c:d}".toList
    (∀ r ∈ [p, q], r.Representable) ∧ (∀ k, k ∈ options.kinds ↔ k = .property) ∧
      css (rootRule p [q]) = .ok out ∧ (parse out options).map Parsed.segments = .ok (rootRule p [q]) ∧
      ∃ parsed, parse out options = .ok parsed ∧ ⟨.property, .property q, false⟩ ∈ parts parsed.segments ∧
        q.Representable := by
  intro p q options out
  have hps : ∀ r ∈ [p, q], r.Representable := by
    intro r hr
    simp only [List.mem_cons, List.not_mem_nil, or_false] at hr
    rcases hr with rfl | rfl
    · refine ⟨⟨by decide, ?_, by decide, ⟨?_, ?_⟩⟩, by decide, by decide⟩
      · simp [p]
      · simpa [p] using (by decide : Text.isBlank 'a' = false)
      · simpa [p] using (by decide : Text.isBlank 'a' = false)
    · refine ⟨⟨by decide, ?_, by decide, ⟨?_, ?_⟩⟩, by decide, by decide⟩
      · simpa [q] using (by decide : Text.isBlank 'b' = false)
      · simpa [q] using (by decide : Text.isBlank 'c' = false)
      · simpa [q] using (by decide : Text.isBlank 'd' = false)
  have hkinds : ∀ k, k ∈ options.kinds ↔ k = .property := by simp [options]
  obtain ⟨out', hcss, hparse⟩ := parse_css_rootRule.1 p [q] hps
  obtain rfl : out = out' := Except.ok.inj hcss
  have hback := hparse options hkinds
  rw [if_neg (by decide)] at hback
  obtain ⟨parsed, hparsed⟩ := @exists_parse out options (by decide)
  have hsegments : parsed.segments = rootRule p [q] := by
    rw [hparsed] at hback
    exact Except.ok.inj hback
  have hmem : ⟨.property, .property q, false⟩ ∈ parts parsed.segments := by
    rw [hsegments]
    simp [rootRule, Property.segment]
  exact ⟨hps, hkinds, hcss, hback, parsed, hparsed, hmem, parse_css_rootRule.2 _ _ _ hparsed _ hmem q rfl⟩

end Stylesheet
