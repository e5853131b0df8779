/-
  Stylesheet.Proofs.Reconstruction — a text rebuilt from its segments.

  Writing the segments of a text as CSS gives back its gaps and its spans, but for the spans that have another spelling
  (`css_segments`): a variable's word comes back in lower case, and a property as a declaration. The text itself comes
  back just where no kept span has another spelling (`textWith_written_eq_text_iff`): a declaration cannot grow at the
  cost of another one, because the blanks and the semicolon or brace that follow it stay in place.

  Main statement: `parse_reconstructs`.
-/

import Stylesheet.Css
import Stylesheet.Proofs.Cut
import Stylesheet.Proofs.Merge

namespace Stylesheet

/-! ## What is written for a span -/

/-- What is written for a part that is found at a span: `var` and all that follows the word of a variable, a declaration
    of a property, and the span itself of a selector or a url. -/
def Part.written (p : Part) (span : Text) : Text :=
  match p.kind, p.value with
  | .var, _ => ['v', 'a', 'r'] ++ span.drop 3
  | .property, .property q => q.declaration
  | _, _ => span

structure Part.Plain (p : Part) (span : Text) : Prop where
  var : p.kind = .var → span.take 3 = ['v', 'a', 'r']
  property : ∀ q, p.value = .property q → span = q.declaration

def Stretch.written (s : Stretch) : Text := s.found.part.written s.span

theorem written_var {word name : Text} {escape : Bool} (h : Variable.IsReference word name) :
    Part.written ⟨.var, .text name, escape⟩ (Variable.spell word name) = Variable.spell ['v', 'a', 'r'] name := by
  show ['v', 'a', 'r'] ++ (Variable.spell word name).drop 3 = _
  rw [h.drop_spell]
  rfl

theorem plain_var_iff {word name : Text} {escape : Bool} (h : Variable.IsReference word name) :
    Part.Plain ⟨.var, .text name, escape⟩ (Variable.spell word name) ↔ word = ['v', 'a', 'r'] := by
  constructor
  · intro hplain
    rw [← hplain.var rfl, h.take_spell]
  · intro hword
    exact ⟨fun _ => by rw [h.take_spell, hword], nofun⟩

theorem plain_property_iff {p : Property} {span : Text} :
    Part.Plain ⟨.property, .property p, false⟩ span ↔ span = p.declaration := by
  constructor
  · intro hplain
    exact hplain.property p rfl
  · intro hspan
    refine ⟨nofun, fun q hq => ?_⟩
    obtain rfl := Value.property.inj hq
    exact hspan

theorem Spelled.written_eq_iff {p : Part} {span : Text} (h : Spelled p span) :
    p.written span = span ↔ p.Plain span := by
  cases h with
  | selector name => exact ⟨fun _ => ⟨nofun, nofun⟩, fun _ => rfl⟩
  | url t => exact ⟨fun _ => ⟨nofun, nofun⟩, fun _ => rfl⟩
  | var word name escape h =>
    rw [plain_var_iff h, written_var h]
    constructor
    · intro heq
      simp only [Variable.spell, List.append_assoc] at heq
      exact (List.append_inj heq (by rw [h.length_word]; rfl)).1.symm
    · intro hword
      rw [hword]
  | property p span h =>
    rw [plain_property_iff]
    exact ⟨Eq.symm, Eq.symm⟩

theorem Spelled.css_eq {p : Part} {span : Text} (h : Spelled p span) : p.css = .ok (p.written span) := by
  cases h with
  | selector name => rfl
  | url t => rfl
  | property p span h => rfl
  | var word name escape h =>
    rw [written_var h]
    simp [Part.css, Value.display, Variable.spell]

/-- What is written for a span that is no declaration has as many characters as the span. -/
theorem Spelled.length_written {p : Part} {span : Text} (h : Spelled p span) (hk : p.kind ≠ .property) :
    (p.written span).length = span.length := by
  cases h with
  | selector name => rfl
  | url t => rfl
  | property p span h => exact absurd rfl hk
  | var word name escape h =>
    rw [written_var h]
    simp only [Variable.spell, List.length_append, h.length_word, List.length_cons, List.length_nil]

/-! ## Segments as CSS -/

theorem css_append {a b : List Segment} {x y : Text} (ha : css a = .ok x) (hb : css b = .ok y) :
    css (a ++ b) = .ok (x ++ y) := by
  induction a generalizing x with
  | nil =>
    obtain rfl := Except.ok.inj ha
    simpa using hb
  | cons s a ih =>
    rw [css_cons] at ha
    cases hs : s.css with
    | error e =>
      rw [hs] at ha
      cases ha
    | ok t =>
      rw [hs] at ha
      cases hrest : css a with
      | error e =>
        rw [hrest] at ha
        cases ha
      | ok z =>
        rw [hrest] at ha
        obtain rfl := Except.ok.inj ha
        rw [List.cons_append, css_cons, hs, ih hrest, List.append_assoc]
        rfl

theorem css_part {p : Part} {t : Text} (h : p.css = .ok t) : css [.part p] = .ok t := by
  rw [css_cons, show (Segment.part p).css = .ok t from h]
  simp [Except.bind, Except.map]

theorem css_literal (t : Text) : css [.literal t] = .ok t := by
  rw [css_cons]
  simp [Segment.css, Except.bind, Except.map]

theorem css_segments (c : Cut) (h : ∀ s ∈ c.stretches, Spelled s.found.part s.span) :
    css (c.segments.filter (· ≠ .literal [])) = .ok (c.textWith Stretch.written) := by
  rw [seamless_css.filter_literal]
  obtain ⟨stretches, tail⟩ := c
  rw [Cut.segments, Cut.textWith]
  refine css_append ?_ (css_literal tail)
  induction stretches with
  | nil => rfl
  | cons s stretches ih =>
    have hs := css_append (css_literal s.gap) (css_part (h s (by simp)).css_eq)
    have hrest := ih fun s hs => h s (List.mem_cons_of_mem _ hs)
    rw [List.flatMap_cons, List.flatMap_cons]
    exact css_append hs hrest

/-! ## No two changes cancel out -/

def isPieceEnd (c : Char) : Bool := Text.isBlank c || c == ';' || c == '}'

/-- What is known of the stretches of a text: their spellings, and the ends of the pieces after their declarations. -/
structure Located (stretches : List Stretch) (tail : Text) : Prop where
  spelled : ∀ s ∈ stretches, Spelled s.found.part s.span
  closed : ∀ l s r, stretches = l ++ s :: r → s.found.part.kind = .property →
    Declaration.Closed (r.flatMap (fun s => s.gap ++ s.span) ++ tail)

theorem Located.of_cons {s : Stretch} {stretches : List Stretch} {tail : Text} (h : Located (s :: stretches) tail) :
    Located stretches tail :=
  ⟨fun t ht => h.spelled t (List.mem_cons_of_mem _ ht), fun l t r hs => h.closed (s :: l) t r (by rw [hs]; rfl)⟩

/-- Only urls start with a character that ends a piece. -/
theorem Spelled.written_eq_of_isPieceEnd {p : Part} {span : Text} (h : Spelled p span) {c : Char} {rest : Text}
    (hs : span = c :: rest) (hc : isPieceEnd c = true) : p.written span = span := by
  cases h with
  | selector name => rfl
  | url t => rfl
  | var word name escape h =>
    exfalso
    obtain ⟨d, word', rfl⟩ := List.exists_cons_of_length_eq_add_one h.length_word
    obtain ⟨rfl, -⟩ := List.cons.inj hs
    have halpha := h.isAlpha_of_mem_word (List.mem_cons_self)
    simp only [isPieceEnd, Text.isBlank_eq_false_of_isAlpha halpha, Bool.false_or, Bool.or_eq_true, beq_iff_eq] at hc
    rcases hc with rfl | rfl <;> revert halpha <;> decide
  | property p span h =>
    exfalso
    subst hs
    have hblank := h.trimmed.head c rfl
    simp only [isPieceEnd, hblank, Bool.false_or, Bool.or_eq_true, beq_iff_eq] at hc
    rcases hc with rfl | rfl
    · exact h.semicolon (List.mem_cons_self)
    · exact h.brace (List.mem_cons_self)

/-- Whatever is written for the spans, a run of characters that end pieces stays in place. -/
theorem exists_written_append {stretches : List Stretch} {tail : Text}
    (h : ∀ s ∈ stretches, Spelled s.found.part s.span) {run rest : Text} (hrun : ∀ c ∈ run, isPieceEnd c = true)
    (heq : stretches.flatMap (fun s => s.gap ++ s.span) ++ tail = run ++ rest) :
    ∃ rest', stretches.flatMap (fun s => s.gap ++ s.written) ++ tail = run ++ rest' := by
  induction stretches generalizing run rest with
  | nil => exact ⟨rest, heq⟩
  | cons s stretches ih =>
    rw [List.flatMap_cons, List.append_assoc, List.append_assoc] at heq
    rw [List.flatMap_cons, List.append_assoc, List.append_assoc]
    rcases List.append_eq_append_iff.mp heq with ⟨run', rfl, hspan⟩ | ⟨gap', hgap, -⟩
    · cases run' with
      | nil => exact ⟨s.written ++ (stretches.flatMap (fun s => s.gap ++ s.written) ++ tail), by rw [List.append_nil]⟩
      | cons c run' =>
        have hs := h s (by simp)
        have hwritten : s.written = s.span := by
          obtain ⟨d, span', hd⟩ := List.exists_cons_of_ne_nil hs.span_ne
          have hcd : d = c := by
            rw [hd] at hspan
            exact (List.cons.inj hspan).1
          exact hs.written_eq_of_isPieceEnd hd (by rw [hcd]; exact hrun c (by simp))
        rw [hwritten]
        rcases List.append_eq_append_iff.mp hspan with ⟨run'', hrun'', hrest⟩ | ⟨span', hspan', -⟩
        · rw [hrun''] at hrun ⊢
          obtain ⟨rest', hrest'⟩ := ih (fun t ht => h t (List.mem_cons_of_mem _ ht))
            (fun d hd => hrun d (by simp [hd])) hrest
          exact ⟨rest', by rw [hrest']; simp⟩
        · refine ⟨span' ++ (stretches.flatMap (fun s => s.gap ++ s.written) ++ tail), ?_⟩
          rw [hspan']
          simp
    · refine ⟨gap' ++ (s.written ++ (stretches.flatMap (fun s => s.gap ++ s.written) ++ tail)), ?_⟩
      rw [hgap]
      simp

theorem append_cons_inj_of_stop {p : Char → Bool} {a b x y : Text} {c d : Char} (ha : ∀ e ∈ a, p e = false)
    (hb : ∀ e ∈ b, p e = false) (hc : p c = true) (hd : p d = true) (h : a ++ c :: x = b ++ d :: y) : a = b := by
  have htake : ∀ {a x : Text} {c}, (∀ e ∈ a, p e = false) → p c = true →
      (a ++ c :: x).takeWhile (fun e => !p e) = a := by
    intro a x c ha hc
    rw [List.takeWhile_append_of_pos (by simpa using ha)]
    simp [hc]
  rw [← htake (x := x) ha hc, h, htake hb hd]

/-- A declaration that goes on in the same way as its span, up to the end of the piece, is its span. -/
theorem declaration_eq_span {span blanks x y : Text} {p : Property} {c : Char} (h : Declaration.Declares span p)
    (hblanks : Text.allBlank blanks = true) (hc : c = ';' ∨ c = '}')
    (heq : p.declaration ++ (blanks ++ c :: x) = span ++ (blanks ++ c :: y)) : p.declaration = span := by
  let stops : Char → Bool := fun e => e == ';' || e == '}'
  have hstop : stops c = true := by
    rcases hc with rfl | rfl <;> decide
  have hspan : ∀ e ∈ span, stops e = false := by
    intro e he
    have h1 : e ≠ ';' := fun h' => h.semicolon (h' ▸ he)
    have h2 : e ≠ '}' := fun h' => h.brace (h' ▸ he)
    simp [stops, h1, h2]
  have hdecl : ∀ e ∈ p.declaration, stops e = false := by
    intro e he
    rcases Declaration.mem_declaration h.property_eq he with he | rfl | rfl | rfl
    · exact hspan e he
    all_goals decide
  have hgap : ∀ e ∈ blanks, stops e = false := by
    intro e he
    have hblank := Text.allBlank_iff.mp hblanks e he
    by_contra hs
    simp only [stops, Bool.not_eq_false, Bool.or_eq_true, beq_iff_eq] at hs
    rcases hs with rfl | rfl <;> revert hblank <;> decide
  rw [← List.append_assoc, ← List.append_assoc] at heq
  have := append_cons_inj_of_stop (p := stops)
    (fun e he => (List.mem_append.mp he).elim (hdecl e) (hgap e))
    (fun e he => (List.mem_append.mp he).elim (hspan e) (hgap e)) hstop hstop heq
  exact List.append_cancel_right this

/-- What is written for the stretches is their text just where it is so for each of them. -/
theorem flatMap_written_inj {stretches : List Stretch} {tail : Text} (h : Located stretches tail)
    (heq : stretches.flatMap (fun s => s.gap ++ s.written) ++ tail =
      stretches.flatMap (fun s => s.gap ++ s.span) ++ tail) : ∀ s ∈ stretches, s.written = s.span := by
  induction stretches with
  | nil => simp
  | cons s stretches ih =>
    simp only [List.flatMap_cons, List.append_assoc, List.append_cancel_left_eq] at heq
    have hs := h.spelled s (by simp)
    have hwritten : s.written = s.span := by
      by_cases hkind : s.found.part.kind = .property
      · obtain ⟨blanks, c, rest, hafter, hblanks, hc⟩ := h.closed [] s stretches rfl hkind
        have hrun : ∀ d ∈ blanks ++ [c], isPieceEnd d = true := by
          intro d hd
          rcases List.mem_append.mp hd with hd | hd
          · simp [isPieceEnd, Text.allBlank_iff.mp hblanks d hd]
          · obtain rfl := List.mem_singleton.mp hd
            rcases hc with rfl | rfl <;> decide
        have hnext : stretches.flatMap (fun s => s.gap ++ s.span) ++ tail = blanks ++ [c] ++ rest := by
          rw [hafter]
          simp
        obtain ⟨rest', hrest'⟩ := exists_written_append h.of_cons.spelled hrun hnext
        rw [hafter, hrest', List.append_assoc, List.singleton_append] at heq
        obtain ⟨p, hpart, hdecl⟩ := hs.exists_property hkind
        have hwritten : s.written = p.declaration := by
          rw [Stretch.written, hpart]
          rfl
        rw [hwritten] at heq ⊢
        exact declaration_eq_span hdecl hblanks hc heq
      · exact (List.append_inj heq (hs.length_written hkind)).1
    intro t ht
    rcases List.mem_cons.mp ht with rfl | ht
    · exact hwritten
    · rw [hwritten, List.append_cancel_left_eq] at heq
      exact ih h.of_cons heq t ht

theorem Cut.Cuts.located {c : Cut} {source : Text} {kinds : List Kind}
    (h : c.Cuts source (findings source kinds).kept) : Located c.stretches c.tail := by
  have hmem : ∀ s ∈ c.stretches, s.found ∈ (findings source kinds).occurrences := by
    intro s hs
    apply Layout.mem_of_mem_kept
    rw [← Findings.kept, ← h.found_eq]
    exact List.mem_map_of_mem hs
  constructor
  · intro s hs
    obtain ⟨before, span, after, hplaced, hspelled⟩ := exists_of_mem_findings (hmem s hs)
    obtain ⟨l, r, hsplit⟩ := List.append_of_mem hs
    obtain ⟨-, hspan, -⟩ := (h.placed hsplit).unique hplaced
    rwa [hspan]
  · intro l s r hsplit hkind
    have ho := mem_occurrences_of_mem_findings (hmem s (by simp [hsplit]))
    rw [hkind] at ho
    obtain ⟨before, span, after, p, hplaced, -, -, -, hclosed⟩ := Declaration.exists_of_mem_occurrences ho
    obtain ⟨-, -, hafter⟩ := (h.placed hsplit).unique hplaced
    rwa [hafter]

theorem Cut.textWith_written_eq_text {c : Cut} (h : ∀ s ∈ c.stretches, s.written = s.span) :
    c.textWith Stretch.written = c.text := by
  rw [Cut.text, Cut.textWith, Cut.textWith]
  congr 1
  exact List.flatMap_congr fun s hs => by rw [h s hs]

theorem textWith_written_eq_text_iff {c : Cut} (h : Located c.stretches c.tail) :
    c.textWith Stretch.written = c.text ↔ ∀ s ∈ c.stretches, s.found.part.Plain s.span := by
  constructor
  · intro heq s hs
    exact (h.spelled s hs).written_eq_iff.mp (flatMap_written_inj h heq s hs)
  · intro hplain
    exact Cut.textWith_written_eq_text fun s hs => (h.spelled s hs).written_eq_iff.mpr (hplain s hs)

/-! ## The text itself -/

theorem filter_isVoid_false (segments : List Segment) :
    (segments.filter fun s => !Layout.isVoid false s) = segments.filter (· ≠ .literal []) := by
  apply List.filter_congr
  intro s _
  cases s with
  | literal t => cases t <;> simp [Layout.isVoid]
  | part p => simp [Layout.isVoid]

/-- The segments of a text that is not empty are the gaps and the parts of its cut, less the empty gaps. -/
theorem segments_eq_filter {source : Text} {options : Options} {parsed : Parsed} (hne : source ≠ [])
    (h : parse source options = .ok parsed) (hblank : options.dropBlank = false) :
    ∃ c : Cut, c.Cuts source (findings source options.kinds).kept ∧
      parsed.segments = c.segments.filter (· ≠ .literal []) := by
  obtain ⟨c, hc, hsegments⟩ := exists_cut_of_parse h
  refine ⟨c, hc, ?_⟩
  rw [hsegments, hblank]
  split
  · rename_i hnone
    rw [Findings.kept_of_occurrences_eq_nil hnone] at hc
    rw [Cut.segments, hc.stretches_eq_nil, hc.tail_eq]
    simp [hne]
  · exact filter_isVoid_false c.segments

/-- A text is its literals with the spans of its parts between them. As CSS it has the same literals and what is written
    for each span, and it is the same text just where every kept variable has the word `var` in lower case and the span
    of every kept property is its declaration. -/
theorem parse_reconstructs {source : Text} {options : Options} (hne : source ≠ [])
    (hlimit : source.length ≤ options.limit) (hblank : options.dropBlank = false) :
    ∃ parsed, parse source options = .ok parsed ∧
      ∃ c : Cut, c.Cuts source (findings source options.kinds).kept ∧
        (∀ s ∈ c.stretches, Spelled s.found.part s.span) ∧
        parsed.segments = c.segments.filter (· ≠ .literal []) ∧
        css parsed.segments = .ok (c.textWith Stretch.written) ∧
        (css parsed.segments = .ok source ↔ ∀ s ∈ c.stretches, s.found.part.Plain s.span) := by
  obtain ⟨parsed, hparse⟩ := exists_parse hlimit
  obtain ⟨c, hc, hsegments⟩ := segments_eq_filter hne hparse hblank
  have hlocated := hc.located
  have hcss := css_segments c hlocated.spelled
  refine ⟨parsed, hparse, c, hc, hlocated.spelled, hsegments, by rw [hsegments, hcss], ?_⟩
  rw [hsegments, hcss, Except.ok.injEq, ← textWith_written_eq_text_iff hlocated, hc.text_eq]

/-- A variable and a property with other spellings, and a selector and a url with none. -/
theorem parse_reconstructs_root :
    let source := r":root{ --a :VAR(--b); c:d}e{f:VAR(--g) url(h)}".toList
    source ≠ [] ∧ (source.length : Int) ≤ ({} : Options).limit ∧ ({} : Options).dropBlank = false ∧
    ∃ parsed, parse source {} = .ok parsed ∧
      ∃ c : Cut, c.Cuts source (findings source Kind.all).kept ∧
        (∀ s ∈ c.stretches, Spelled s.found.part s.span) ∧
        parsed.segments = c.segments.filter (· ≠ .literal []) ∧
        css parsed.segments = .ok (c.textWith Stretch.written) ∧
        (css parsed.segments = .ok source ↔ ∀ s ∈ c.stretches, s.found.part.Plain s.span) :=
  ⟨by decide, by decide, rfl, @parse_reconstructs _ {} (by decide) (by decide) rfl⟩

end Stylesheet
