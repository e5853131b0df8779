/-
  Stylesheet.Proofs.Retext — selectors or urls given other texts, and the outcome parsed again.

  Where only selectors are looked for, or only urls, every part is written as its text. If the other texts suit the
  search (`Swap.Suits`), the stylesheet that is written is parsed into the segments it was written from
  (`exists_parse_retext`). Selectors suit it under any outer selector, because an entry with a space is never ignored,
  and urls if they are read where they stand.

  Blank literals may be left out on the way. Between two parts no literal is blank (`Cut.Cuts.exists_mem_gap`), and
  without the blanks before the first selector the text has the same selectors (`Selector.cuts_of_blank`).

  Main statements: `parse_css_mapUrls`, `parse_css_scope`.
-/

import Stylesheet.Pass.Scope
import Stylesheet.Pass.Urls
import Stylesheet.Proofs.Occurrence.Renaming
import Stylesheet.Proofs.Occurrence.Retargeting
import Stylesheet.Proofs.Placement
import Stylesheet.Proofs.Swap

namespace Stylesheet

/-! ## Gaps that are not left out -/

namespace Cut

def gaps (c : Cut) : List Text := c.stretches.map Stretch.gap ++ [c.tail]

/-- No gap but an empty one is left out. -/
def Tight (c : Cut) (dropBlank : Bool) : Prop :=
  ∀ t ∈ c.gaps, Layout.isVoid dropBlank (.literal t) = true → t = []

theorem mem_gaps_of_mem_segments {c : Cut} {t : Text} (h : .literal t ∈ c.segments) : t ∈ c.gaps := by
  rw [segments, List.mem_append, List.mem_flatMap] at h
  rw [gaps, List.mem_append]
  rcases h with ⟨s, hs, h⟩ | h
  · obtain rfl : t = s.gap := by simpa using h
    exact Or.inl (List.mem_map_of_mem hs)
  · obtain rfl : t = c.tail := by simpa using h
    exact Or.inr List.mem_cons_self

theorem Tight.filter_eq {c : Cut} {dropBlank : Bool} (h : c.Tight dropBlank) :
    (c.segments.filter fun s => !Layout.isVoid dropBlank s) = c.segments.filter (· ≠ .literal []) := by
  refine List.filter_congr fun s hs => ?_
  cases s with
  | part p => simp [Layout.isVoid]
  | literal t =>
    by_cases hnil : t = []
    · subst hnil
      rw [isVoid_nil]
      rfl
    · have hvoid : Layout.isVoid dropBlank (.literal t) = false := by
        by_contra hv
        exact hnil (h t (mem_gaps_of_mem_segments hs) (by simpa using hv))
      simp [hvoid, hnil]

theorem isVoid_eq_false {t : Text} {c : Char} (hc : c ∈ t) (hblank : Text.isBlank c = false) (dropBlank : Bool) :
    Layout.isVoid dropBlank (.literal t) = false := by
  have hne : t ≠ [] := List.ne_nil_of_mem hc
  have hall : Text.allBlank t = false := by
    by_contra h
    rw [Text.allBlank_iff.mp (by simpa using h) c hc] at hblank
    cases hblank
  cases dropBlank with
  | false => simpa [Layout.isVoid] using hne
  | true => exact hall

/-- Between two stretches that are parted a character stands that is not blank. -/
theorem Cuts.exists_mem_gap {c : Cut} {source : Text} {found : List Occurrence} (hc : c.Cuts source found)
    (hparted : found.Pairwise (Occurrence.Parted source)) {l r : List Stretch} {a s : Stretch}
    (hs : c.stretches = l ++ a :: s :: r) : ∃ ch ∈ s.gap, Text.isBlank ch = false := by
  have hpair : Occurrence.Parted source a.found s.found := by
    rw [← hc.found_eq, hs, List.map_append, List.pairwise_append, List.map_cons, List.pairwise_cons] at hparted
    exact hparted.2.1.1 s.found (by simp)
  obtain ⟨i, ch, hget, hblank, hle, hlt⟩ := hpair
  have hstop := (hc.placed hs).stop_eq
  rw [List.append_cons] at hs
  have hplaced := hc.placed hs
  have hoffset := hplaced.offset_eq
  generalize hfront : ((l ++ [a]).flatMap fun s => s.gap ++ s.span) = front at hplaced hoffset
  have hfront' : front.length = (l.flatMap (fun s => s.gap ++ s.span) ++ a.gap).length + a.span.length := by
    rw [← hfront]
    simp
    omega
  obtain ⟨k, rfl⟩ : ∃ k, i = front.length + k := Nat.exists_eq_add_of_le (by omega)
  rw [List.length_append] at hoffset
  refine ⟨ch, List.mem_of_getElem? (i := k) ?_, hblank⟩
  rw [hplaced.source_eq, List.append_assoc, List.append_assoc, ← List.append_assoc front,
    Text.getElem?_middle _ _ _ (by omega)] at hget
  exact hget

/-- Where occurrences are parted and something that is not blank follows each, no gap after the first stretch is left
    out. -/
theorem Cuts.isVoid_eq_false {c : Cut} {source : Text} {found : List Occurrence} (hc : c.Cuts source found)
    (hparted : found.Pairwise (Occurrence.Parted source))
    (hafter : ∀ o ∈ found, ∃ before span after, o.Placed source before span after ∧
      ∃ ch ∈ after, Text.isBlank ch = false)
    {s : Stretch} {r : List Stretch} (hs : c.stretches = s :: r) (dropBlank : Bool) :
    ∀ t ∈ r.map Stretch.gap ++ [c.tail], Layout.isVoid dropBlank (.literal t) = false := by
  intro t ht
  rcases List.mem_append.mp ht with ht | ht
  · obtain ⟨u, hu, rfl⟩ := List.mem_map.mp ht
    obtain ⟨l, r', rfl⟩ := List.append_of_mem hu
    obtain ⟨front, a, hfront⟩ := (List.eq_nil_or_concat' (s :: l)).resolve_left (by simp)
    have hsplit : c.stretches = front ++ a :: u :: r' := by
      rw [hs, ← List.cons_append, hfront]
      simp
    obtain ⟨ch, hch, hblank⟩ := hc.exists_mem_gap hparted hsplit
    exact Cut.isVoid_eq_false hch hblank dropBlank
  · obtain rfl := List.mem_singleton.mp ht
    obtain ⟨front, a, hfront⟩ := (List.eq_nil_or_concat' (s :: r)).resolve_left (by simp)
    rw [hfront] at hs
    obtain ⟨before, span, after, hplaced, ch, hch, hblank⟩ :=
      hafter a.found (hc.found_eq ▸ List.mem_map_of_mem (by rw [hs]; simp))
    obtain ⟨-, -, rfl⟩ := (hc.placed hs).unique hplaced
    exact Cut.isVoid_eq_false (by simpa using hch) hblank dropBlank

theorem Cuts.tight {c : Cut} {source : Text} {found : List Occurrence} (hc : c.Cuts source found)
    (hparted : found.Pairwise (Occurrence.Parted source))
    (hafter : ∀ o ∈ found, ∃ before span after, o.Placed source before span after ∧
      ∃ ch ∈ after, Text.isBlank ch = false)
    {s : Stretch} {r : List Stretch} (hs : c.stretches = s :: r) {dropBlank : Bool}
    (hfirst : Layout.isVoid dropBlank (.literal s.gap) = true → s.gap = []) : c.Tight dropBlank := by
  intro t ht hvoid
  rw [gaps, hs, List.map_cons, List.cons_append, List.mem_cons] at ht
  rcases ht with rfl | ht
  · exact hfirst hvoid
  · rw [hc.isVoid_eq_false hparted hafter hs dropBlank t ht] at hvoid
    cases hvoid

end Cut

/-! ## Parts that are written as their texts -/

def Swap.retext (g : Text → Text) : Swap := ⟨fun p t => { p with value := .text (g t) }, fun _ t => g t⟩

theorem Spelled.eq_text {p : Part} {span : Text} (h : Spelled p span) (hkind : p.kind = .selector ∨ p.kind = .url) :
    p = ⟨p.kind, .text span, false⟩ := by
  cases h with
  | selector | url => rfl
  | var | property => rcases hkind with hkind | hkind <;> cases hkind

theorem kept_findings_single {kinds : List Kind} {kind : Kind} (hkinds : ∀ k, k ∈ kinds ↔ k = kind) (source : Text) :
    (findings source kinds).kept = kind.occurrences source := by
  have hordered : Kind.ordered kinds = [kind] := by
    have hcontains : ∀ k, kinds.contains k = (k == kind) := by
      intro k
      rw [Bool.eq_iff_iff, List.contains_iff_mem, hkinds, beq_iff_eq]
    rw [Kind.ordered, List.filter_congr fun k _ => hcontains k]
    cases kind <;> rfl
  have hone : ∀ k ∈ kinds, ∀ l ∈ kinds, k = l := by
    intro k hk l hl
    rw [(hkinds k).mp hk, (hkinds l).mp hl]
  rw [(kept_eq_occurrences hone).1, findings, hordered, List.flatMap_singleton]

section

variable {kind : Kind} {g : Text → Text}

theorem map_revalue_segments {c d : Cut} (hparts : ∀ s ∈ c.stretches, s.found.part = ⟨kind, .text s.span, false⟩)
    (hframe : d.frame = (Swap.retext g).frame c) :
    (c.segments.filter (· ≠ .literal [])).map (revalue kind fun v => .text (g v.display)) =
      d.segments.filter (· ≠ .literal []) := by
  have hmap : c.segments.map (revalue kind fun v => .text (g v.display)) = d.segments := by
    rw [d.segments_eq_frame, hframe, Cut.segments, Swap.frame, List.map_append, List.map_flatMap, List.flatMap_map]
    congr 1
    refine List.flatMap_congr fun s hs => ?_
    simp [revalue, hparts s hs, Swap.retext, Value.display]
  rw [← hmap, List.filter_map]
  congr 1
  refine List.filter_congr fun s _ => ?_
  cases s <;> simp [revalue]

/-- What is found of a kind that is written as its text. -/
theorem exists_text_of_mem_occurrences (hkind : kind = .selector ∨ kind = .url) {source : Text} {o : Occurrence}
    (ho : o ∈ kind.occurrences source) : ∃ before span after, o.Placed source before span after ∧
      Spelled o.part span ∧ o.part = ⟨kind, .text span, false⟩ := by
  obtain ⟨before, span, after, hplaced, hspelled⟩ := exists_of_mem_occurrences ho
  obtain rfl := kind_of_mem_occurrences ho
  exact ⟨before, span, after, hplaced, hspelled, hspelled.eq_text hkind⟩

theorem Cut.Cuts.part_eq_text (hkind : kind = .selector ∨ kind = .url) {c : Cut} {source : Text}
    (hc : c.Cuts source (kind.occurrences source)) :
    ∀ s ∈ c.stretches, Spelled s.found.part s.span ∧ s.found.part = ⟨kind, .text s.span, false⟩ := by
  intro s hs
  obtain ⟨before, span, after, hplaced, hspelled, hpart⟩ :=
    exists_text_of_mem_occurrences hkind (hc.found_eq ▸ List.mem_map_of_mem hs)
  obtain ⟨l, r, hsplit⟩ := List.append_of_mem hs
  obtain ⟨-, hspan, -⟩ := (hc.placed hsplit).unique hplaced
  rw [hspan]
  exact ⟨hspelled, hpart⟩

theorem exists_text_of_parse {source : Text} {options : Options} {parsed : Parsed}
    (hkind : kind = .selector ∨ kind = .url) (hkinds : ∀ k, k ∈ options.kinds ↔ k = kind)
    (hparse : parse source options = .ok parsed) {p : Part} (hp : .part p ∈ parsed.segments) :
    ∃ t, p = ⟨kind, .text t, false⟩ := by
  have hmem : p ∈ parts parsed.segments := List.mem_filterMap.mpr ⟨.part p, hp, rfl⟩
  rw [parts_of_parse hparse, kept_findings_single hkinds] at hmem
  obtain ⟨o, ho, rfl⟩ := List.mem_map.mp hmem
  obtain ⟨before, span, after, -, -, hpart⟩ := exists_text_of_mem_occurrences hkind ho
  exact ⟨span, hpart⟩

theorem gaps_eq_of_frame_eq {w : Swap} {c d : Cut} (h : d.frame = w.frame c) : d.gaps = c.gaps := by
  obtain ⟨hstretches, htail⟩ := Prod.mk.inj h
  have hgaps := congrArg (List.map Prod.fst) hstretches
  rw [List.map_map, List.map_map] at hgaps
  rw [Cut.gaps, Cut.gaps, htail]
  exact congrArg (· ++ [c.tail]) hgaps

theorem stretches_eq_nil_iff_of_frame_eq {w : Swap} {c d : Cut} (h : d.frame = w.frame c) :
    d.stretches = [] ↔ c.stretches = [] := by
  have hlength := congrArg (fun x => x.1.length) h
  simp only [Cut.frame, Swap.frame, List.length_map] at hlength
  rw [← List.length_eq_zero_iff, hlength, List.length_eq_zero_iff]

/-- Where only selectors are looked for, or only urls, and other texts suit the search, the stylesheet with these texts
    is parsed into the segments it was written from. -/
theorem exists_parse_retext {Fit : Text → Prop} {source : Text} {options : Options} {parsed : Parsed}
    (hkind : kind = .selector ∨ kind = .url) (hkinds : ∀ k, k ∈ options.kinds ↔ k = kind)
    (hsuits : (Swap.retext g).Suits kind.occurrences fun _ => Fit) (hparse : parse source options = .ok parsed)
    (htight : ∀ c : Cut, c.Cuts source (kind.occurrences source) → c.stretches ≠ [] →
      ∃ d : Cut, d.Cuts d.text (kind.occurrences d.text) ∧ d.stretches ≠ [] ∧ d.Tight options.dropBlank ∧
        (c.segments.filter fun s => !Layout.isVoid options.dropBlank s) = d.segments.filter (· ≠ .literal []))
    (hfit : ∀ t, .part ⟨kind, .text t, false⟩ ∈ parsed.segments → Fit t) :
    ∃ out, css (parsed.segments.map (revalue kind fun v => .text (g v.display))) = .ok out ∧
      (out.length ≤ options.limit → ∃ again, parse out options = .ok again ∧
        again.segments = parsed.segments.map (revalue kind fun v => .text (g v.display))) := by
  obtain ⟨c, hc, -⟩ := exists_cut_of_parse hparse
  have hsegments := segments_of_cuts hparse hc
  rw [kept_findings_single hkinds] at hc
  by_cases hnil : c.stretches = []
  · rw [if_pos hnil] at hsegments
    rw [hsegments]
    refine ⟨source, by simp [css_cons, revalue, Segment.css, Except.bind, Except.map], fun _ => ⟨parsed, hparse, ?_⟩⟩
    rw [hsegments]
    rfl
  rw [if_neg hnil] at hsegments
  obtain ⟨d, hd, hne, htightd, hfilter⟩ := htight c hc hnil
  have hparts := hd.part_eq_text hkind
  rw [hfilter] at hsegments
  have hfits : ∀ s ∈ d.stretches, Fit s.span := by
    intro s hs
    refine hfit s.span ?_
    rw [hsegments, ← (hparts s hs).2]
    refine List.mem_filter.mpr ⟨?_, rfl⟩
    rw [Cut.segments]
    exact List.mem_append_left _ (List.mem_flatMap.mpr ⟨s, hs, by simp⟩)
  obtain ⟨e, he, hframe⟩ := hsuits.exists_cuts hd hfits
  have hparts' := he.part_eq_text hkind
  have hwritten : e.textWith Stretch.written = (Swap.retext g).text d := by
    rw [← he.text_eq]
    refine Cut.textWith_written_eq_text fun s hs => ?_
    rw [Stretch.written, (hparts' s hs).2]
    rcases hkind with rfl | rfl <;> rfl
  have hmap := map_revalue_segments (fun s hs => (hparts s hs).2) hframe
  refine ⟨(Swap.retext g).text d, ?_, fun hout => ?_⟩
  · rw [hsegments, hmap, css_segments e fun s hs => (hparts' s hs).1, hwritten]
  · obtain ⟨again, hagain⟩ := exists_parse hout
    have htighte : e.Tight options.dropBlank := by
      rwa [Cut.Tight, gaps_eq_of_frame_eq hframe]
    rw [← kept_findings_single hkinds] at he
    refine ⟨again, hagain, ?_⟩
    rw [segments_of_cuts hagain he, if_neg (mt (stretches_eq_nil_iff_of_frame_eq hframe).mp hne), htighte.filter_eq,
      hsegments, hmap]

end

/-! ## Urls -/

theorem Url.suits_retext (f : Text → Text) :
    (Swap.retext f).Suits Url.occurrences fun _ t => Url.IsTarget (f t) := by
  refine Swap.Suits.of_exists Url.pairwise_occurrences ?_
  intro before span after o ho hplaced hfit
  obtain ⟨b, form, a, hspelled, hplaced', hpart⟩ := Url.exists_of_mem_occurrences ho
  obtain ⟨rfl, rfl, rfl⟩ := hplaced.unique hplaced'
  obtain ⟨l, r, hfound⟩ := Url.exists_occurrences_append ho hplaced
  refine ⟨hspelled.text_ne, l, r, ?_, ?_⟩
  · rw [hfound _ (Or.inl rfl), hplaced.eq_mk, hpart]
  · rw [Swap.occurrence, hplaced.offset_eq, hpart]
    exact hfound _ (Or.inr hfit)

/-- No literal next to a url is blank. -/
theorem Url.tight {c : Cut} {source : Text} (hc : c.Cuts source (Url.occurrences source)) (hne : c.stretches ≠ [])
    (dropBlank : Bool) : c.Tight dropBlank := by
  obtain ⟨s, r, hs⟩ := List.exists_cons_of_ne_nil hne
  refine hc.tight (Url.pairwise_parted source) (fun o ho => ?_) hs fun hvoid => ?_
  · obtain ⟨b, form, a, hspelled, hplaced, -⟩ := Url.exists_of_mem_occurrences ho
    exact ⟨_, _, _, hplaced, ')', by simp [hspelled.trail.mem_close], by decide⟩
  · have hmem : s.found ∈ Url.occurrences source := hc.found_eq ▸ List.mem_map_of_mem (by simp [hs])
    obtain ⟨b, form, a, hspelled, hplaced, -⟩ := Url.exists_of_mem_occurrences hmem
    obtain ⟨hbefore, -, -⟩ := (hc.placed (l := []) hs).unique hplaced
    have hgap : s.gap = b ++ form.lead := hbefore
    have hopen : '(' ∈ s.gap := by simp [hgap, hspelled.lead.mem_open]
    rw [Cut.isVoid_eq_false hopen (by decide)] at hvoid
    cases hvoid

/-- Where only urls are looked for, urls that are exchanged are found again, each as it is, between the literals there
    were. This needs that none of the new ones is empty, starts with a blank or has a character that ends a url. -/
theorem parse_css_mapUrls {source : Text} {options : Options} (f : Text → Text)
    (hkinds : ∀ k, k ∈ options.kinds ↔ k = .url) (hlimit : source.length ≤ options.limit) :
    ∃ parsed, parse source options = .ok parsed ∧
      ((∀ p ∈ parts parsed.segments, f p.value.display ≠ [] ∧
          (∀ c ∈ ['(', ')', '\'', '"', '\n'], c ∉ f p.value.display) ∧
          ∀ c ∈ (f p.value.display).head?, Text.isBlank c = false) →
        ∃ out, css (mapUrls f parsed.segments) = .ok out ∧
          (out.length ≤ options.limit → ∃ again, parse out options = .ok again ∧
            again.segments = mapUrls f parsed.segments)) := by
  obtain ⟨parsed, hparse⟩ := exists_parse hlimit
  refine ⟨parsed, hparse, fun htargets => ?_⟩
  refine exists_parse_retext (Or.inr rfl) hkinds (Url.suits_retext f) hparse (fun c hc hne => ?_) fun t ht => ?_
  · rw [← hc.text_eq] at hc
    exact ⟨c, hc, hne, Url.tight hc hne _, (Url.tight hc hne _).filter_eq⟩
  · obtain ⟨hnil, hchar, hhead⟩ := htargets _ (List.mem_filterMap.mpr ⟨_, ht, rfl⟩)
    refine ⟨hnil, fun c hc => ?_, hhead⟩
    have hne : ∀ d ∈ ['(', ')', '\'', '"', '\n'], c ≠ d := by
      rintro d hd rfl
      exact hchar c hd hc
    simp only [List.mem_cons, List.not_mem_nil, or_false, forall_eq_or_imp, forall_eq] at hne
    simp [Url.isTextChar, Url.isQuote, hne]

/-- A url that is a space and one in quotes, exchanged for texts with a brace, a colon and the word itself. -/
theorem parse_css_mapUrls_braces :
    let source := r"a:url( ) :Url( 'b}')".toList
    let f : Text → Text := fun u => ['{', ':', 'u', 'r', 'l'] ++ u
    let once := r"a:url({:url ) :Url( '{:urlb}')".toList
    let options : Options := { kinds := [.url], dropBlank := true }
    (∀ k, k ∈ options.kinds ↔ k = .url) ∧ (source.length : Int) ≤ options.limit ∧ (once.length : Int) ≤ options.limit ∧
      ∃ parsed again, parse source options = .ok parsed ∧
        (∀ p ∈ parts parsed.segments, f p.value.display ≠ [] ∧
          (∀ c ∈ ['(', ')', '\'', '"', '\n'], c ∉ f p.value.display) ∧
          ∀ c ∈ (f p.value.display).head?, Text.isBlank c = false) ∧
        css (mapUrls f parsed.segments) = .ok once ∧ parse once options = .ok again ∧
        again.segments = mapUrls f parsed.segments := by
  intro source f once options
  have hkinds : ∀ k, k ∈ options.kinds ↔ k = .url := by
    intro k
    cases k <;> decide
  have hlimit : (source.length : Int) ≤ options.limit := by decide
  have hlimit' : (once.length : Int) ≤ options.limit := by decide
  obtain ⟨parsed, hparse, hexchanged⟩ := parse_css_mapUrls f hkinds hlimit
  have hsegments : parsed.segments = [.literal "a:url(".toList, .part ⟨.url, .text [' '], false⟩,
      .literal ") :Url( '".toList, .part ⟨.url, .text ['b', '}'], false⟩, .literal "')".toList] := by
    rw [eq_of_parse hparse]
    decide +kernel
  have htargets : ∀ p ∈ parts parsed.segments, f p.value.display ≠ [] ∧
      (∀ c ∈ ['(', ')', '\'', '"', '\n'], c ∉ f p.value.display) ∧
      ∀ c ∈ (f p.value.display).head?, Text.isBlank c = false := by
    intro p hp
    rw [hsegments] at hp
    simp only [parts_literal, parts_part, parts_nil, List.mem_cons, List.not_mem_nil, or_false] at hp
    rcases hp with rfl | rfl <;> simp [f, Value.display] <;> decide
  have honce : css (mapUrls f parsed.segments) = .ok once := by
    rw [hsegments]
    decide
  obtain ⟨out, hcss, hagain⟩ := hexchanged htargets
  obtain rfl : out = once := Except.ok.inj (hcss.symm.trans honce)
  obtain ⟨again, hparse', hsame⟩ := hagain hlimit'
  exact ⟨hkinds, hlimit, hlimit', parsed, again, hparse, htargets, hcss, hparse', hsame⟩

/-! ## Selectors -/

theorem Selector.suits_retext {g : Text → Text} (hg : ∀ t, Selector.IsName t → Selector.IsName (g t)) :
    (Swap.retext g).Suits Selector.occurrences fun _ _ => True := by
  refine Swap.Suits.of_exists Selector.pairwise_occurrences ?_
  intro before span after o ho hplaced _
  obtain ⟨p, name, hname, hplaced', hpart⟩ := Selector.exists_place ho
  obtain ⟨rfl, rfl, rfl⟩ := hplaced.unique hplaced'
  obtain ⟨l, r, hfound⟩ := Selector.exists_occurrences_append p
  refine ⟨hname.ne_nil, l, r, ?_, ?_⟩
  · rw [hfound span hname, hplaced.eq_mk, hpart]
  · rw [Swap.occurrence, hplaced.offset_eq, hpart]
    exact hfound (g span) (hg span hname)

/-- No literal after a selector is blank. -/
theorem Selector.tight {c : Cut} {source : Text} (hc : c.Cuts source (Selector.occurrences source)) {s : Stretch}
    {r : List Stretch} (hs : c.stretches = s :: r) {dropBlank : Bool}
    (hfirst : Layout.isVoid dropBlank (.literal s.gap) = true → s.gap = []) : c.Tight dropBlank := by
  refine hc.tight (Selector.pairwise_parted source) (fun o ho => ?_) hs hfirst
  obtain ⟨p, name, -, hplaced, -⟩ := Selector.exists_place ho
  obtain ⟨ch, rest, hafter, hch⟩ := p.exists_after
  refine ⟨p.before, name, p.after, hplaced, ch, by simp [hafter], ?_⟩
  rcases hch with rfl | rfl <;> decide

/-- Without the blanks before its first selector, a text is cut as it was. -/
theorem Selector.cuts_of_blank {source tail : Text} {s : Stretch} {r : List Stretch}
    (hc : (⟨s :: r, tail⟩ : Cut).Cuts source (Selector.occurrences source)) (hblank : Text.allBlank s.gap = true) :
    let k : Int := s.gap.length
    let d : Cut := ⟨⟨[], s.found.shift (-k), s.span⟩ :: r.map (Stretch.shift (-k)), tail⟩
    d.Cuts d.text (Selector.occurrences d.text) := by
  intro k d
  have hmem : s.found ∈ Selector.occurrences source := hc.found_eq ▸ List.mem_cons_self
  obtain ⟨p, name, hname, hplaced, -⟩ := Selector.exists_place hmem
  obtain ⟨hbefore, hspan, hafter⟩ := (hc.placed (l := []) rfl).unique hplaced
  replace hbefore : s.gap = p.before := hbefore
  have htext : d.text = name ++ p.after := by
    rw [← hspan, ← hafter]
    simp [d, Cut.text, Cut.textWith, List.flatMap_map]
  have hback : Occurrence.shift (-k) ∘ Occurrence.shift k = id := by
    funext o
    rw [Function.comp_apply, Occurrence.shift_shift, Int.add_right_neg, Occurrence.shift_zero]
    rfl
  have hfound : Selector.occurrences d.text = (Selector.occurrences source).map (Occurrence.shift (-k)) := by
    rw [htext, hplaced.source_eq, Selector.occurrences_of_blank hname (hbefore ▸ hblank), ← hbefore,
      List.map_map, hback, List.map_id]
  refine ⟨rfl, ?_, ?_⟩
  · rw [hfound, ← hc.found_eq]
    simp only [d, List.map_cons, List.map_map]
    rfl
  · obtain ⟨hoffset, hlength, hr⟩ := hc.aligned
    refine ⟨?_, hlength, hr.shift ?_⟩
    · simp only [Occurrence.shift_offset, List.length_nil, k]
      omega
    · simp only [List.length_nil, k]
      omega

/-- A literal before the first selector may be left out: the text that is left has the same selectors. -/
theorem Selector.exists_tight {c : Cut} {source : Text} (hc : c.Cuts source (Selector.occurrences source))
    (hne : c.stretches ≠ []) (dropBlank : Bool) :
    ∃ d : Cut, d.Cuts d.text (Selector.occurrences d.text) ∧ d.stretches ≠ [] ∧ d.Tight dropBlank ∧
      (c.segments.filter fun s => !Layout.isVoid dropBlank s) = d.segments.filter (· ≠ .literal []) := by
  obtain ⟨stretches, tail⟩ := c
  obtain ⟨s, r, rfl⟩ := List.exists_cons_of_ne_nil hne
  by_cases hvoid : Layout.isVoid dropBlank (.literal s.gap) = true
  · have hblank : Text.allBlank s.gap = true := by
      cases dropBlank with
      | true => exact hvoid
      | false =>
        rw [List.isEmpty_iff.mp hvoid]
        rfl
    have hd := Selector.cuts_of_blank hc hblank
    have htight : Cut.Tight _ dropBlank := Selector.tight hd rfl fun _ => rfl
    refine ⟨_, hd, by simp, htight, ?_⟩
    rw [← htight.filter_eq]
    simp [Cut.segments, hvoid, Cut.isVoid_nil, List.flatMap_map]
  · have htight := Selector.tight hc rfl fun h => absurd h hvoid
    rw [← hc.text_eq] at hc
    exact ⟨_, hc, hne, htight, htight.filter_eq⟩

theorem Selector.IsName.scoped {outer name : Text} (h : Selector.IsName name) (hne : Text.trim outer ≠ [])
    (houter : ∀ c ∈ Text.trim outer, Selector.isListChar c = true ∧ c ≠ ',') :
    Selector.IsName (Text.trim outer ++ ' ' :: name) := by
  refine ⟨?_, ⟨?_, ?_⟩, ?_, ?_⟩
  · by_contra hign
    rw [Bool.not_eq_false] at hign
    rcases Selector.isAlpha_or_eq_colon_of_isIgnored hign ' ' (by simp) with halpha | hcolon
    · cases halpha
    · cases hcolon
  · intro c hc
    obtain ⟨d, t, hd⟩ := List.exists_cons_of_ne_nil hne
    rw [hd] at hc
    obtain rfl := Option.some.inj hc
    exact (Text.trimmed_trim outer).head d (by rw [hd]; rfl)
  · intro c hc
    refine h.trimmed.last c ?_
    obtain ⟨front, d, rfl⟩ := (List.eq_nil_or_concat' name).resolve_left h.ne_nil
    simpa [List.getLast?_append, List.getLast?_cons] using hc
  · intro c hc
    rcases List.mem_append.mp hc with hc | hc
    · exact (houter c hc).1
    · rcases List.mem_cons.mp hc with rfl | hc
      · decide
      · exact h.char c hc
  · intro hc
    rcases List.mem_append.mp hc with hc | hc
    · exact (houter _ hc).2 rfl
    · rcases List.mem_cons.mp hc with hc | hc
      · cases hc
      · exact h.comma hc

/-- Where only selectors are looked for, selectors that are put under an outer one are found again, each as it is,
    between the literals there were. This needs that the outer one has list characters other than the comma only. -/
theorem parse_css_scope {source outer : Text} {options : Options} (hkinds : ∀ k, k ∈ options.kinds ↔ k = .selector)
    (houter : ∀ c ∈ Text.trim outer, Selector.isListChar c = true ∧ c ≠ ',') (hlimit : source.length ≤ options.limit) :
    ∃ parsed out, parse source options = .ok parsed ∧ css (scope outer parsed.segments) = .ok out ∧
      (out.length ≤ options.limit → ∃ again, parse out options = .ok again ∧
        again.segments = scope outer parsed.segments) := by
  obtain ⟨parsed, hparse⟩ := exists_parse hlimit
  let g : Text → Text := fun t => if Text.trim outer = [] then t else Text.trim outer ++ ' ' :: t
  have hname : ∀ t, Selector.IsName t → Selector.IsName (g t) := by
    intro t ht
    by_cases hnil : Text.trim outer = []
    · simpa only [g, if_pos hnil] using ht
    · simpa only [g, if_neg hnil] using ht.scoped hnil houter
  have hscope : scope outer parsed.segments =
      parsed.segments.map (revalue .selector fun v => .text (g v.display)) := by
    by_cases hnil : Text.trim outer = []
    · have hself : ∀ s ∈ parsed.segments, s = revalue .selector (fun v => .text v.display) s := by
        intro s hs
        cases s with
        | literal t => rfl
        | part p =>
          obtain ⟨t, rfl⟩ := exists_text_of_parse (Or.inl rfl) hkinds hparse hs
          rfl
      simp only [scope, g, hnil, List.isEmpty_nil, if_true]
      rw [← List.map_congr_left hself, List.map_id']
    · simp only [scope, g, hnil, List.isEmpty_iff, if_false]
  obtain ⟨out, hcss, hagain⟩ := exists_parse_retext (g := g) (Or.inl rfl) hkinds (Selector.suits_retext hname) hparse
    (fun c hc hne => Selector.exists_tight hc hne _) fun _ _ => trivial
  rw [← hscope] at hcss hagain
  exact ⟨parsed, out, hparse, hcss, hagain⟩

/-- Entries with brackets and quotes, ignored ones, a blank that is left out, and a line end in the outer selector. -/
theorem parse_css_scope_lines :
    let source := (" .a[b='c'], to,d{e}\nf,from" ++ r"{").toList
    let outer := "\tg\n>h ".toList
    let once := ("g\n>h .a[b='c'], to,g\n>h d{e}\ng\n>h f,from" ++ r"{").toList
    let options : Options := { kinds := [.selector], dropBlank := true }
    (∀ k, k ∈ options.kinds ↔ k = .selector) ∧
      (∀ c ∈ Text.trim outer, Selector.isListChar c = true ∧ c ≠ ',') ∧ (source.length : Int) ≤ options.limit ∧
      (once.length : Int) ≤ options.limit ∧ ∃ parsed again, parse source options = .ok parsed ∧
        css (scope outer parsed.segments) = .ok once ∧ parse once options = .ok again ∧
        again.segments = scope outer parsed.segments := by
  intro source outer once options
  have hkinds : ∀ k, k ∈ options.kinds ↔ k = .selector := by
    intro k
    cases k <;> decide
  have houter : ∀ c ∈ Text.trim outer, Selector.isListChar c = true ∧ c ≠ ',' := by
    have hall : (Text.trim outer).all (fun c => Selector.isListChar c && c != ',') = true := by decide +kernel
    simpa using List.all_eq_true.mp hall
  have hlimit : (source.length : Int) ≤ options.limit := by decide
  have hlimit' : (once.length : Int) ≤ options.limit := by decide
  obtain ⟨parsed, out, hparse, hcss, hagain⟩ := parse_css_scope hkinds houter hlimit
  have honce : css (scope outer parsed.segments) = .ok once := by
    rw [eq_of_parse hparse]
    decide +kernel
  obtain rfl : out = once := Except.ok.inj (hcss.symm.trans honce)
  obtain ⟨again, hparse', hsame⟩ := hagain hlimit'
  exact ⟨hkinds, houter, hlimit, hlimit', parsed, again, hparse, hcss, hparse', hsame⟩

end Stylesheet
