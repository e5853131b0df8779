/-
  Stylesheet.Proofs.Inlining — values put in place of references, and put in place again.

  A pass takes a name for the value the caller gives it, or else for the one it was last declared with
  (`lookup_known`). It changes no declaration (`declarations_inline`), so that the next pass finds the same ones, and
  what it leaves of a reference is a literal, in which the next pass finds nothing (`fill_fill`): two passes
  are one that asks the first of them for a value and then the second. In place of a reference that is marked for
  escaping stands its value percent-encoded (`fill_escaped`), which no quote or bracket is in.

  Main statements: `inline_inline`, `inline_escapes`.
-/

import Stylesheet.Pass.Inline
import Stylesheet.Proofs.Merge
import Stylesheet.Proofs.Text.Percent

namespace Stylesheet

/-! ## What a name stands for -/

def lastDeclared? (segments : List Segment) (name : Text) : Option Text :=
  ((declarations segments).filter (·.1 = name)).getLast?.map Prod.snd

/-- The value a pass takes a name for: a given one, or else the one declared last if declarations are used. -/
def valueOf? (values : List (Text × Text)) (useDeclared : Bool) (segments : List Segment) (name : Text) :
    Option Text :=
  (values.lookup name).or (if useDeclared then lastDeclared? segments name else none)

theorem lookup_reverse (table : List (Text × Text)) (name : Text) :
    table.reverse.lookup name = (table.filter (·.1 = name)).getLast?.map Prod.snd := by
  induction table with
  | nil => rfl
  | cons entry table ih =>
    obtain ⟨key, value⟩ := entry
    rw [List.reverse_cons, List.lookup_append, ih]
    by_cases hkey : key = name
    · rw [List.filter_cons_of_pos (by simpa using hkey), List.getLast?_cons]
      cases (table.filter (·.1 = name)).getLast? <;> simp [hkey]
    · have hne : (name == key) = false := by simpa using Ne.symm hkey
      rw [List.filter_cons_of_neg (by simpa using hkey)]
      simp [List.lookup, hne]

theorem lookup_known (values : List (Text × Text)) (useDeclared : Bool) (segments : List Segment) (name : Text) :
    (known values useDeclared segments).lookup name = valueOf? values useDeclared segments name := by
  rw [known, List.lookup_append, valueOf?]
  cases useDeclared with
  | false => rfl
  | true => rw [if_pos rfl, if_pos rfl, lookup_reverse, lastDeclared?]

/-! ## One pass -/

/-- A reference to a name that has a value becomes this value, percent-encoded if the reference is marked for escaping;
    all else stays. -/
def Segment.fill (value? : Text → Option Text) : Segment → Segment
  | .part ⟨.var, .text name, escape⟩ =>
    match value? name with
    | some value => .literal (if escape then Text.Percent.encode value else value)
    | none => .part ⟨.var, .text name, escape⟩
  | s => s

theorem fill_lookup (table : List (Text × Text)) (s : Segment) : s.fill (table.lookup ·) = s.inline table := by
  cases s with
  | literal t => rfl
  | part p =>
    obtain ⟨kind, value, escape⟩ := p
    cases kind <;> cases value <;> rfl

/-- A pass puts in for each reference what its name stands for, and merges what comes of it. -/
theorem inline_eq (values : List (Text × Text)) (useDeclared : Bool) (segments : List Segment) :
    inline values useDeclared segments =
      merge (segments.map (Segment.fill (valueOf? values useDeclared segments))) := by
  rw [inline]
  congr 1
  refine List.map_congr_left fun s _ => ?_
  rw [← fill_lookup]
  congr 1
  funext name
  rw [lookup_known]

/-! ## Another pass after it -/

theorem fill_literal (value? : Text → Option Text) (t : Text) : Segment.fill value? (.literal t) = .literal t := rfl

theorem declared?_fill (value? : Text → Option Text) (s : Segment) : (s.fill value?).declared? = s.declared? := by
  unfold Segment.fill
  split
  · split <;> rfl
  · rfl

theorem declarations_inline (values : List (Text × Text)) (useDeclared : Bool) (segments : List Segment) :
    declarations (inline values useDeclared segments) = declarations segments := by
  rw [inline_eq, declarations, filterMap_merge (fun _ => rfl), List.filterMap_map]
  exact List.filterMap_congr fun s _ => declared?_fill _ s

theorem valueOf?_inline (values values' : List (Text × Text)) (useDeclared useDeclared' : Bool)
    (segments : List Segment) :
    valueOf? values' useDeclared' (inline values useDeclared segments) = valueOf? values' useDeclared' segments := by
  funext name
  rw [valueOf?, valueOf?, lastDeclared?, lastDeclared?, declarations_inline]

/-- What the first of two passes has a value for is a literal to the second. -/
theorem fill_fill (first second : Text → Option Text) (s : Segment) :
    (s.fill first).fill second = s.fill fun name => (first name).or (second name) := by
  cases s with
  | literal t => rfl
  | part p =>
    obtain ⟨kind, value, escape⟩ := p
    match kind, value with
    | .var, .text name =>
      simp only [Segment.fill]
      cases hfirst : first name with
      | some value => rfl
      | none => simp only [Option.none_or]
    | .var, .property q => rfl
    | .selector, _ | .property, _ | .url, _ => rfl

/-- Two passes are one that takes a name for what the first of them takes it for, or else for what the second does,
    whose declarations are those of the segments at the start. The same pass once more changes nothing. -/
theorem inline_inline (values values' : List (Text × Text)) (useDeclared useDeclared' : Bool)
    (segments : List Segment) :
    inline values' useDeclared' (inline values useDeclared segments) =
        merge (segments.map (Segment.fill fun name =>
          (values.lookup name).or
            ((if useDeclared then lastDeclared? segments name else none).or
              ((values'.lookup name).or (if useDeclared' then lastDeclared? segments name else none))))) ∧
      inline values useDeclared (inline values useDeclared segments) = inline values useDeclared segments := by
  have twice : ∀ values' useDeclared', inline values' useDeclared' (inline values useDeclared segments) =
      merge (segments.map (Segment.fill fun name =>
        (valueOf? values useDeclared segments name).or (valueOf? values' useDeclared' segments name))) := by
    intro values' useDeclared'
    rw [inline_eq values', valueOf?_inline, inline_eq values, merge_map_merge (fill_literal _), List.map_map]
    congr 1
    exact List.map_congr_left fun s _ => fill_fill _ _ s
  constructor
  · rw [twice]
    simp only [valueOf?, Option.or_assoc]
  · rw [twice, inline_eq]
    simp only [Option.or_self]

/-! ## Escaped references -/

theorem fill_escaped {value? : Text → Option Text} {name value : Text} (h : value? name = some value) :
    Segment.fill value? (.part ⟨.var, .text name, true⟩) = .literal (Text.Percent.encode value) := by
  simp only [Segment.fill, h, if_true]

/-- Whatever a name stands for, the text that takes the place of a reference to it that is marked for escaping has only
    ASCII letters and digits and the signs `_ . - ~ %` in it, and so nothing that ends a quoted text or an attribute; two
    upper-case digits follow every percent sign; and the text is read back as the value. -/
theorem inline_escapes {values : List (Text × Text)} {useDeclared : Bool} {segments before after : List Segment}
    {name value : Text} (hsegments : segments = before ++ .part ⟨.var, .text name, true⟩ :: after)
    (hvalue : valueOf? values useDeclared segments name = some value) :
    ∃ t, inline values useDeclared segments =
        merge (before.map (Segment.fill (valueOf? values useDeclared segments)) ++
          .literal t :: after.map (Segment.fill (valueOf? values useDeclared segments))) ∧
      (∀ c ∈ t, c.isAlphanum = true ∨ c ∈ ['_', '.', '-', '~', '%']) ∧
      (∀ rest, '%' :: rest <:+ t → ∃ high low tail, rest = high :: low :: tail ∧
        Text.Hex.isUpperDigit high = true ∧ Text.Hex.isUpperDigit low = true) ∧
      Text.Percent.decode? t = some value := by
  refine ⟨Text.Percent.encode value, ?_, fun c hc => Text.Percent.mem_of_mem_encode hc,
    fun rest hrest => Text.Percent.exists_digits_of_suffix hrest, Text.Percent.decode?_encode value⟩
  have hmap : segments.map (Segment.fill (valueOf? values useDeclared segments)) =
      before.map (Segment.fill (valueOf? values useDeclared segments)) ++
        .literal (Text.Percent.encode value) ::
          after.map (Segment.fill (valueOf? values useDeclared segments)) := by
    rw [← fill_escaped hvalue, ← List.map_cons, ← List.map_append, ← hsegments]
  rw [inline_eq, hmap]

/-- A value with quotes, a percent sign and characters of two to four bytes, declared after another one. -/
theorem inline_escapes_declared :
    let before : List Segment :=
      [.part ⟨.property, .property ⟨['a'], ['b']⟩, false⟩,
        .part ⟨.property, .property ⟨['a'], "'\"%é€😀".toList⟩, false⟩, .literal "c[d='".toList]
    let after : List Segment := [.literal "']".toList]
    let segments := before ++ .part ⟨.var, .text ['a'], true⟩ :: after
    valueOf? [] true segments ['a'] = some "'\"%é€😀".toList ∧
      parts (inline [] true segments) = parts before ∧
      (inline [] true segments).getLast? = some (.literal "c[d='%27%22%25%C3%A9%E2%82%AC%F0%9F%98%80']".toList) ∧
      ∃ t, inline [] true segments =
          merge (before.map (Segment.fill (valueOf? [] true segments)) ++
            .literal t :: after.map (Segment.fill (valueOf? [] true segments))) ∧
        (∀ c ∈ t, c.isAlphanum = true ∨ c ∈ ['_', '.', '-', '~', '%']) ∧
        (∀ rest, '%' :: rest <:+ t → ∃ high low tail, rest = high :: low :: tail ∧
          Text.Hex.isUpperDigit high = true ∧ Text.Hex.isUpperDigit low = true) ∧
        Text.Percent.decode? t = some "'\"%é€😀".toList := by
  intro before after segments
  have hvalue : valueOf? [] true segments ['a'] = some "'\"%é€😀".toList := by decide +kernel
  exact ⟨hvalue, by decide +kernel, by decide +kernel, inline_escapes rfl hvalue⟩

end Stylesheet
