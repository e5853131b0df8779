/-
  Stylesheet.Proofs.Json.Writing — what values are written as.

  A written value is a text of the grammar (`spells_write`), whatever the style, as long as the style adds white space
  only; so the reader takes it back to the value, and two values are written alike only if they are equal. The compact
  text of a value is printable ASCII throughout (`isPrint_of_mem_write_compact`).
-/

import Stylesheet.Proofs.Json.Grammar

namespace Stylesheet.Json

/-! ## Induction on values -/

/-- Induction on a value, with the property at hand for every item of a list and for the value of every field. -/
@[elab_as_elim]
theorem memInduction {motive : Json → Prop} (null : motive .null) (bool : ∀ b, motive (.bool b))
    (number : ∀ n, motive (.number n)) (text : ∀ t, motive (.text t))
    (list : ∀ items : List Json, (∀ item ∈ items, motive item) → motive (.list items))
    (object : ∀ fields : List (Text × Json), (∀ field ∈ fields, motive field.2) → motive (.object fields)) :
    ∀ v : Json, motive v
  | .null => null
  | .bool b => bool b
  | .number n => number n
  | .text t => text t
  | .list items => list items fun item _ => memInduction null bool number text list object item
  | .object fields => object fields fun field _ => memInduction null bool number text list object field.2
termination_by v => sizeOf v
decreasing_by
  · have := List.sizeOf_lt_of_mem ‹item ∈ items›
    simp only [Json.list.sizeOf_spec]
    omega
  · have := List.sizeOf_lt_of_mem ‹field ∈ fields›
    cases field
    simp only [Json.object.sizeOf_spec, Prod.mk.sizeOf_spec] at *
    omega

/-! ## Strings -/

def isPrint (c : Char) : Bool := 0x20 ≤ c.toNat && c.toNat ≤ 0x7E

theorem isPrint_iff {c : Char} : isPrint c = true ↔ 0x20 ≤ c.toNat ∧ c.toNat ≤ 0x7E := by
  simp [isPrint]

theorem digit?_digitChar {n : Nat} (h : n < 16) : Text.Hex.digit? (Nat.digitChar n) = some n :=
  (by decide : ∀ n < 16, Text.Hex.digit? (Nat.digitChar n) = some n) n h

/-- An escape of a unit has four digits, and they are those of the unit. -/
theorem exists_escapeUnit_eq {n : Nat} (h : n < 0x10000) :
    ∃ a b d e, escapeUnit n = ['\\', 'u', a, b, d, e] ∧ unit? a b d e = some n := by
  refine ⟨_, _, _, _, rfl, ?_⟩
  unfold unit?
  simp only [digit?_digitChar (Nat.mod_lt _ (by decide : 0 < 16)), Option.bind_eq_bind, Option.bind_some]
  exact congrArg some (by omega)

theorem shortEscape?_eq_some {c letter : Char} (h : shortEscape? c = some letter) :
    unescape? letter = some c ∧ isPrint letter = true := by
  unfold shortEscape? at h
  repeat' split at h
  all_goals cases h
  all_goals
    subst_vars
    exact ⟨rfl, by decide⟩

theorem spellsChar_escapeChar (c : Char) : SpellsChar (escapeChar c) c := by
  unfold escapeChar
  split
  case h_1 letter h => exact .letter (shortEscape?_eq_some h).1
  case h_2 h =>
    have hquote : c ≠ '"' := by
      rintro rfl
      cases h
    have hbackslash : c ≠ '\\' := by
      rintro rfl
      cases h
    by_cases hprint : 0x20 ≤ c.toNat ∧ c.toNat < 0x7F
    · rw [if_pos hprint]
      exact .plain hprint.1 hquote hbackslash
    by_cases hunit : c.toNat < 0x10000
    · rw [if_neg hprint, if_pos hunit]
      obtain ⟨a, b, d, e, heq, hc⟩ := exists_escapeUnit_eq hunit
      rw [heq]
      exact .unit hc
    · have := Text.toNat_valid c
      rw [if_neg hprint, if_neg hunit]
      -- ten bits go to each surrogate, which leaves both below U+E000
      obtain ⟨a, b, d, e, heq, hhigh⟩ := exists_escapeUnit_eq (n := 0xD800 + (c.toNat - 0x10000) / 0x400) (by omega)
      obtain ⟨a', b', d', e', heq', hlow⟩ := exists_escapeUnit_eq (n := 0xDC00 + (c.toNat - 0x10000) % 0x400) (by omega)
      rw [heq, heq']
      exact .pair hhigh hlow (by omega) (by omega) (by omega)

theorem spellsChars_flatMap (s : Text) : SpellsChars (s.flatMap escapeChar) s := by
  induction s with
  | nil => exact .nil
  | cons c s ih => exact .cons (spellsChar_escapeChar c) ih

/-! ## Values -/

/-- A style that adds nothing but white space. -/
structure Style.Spaced (style : Style) : Prop where
  lineBreak : ∀ depth, Spaces (style.lineBreak depth)
  colon : ∃ l r, Spaces l ∧ Spaces r ∧ style.colon = l ++ ':' :: r

theorem Style.Spaced.compact : Style.compact.Spaced := ⟨fun _ => rfl, [], [], rfl, rfl, rfl⟩

theorem Style.Spaced.indented : Style.indented.Spaced where
  lineBreak := by
    intro depth
    show (isSpace '\n' && (List.replicate (2 * depth) ' ').all isSpace) = true
    simp [isSpace]
  colon := ⟨[], [' '], rfl, rfl, rfl⟩

theorem spellsValue_ofInt (n : Int) : SpellsValue (Text.ofInt n) (.number n) := by
  cases n with
  | ofNat n => exact .natural n
  | negSucc n => exact .negative (n + 1)

/-- Joined items are a series: each has the line break before it, and the last one has what comes after it as well. -/
theorem series_intercalate {α : Type} {phrase : Text → α → Prop} {w : α → Text} {l r : Text} (hr : Spaces r)
    {xs : List α} (hne : xs ≠ []) (h : ∀ x ∈ xs, ∀ r, Spaces r → phrase (l ++ w x ++ r) x) :
    Series phrase (l ++ List.intercalate (',' :: l) (xs.map w) ++ r) xs := by
  induction xs with
  | nil => exact absurd rfl hne
  | cons x xs ih =>
    cases xs with
    | nil =>
      rw [List.map_cons, List.map_nil, List.intercalate_singleton]
      exact .last (h x List.mem_cons_self r hr)
    | cons y ys =>
      have hx := h x List.mem_cons_self [] rfl
      have hrest := ih (List.cons_ne_nil _ _) fun z hz => h z (List.mem_cons_of_mem _ hz)
      rw [List.map_cons, List.map_cons, List.intercalate_cons_cons, ← List.map_cons]
      rw [List.append_nil] at hx
      have := Series.cons hx hrest
      simpa only [List.append_assoc, List.cons_append] using this

/-- Between brackets stands white space, or the items with commas between them. -/
theorem exists_bracketed {α : Type} {phrase : Text → α → Prop} {style : Style} (hs : style.Spaced) (depth : Nat)
    (opening closing : Char) (w : α → Text) {xs : List α}
    (h : ∀ x ∈ xs, ∀ l r, Spaces l → Spaces r → phrase (l ++ w x ++ r) x) :
    ∃ t, bracketed style depth opening closing (xs.map w) = opening :: t ++ [closing] ∧
      (xs = [] ∧ Spaces t ∨ Series phrase t xs) := by
  unfold bracketed
  by_cases hxs : xs = []
  · rw [hxs]
    exact ⟨[], rfl, .inl ⟨rfl, rfl⟩⟩
  · rw [if_neg (by simpa using hxs)]
    exact ⟨_, rfl, .inr (series_intercalate (hs.lineBreak depth) hxs fun x hx r hr =>
      h x hx _ r (hs.lineBreak (depth + 1)) hr)⟩

theorem spellsValue_write {style : Style} (hs : style.Spaced) (v : Json) (depth : Nat) :
    SpellsValue (write style depth v) v := by
  induction v using memInduction generalizing depth with
  | null =>
    rw [write]
    exact .null
  | bool b =>
    cases b <;> rw [write]
    · exact .bool_false
    · exact .bool_true
  | number n =>
    rw [write]
    exact spellsValue_ofInt n
  | text t =>
    rw [write]
    exact .text (spellsChars_flatMap t)
  | list items ih =>
    rw [write_list]
    obtain ⟨t, ht, ⟨rfl, hspaces⟩ | hseries⟩ := exists_bracketed hs depth '[' ']' (write style (depth + 1))
      fun item hitem l r hl hr => SpellsItem.pad hl (ih item hitem (depth + 1)) hr
    · rw [ht]
      exact .list_nil hspaces
    · rw [ht]
      exact .list hseries
  | object fields ih =>
    rw [write_object]
    obtain ⟨a, b, ha, hb, hcolon⟩ := hs.colon
    obtain ⟨t, ht, ⟨rfl, hspaces⟩ | hseries⟩ := exists_bracketed hs depth '{' '}'
      (fun field : Text × Json => string field.1 ++ style.colon ++ write style (depth + 1) field.2)
      fun field hfield l r hl hr => by
        have hvalue := SpellsItem.pad hb (ih field hfield (depth + 1)) hr
        have hpair := SpellsField.pair hl (spellsChars_flatMap field.1) ha hvalue
        simpa only [string, hcolon, List.append_assoc, List.cons_append, List.nil_append] using hpair
    · rw [ht]
      exact .object_nil hspaces
    · rw [ht]
      exact .object hseries

theorem spells_write {style : Style} (hs : style.Spaced) (v : Json) (depth : Nat) : Spells (write style depth v) v := by
  have h := SpellsItem.pad (l := []) (r := []) rfl (spellsValue_write hs v depth) rfl
  rwa [List.nil_append, List.append_nil] at h

theorem Spells.append_spaces {t w : Text} {v : Json} (h : Spells t v) (hw : Spaces w) : Spells (t ++ w) v := by
  cases h with
  | pad hl hv hr =>
    rw [List.append_assoc]
    refine .pad hl hv ?_
    rw [Spaces, List.all_append, Bool.and_eq_true]
    exact ⟨hr, hw⟩

theorem read?_write {style : Style} (hs : style.Spaced) (v : Json) (depth : Nat) :
    read? (write style depth v) = some v :=
  read?_of_spells (spells_write hs v depth)

/-- Values written alike are equal. -/
theorem write_injective {style : Style} (hs : style.Spaced) {depth : Nat} {v w : Json}
    (h : write style depth v = write style depth w) : v = w :=
  (spells_write hs v depth).unique (h ▸ spells_write hs w depth)

/-! ## Characters -/

theorem isPrint_of_mem_lower {c : Char} {width n : Nat} (h : c ∈ Text.Hex.lower width n) : isPrint c = true := by
  induction width generalizing n with
  | zero => cases h
  | succ width ih =>
    rcases List.mem_append.mp h with h | h
    · exact ih h
    · rw [List.mem_singleton.mp h]
      exact (by decide : ∀ d < 16, isPrint (Nat.digitChar d) = true) _ (Nat.mod_lt _ (by decide))

theorem isPrint_of_mem_escapeUnit {c : Char} {n : Nat} (h : c ∈ escapeUnit n) : isPrint c = true := by
  rcases List.mem_cons.mp h with rfl | h
  · decide
  rcases List.mem_cons.mp h with rfl | h
  · decide
  exact isPrint_of_mem_lower h

theorem isPrint_of_mem_escapeChar {c d : Char} (h : d ∈ escapeChar c) : isPrint d = true := by
  unfold escapeChar at h
  split at h
  case h_1 letter hletter =>
    rcases List.mem_cons.mp h with rfl | h
    · decide
    · rw [List.mem_singleton.mp h]
      exact (shortEscape?_eq_some hletter).2
  case h_2 =>
    dsimp only at h
    split at h
    case isTrue hprint =>
      rw [List.mem_singleton.mp h]
      exact isPrint_iff.mpr ⟨hprint.1, Nat.le_of_lt_succ hprint.2⟩
    case isFalse =>
      split at h
      · exact isPrint_of_mem_escapeUnit h
      · rcases List.mem_append.mp h with h | h <;> exact isPrint_of_mem_escapeUnit h

theorem isPrint_of_mem_string {c : Char} {t : Text} (h : c ∈ string t) : isPrint c = true := by
  simp only [string, List.mem_append, List.mem_cons, List.mem_flatMap, List.not_mem_nil, or_false] at h
  rcases h with (rfl | ⟨d, -, hd⟩) | rfl
  · decide
  · exact isPrint_of_mem_escapeChar hd
  · decide

theorem isPrint_of_mem_ofInt {c : Char} {n : Int} (h : c ∈ Text.ofInt n) : isPrint c = true := by
  have hdigit : ∀ {n : Nat}, c ∈ Text.ofNat n → isPrint c = true := by
    intro n h
    have hc := isDigit_of_mem_ofNat h
    simp only [Char.isDigit, Bool.and_eq_true, decide_eq_true_eq] at hc
    have hlow : 48 ≤ c.toNat := hc.1
    have hhigh : c.toNat ≤ 57 := hc.2
    exact isPrint_iff.mpr ⟨by omega, by omega⟩
  cases n with
  | ofNat n => exact hdigit h
  | negSucc n =>
    rcases List.mem_cons.mp h with rfl | h
    · decide
    · exact hdigit h

theorem mem_intercalate {c : Char} {sep : Text} {ts : List Text} (h : c ∈ List.intercalate sep ts) :
    c ∈ sep ∨ ∃ t ∈ ts, c ∈ t := by
  induction ts with
  | nil => cases h
  | cons t ts ih =>
    cases ts with
    | nil => exact .inr ⟨t, List.mem_cons_self, by simpa using h⟩
    | cons u us =>
      rw [List.intercalate_cons_cons, List.mem_append, List.mem_append] at h
      rcases h with (h | h) | h
      · exact .inr ⟨t, List.mem_cons_self, h⟩
      · exact .inl h
      · rcases ih h with h | ⟨v, hv, hc⟩
        · exact .inl h
        · exact .inr ⟨v, List.mem_cons_of_mem _ hv, hc⟩

def Style.Adds (style : Style) (c : Char) : Prop := (∃ depth, c ∈ style.lineBreak depth) ∨ c ∈ style.colon

theorem mem_bracketed {style : Style} {depth : Nat} {opening closing c : Char} {ts : List Text}
    (h : c ∈ bracketed style depth opening closing ts) :
    c ∈ [opening, closing, ','] ∨ style.Adds c ∨ ∃ t ∈ ts, c ∈ t := by
  unfold bracketed at h
  split at h
  · simp only [List.mem_cons, List.not_mem_nil, or_false] at h
    rcases h with rfl | rfl
    · exact .inl (by simp)
    · exact .inl (by simp)
  · simp only [List.mem_append, List.mem_cons, List.not_mem_nil, or_false] at h
    rcases h with (((rfl | h) | h) | h) | rfl
    · exact .inl (by simp)
    · exact .inr (.inl (.inl ⟨_, h⟩))
    · rcases mem_intercalate h with h | h
      · rcases List.mem_cons.mp h with rfl | h
        · exact .inl (by simp)
        · exact .inr (.inl (.inl ⟨_, h⟩))
      · exact .inr (.inr h)
    · exact .inr (.inl (.inl ⟨_, h⟩))
    · exact .inl (by simp)

/-- Beside what the style adds, only printable characters are written. -/
theorem mem_write {style : Style} {c : Char} {v : Json} {depth : Nat} (h : c ∈ write style depth v) :
    isPrint c = true ∨ style.Adds c := by
  induction v using memInduction generalizing depth with
  | null =>
    rw [write] at h
    exact .inl (List.all_eq_true.mp (by decide : ['n', 'u', 'l', 'l'].all isPrint = true) c h)
  | bool b =>
    cases b <;> rw [write] at h
    · exact .inl (List.all_eq_true.mp (by decide : ['f', 'a', 'l', 's', 'e'].all isPrint = true) c h)
    · exact .inl (List.all_eq_true.mp (by decide : ['t', 'r', 'u', 'e'].all isPrint = true) c h)
  | number n =>
    rw [write] at h
    exact .inl (isPrint_of_mem_ofInt h)
  | text t =>
    rw [write] at h
    exact .inl (isPrint_of_mem_string h)
  | list items ih =>
    rw [write_list] at h
    rcases mem_bracketed h with h | h | ⟨t, ht, hc⟩
    · exact .inl (List.all_eq_true.mp (by decide : ['[', ']', ','].all isPrint = true) c h)
    · exact .inr h
    · obtain ⟨item, hitem, rfl⟩ := List.mem_map.mp ht
      exact ih item hitem hc
  | object fields ih =>
    rw [write_object] at h
    rcases mem_bracketed h with h | h | ⟨t, ht, hc⟩
    · exact .inl (List.all_eq_true.mp (by decide : ['{', '}', ','].all isPrint = true) c h)
    · exact .inr h
    · obtain ⟨field, hfield, rfl⟩ := List.mem_map.mp ht
      rcases List.mem_append.mp hc with hc | hc
      · rcases List.mem_append.mp hc with hc | hc
        · exact .inl (isPrint_of_mem_string hc)
        · exact .inr (.inr hc)
      · exact ih field hfield hc

theorem isPrint_of_mem_write_compact {c : Char} {v : Json} {depth : Nat} (h : c ∈ write .compact depth v) :
    isPrint c = true := by
  rcases mem_write h with h | ⟨_, h⟩ | h
  · exact h
  · cases h
  · rw [List.mem_singleton.mp h]
    decide

end Stylesheet.Json
