/-
  Stylesheet.Proofs.Json.Grammar — the grammar of JSON texts, and the reader measured against it.

  The grammar says which texts spell which values: one relation for each of its phrases, and nothing about how a text
  is read. Numbers are whole numbers, as they are in the values. `read?` finds the value of every text that the grammar
  derives (`read?_of_spells`), so that no text spells two values (`Spells.unique`).
-/

import Stylesheet.Json.Reader
import Stylesheet.Proofs.Text.Trim

namespace Stylesheet.Json

/-! ## The grammar -/

def Spaces (w : Text) : Prop := w.all isSpace = true

/-- What may stand in a string for one character: the character itself, an escape of one letter, or its UTF-16 units,
    two of them where it lies above U+FFFF. -/
inductive SpellsChar : Text → Char → Prop where
  | plain {c : Char} (control : 0x20 ≤ c.toNat) (quote : c ≠ '"') (backslash : c ≠ '\\') : SpellsChar [c] c
  | letter {letter c : Char} (h : unescape? letter = some c) : SpellsChar ['\\', letter] c
  | unit {a b d e c : Char} (h : unit? a b d e = some c.toNat) : SpellsChar ['\\', 'u', a, b, d, e] c
  | pair {a b d e a' b' d' e' c : Char} {high low : Nat} (hh : unit? a b d e = some (0xD800 + high))
      (hl : unit? a' b' d' e' = some (0xDC00 + low)) (high_lt : high < 0x400) (low_lt : low < 0x400)
      (hc : c.toNat = 0x10000 + high * 0x400 + low) :
      SpellsChar ['\\', 'u', a, b, d, e, '\\', 'u', a', b', d', e'] c

inductive SpellsChars : Text → Text → Prop where
  | nil : SpellsChars [] []
  | cons {t u : Text} {c : Char} {s : Text} (h : SpellsChar t c) (rest : SpellsChars u s) :
      SpellsChars (t ++ u) (c :: s)

inductive Series {α : Type} (phrase : Text → α → Prop) : Text → List α → Prop where
  | last {t : Text} {x : α} (h : phrase t x) : Series phrase t [x]
  | cons {t u : Text} {x : α} {xs : List α} (h : phrase t x) (rest : Series phrase u xs) :
      Series phrase (t ++ ',' :: u) (x :: xs)

mutual

inductive SpellsValue : Text → Json → Prop where
  | null : SpellsValue ['n', 'u', 'l', 'l'] .null
  | bool_true : SpellsValue ['t', 'r', 'u', 'e'] (.bool true)
  | bool_false : SpellsValue ['f', 'a', 'l', 's', 'e'] (.bool false)
  | natural (n : Nat) : SpellsValue (Text.ofNat n) (.number n)
  | negative (n : Nat) : SpellsValue ('-' :: Text.ofNat n) (.number (-n))
  | text {t s : Text} (h : SpellsChars t s) : SpellsValue ('"' :: t ++ ['"']) (.text s)
  | list_nil {w : Text} (h : Spaces w) : SpellsValue ('[' :: w ++ [']']) (.list [])
  | list {t : Text} {items : List Json} (h : Series SpellsItem t items) : SpellsValue ('[' :: t ++ [']']) (.list items)
  | object_nil {w : Text} (h : Spaces w) : SpellsValue ('{' :: w ++ ['}']) (.object [])
  | object {t : Text} {fields : List (Text × Json)} (h : Series SpellsField t fields) :
      SpellsValue ('{' :: t ++ ['}']) (.object fields)

inductive SpellsItem : Text → Json → Prop where
  | pad {l t r : Text} {v : Json} (hl : Spaces l) (h : SpellsValue t v) (hr : Spaces r) : SpellsItem (l ++ t ++ r) v

inductive SpellsField : Text → Text × Json → Prop where
  | pair {l t r u : Text} {name : Text} {v : Json} (hl : Spaces l) (hn : SpellsChars t name) (hr : Spaces r)
      (h : SpellsItem u v) : SpellsField (l ++ '"' :: t ++ '"' :: r ++ ':' :: u) (name, v)

end

abbrev Spells (t : Text) (v : Json) : Prop := SpellsItem t v

/-! ## White space -/

theorem skipSpace_append_cons {w : Text} (hw : Spaces w) {c : Char} (hc : isSpace c = false) (t : Text) :
    skipSpace (w ++ c :: t) = c :: t := by
  apply Text.dropWhile_append_of_all hw
  intro d hd
  obtain rfl : c = d := by simpa using hd
  exact hc

theorem skipSpace_enclosed {w : Text} (hw : Spaces w) {c : Char} (hc : isSpace c = false) (d : Char) (t rest : Text) :
    skipSpace (w ++ (c :: t ++ [d]) ++ rest) = c :: (t ++ d :: rest) := by
  simp only [List.append_assoc, List.cons_append, List.nil_append]
  exact skipSpace_append_cons hw hc _

/-- What may follow a value: white space, a comma, a closing bracket, or the end of the text. -/
def Ends (rest : Text) : Prop := ∀ c ∈ rest.head?, isSpace c = true ∨ c = ',' ∨ c = ']' ∨ c = '}'

theorem ends_append {w t : Text} (hw : Spaces w) (ht : Ends t) : Ends (w ++ t) := by
  cases w with
  | nil => exact ht
  | cons c w =>
    intro d hd
    obtain rfl : c = d := by simpa using hd
    exact .inl (List.all_eq_true.mp hw c List.mem_cons_self)

theorem Ends.head {rest : Text} (h : Ends rest) (p : Char → Bool)
    (hp : [' ', '\n', '\r', '\t', ',', ']', '}'].all (fun c => !p c) = true) : ∀ c ∈ rest.head?, p c = false := by
  intro c hc
  have hmem : c ∈ [' ', '\n', '\r', '\t', ',', ']', '}'] := by
    have := h c hc
    simp only [isSpace, Bool.or_eq_true, beq_iff_eq] at this
    grind
  simpa using List.all_eq_true.mp hp c hmem

/-! ## Strings -/

theorem SpellsChar.exists_cons {t : Text} {c : Char} (h : SpellsChar t c) : ∃ d u, t = d :: u ∧ d ≠ '"' := by
  cases h with
  | plain control quote backslash => exact ⟨_, _, rfl, quote⟩
  | letter h => exact ⟨_, _, rfl, by decide⟩
  | unit h => exact ⟨_, _, rfl, by decide⟩
  | pair hh hl high_lt low_lt hc => exact ⟨_, _, rfl, by decide⟩

theorem SpellsChars.length_le {t s : Text} (h : SpellsChars t s) : s.length ≤ t.length := by
  induction h with
  | nil => exact Nat.le_refl _
  | cons h rest ih =>
    obtain ⟨d, u, rfl, -⟩ := h.exists_cons
    simp only [List.length_cons, List.length_append]
    omega

theorem escapedUnit?_toNat (c : Char) (t : Text) : escapedUnit? c.toNat t = some (c, t) := by
  have := Text.toNat_valid c
  unfold escapedUnit?
  rw [if_neg (by omega), if_neg (by omega), Char.ofNat_toNat]

theorem escapedUnit?_pair {high low : Nat} (high_lt : high < 0x400) (low_lt : low < 0x400) {a b d e : Char}
    (h : unit? a b d e = some (0xDC00 + low)) (t : Text) :
    escapedUnit? (0xD800 + high) ('\\' :: 'u' :: a :: b :: d :: e :: t) =
      some (Char.ofNat (0x10000 + high * 0x400 + low), t) := by
  unfold escapedUnit?
  rw [if_pos (by omega)]
  simp only [h, Option.bind_eq_bind, Option.bind_some]
  rw [if_pos (by omega), Nat.add_sub_cancel_left, Nat.add_sub_cancel_left]

theorem char?_of_spells {t : Text} {c : Char} (h : SpellsChar t c) (rest : Text) :
    char? (t ++ rest) = some (c, rest) := by
  cases h with
  | plain control quote backslash =>
    show char? (c :: rest) = some (c, rest)
    unfold char?
    split
    case h_1 heq => exact absurd (List.cons.inj heq).1 backslash
    case h_2 heq => exact absurd (List.cons.inj heq).1 backslash
    case h_3 heq =>
      obtain ⟨rfl, rfl⟩ := List.cons.inj heq
      rw [if_neg (by rintro (h | h); exacts [by omega, backslash h])]
    case h_4 heq => cases heq
  | @letter letter _ h =>
    show char? ('\\' :: letter :: rest) = some (c, rest)
    have hu : letter ≠ 'u' := by
      rintro rfl
      cases h
    unfold char?
    split
    case h_1 heq => exact absurd (List.cons.inj (List.cons.inj heq).2).1 hu
    case h_2 heq =>
      obtain ⟨rfl, rfl⟩ := List.cons.inj (List.cons.inj heq).2
      rw [h, Option.map_some]
    case h_3 hletter heq =>
      obtain ⟨rfl, rfl⟩ := List.cons.inj heq
      exact absurd rfl (hletter letter rest rfl)
    case h_4 heq => cases heq
  | @unit a b d e _ h =>
    show (unit? a b d e).bind (fun n => escapedUnit? n rest) = some (c, rest)
    rw [h, Option.bind_some, escapedUnit?_toNat]
  | @pair a b d e a' b' d' e' _ high low hh hl high_lt low_lt hc =>
    show (unit? a b d e).bind (fun n => escapedUnit? n ('\\' :: 'u' :: a' :: b' :: d' :: e' :: rest)) = some (c, rest)
    rw [hh, Option.bind_some, escapedUnit?_pair high_lt low_lt hl, ← hc, Char.ofNat_toNat]

theorem body?_of_char? {t u : Text} {c : Char} (ht : ∀ v, t ≠ '"' :: v) (hc : char? t = some (c, u)) {fuel : Nat}
    {s rest : Text} (hs : body? fuel u = some (s, rest)) : body? (fuel + 1) t = some (c :: s, rest) := by
  rw [body?.eq_3 t fuel ht]
  simp only [hc, hs, Option.bind_eq_bind, Option.bind_some]

theorem body?_of_spells {t s : Text} (h : SpellsChars t s) {fuel : Nat} (hf : s.length < fuel) (rest : Text) :
    body? fuel (t ++ '"' :: rest) = some (s, rest) := by
  induction h generalizing fuel with
  | nil =>
    obtain ⟨fuel, rfl⟩ := Nat.exists_eq_add_one.mpr hf
    rfl
  | @cons t u c s h hs ih =>
    obtain ⟨fuel, rfl⟩ := Nat.exists_eq_add_one.mpr (Nat.lt_of_le_of_lt (Nat.zero_le _) hf)
    obtain ⟨d, w, hw, hd⟩ := h.exists_cons
    rw [List.append_assoc]
    apply body?_of_char? _ (char?_of_spells h _) (ih (Nat.lt_of_succ_lt_succ hf))
    intro v hv
    rw [hw] at hv
    exact hd (List.cons.inj hv).1

/-! ## Numbers and words -/

/-- No numeral of more than one digit starts with a zero. -/
theorem ofNat_eq_zero_of_head {n : Nat} (h : (Text.ofNat n).head? = some '0') : Text.ofNat n = ['0'] := by
  induction n using Nat.strongRecOn with
  | ind n ih =>
    unfold Text.ofNat at h ih ⊢
    by_cases hn : n < 10
    · rw [Nat.toDigits_of_lt_base hn] at h ⊢
      rw [Option.some.inj h]
    · have hdigits := Nat.toDigits_of_base_le (by decide : 1 < 10) (Nat.le_of_not_lt hn)
      rw [hdigits, List.head?_append_of_ne_nil _ Nat.toDigits_ne_nil] at h
      have hzero := congrArg (Nat.ofDigitChars 10 · 0) (ih (n / 10) (by omega) h)
      rw [Nat.ofDigitChars_toDigits (by decide) (by decide)] at hzero
      have : n / 10 = 0 := hzero
      omega

theorem isDigit_of_mem_ofNat {n : Nat} {c : Char} (h : c ∈ Text.ofNat n) : c.isDigit = true :=
  Nat.isDigit_of_mem_toDigits (by decide) (by decide) h

theorem exists_ofNat_eq_cons (n : Nat) : ∃ c t, Text.ofNat n = c :: t ∧ c.isDigit = true := by
  obtain ⟨c, t, ht⟩ := List.exists_cons_of_ne_nil (Nat.toDigits_ne_nil : Nat.toDigits 10 n ≠ [])
  exact ⟨c, t, ht, isDigit_of_mem_ofNat (ht ▸ List.mem_cons_self)⟩

theorem foldl_ofNat (n : Nat) : (Text.ofNat n).foldl (fun n c => n * 10 + (c.toNat - '0'.toNat)) 0 = n := by
  have h := Nat.ofDigitChars_toDigits (b := 10) (n := n) (by decide) (by decide)
  simp only [Nat.ofDigitChars, Nat.mul_comm 10] at h
  exact h

theorem digits?_ofNat (n : Nat) {rest : Text} (hrest : Ends rest) :
    digits? (Text.ofNat n ++ rest) = some (n, rest) := by
  have hall : (Text.ofNat n).all Char.isDigit = true := List.all_eq_true.mpr fun c hc => isDigit_of_mem_ofNat hc
  have hhead := hrest.head Char.isDigit (by decide)
  unfold digits?
  rw [Text.takeWhile_append_of_all hall hhead, Text.dropWhile_append_of_all hall hhead]
  dsimp only
  rw [if_neg]
  · have hnone : ∀ d ∈ ['.', 'e', 'E'], rest.head? ≠ some d := by
      intro d hd h
      have := hrest.head (['.', 'e', 'E'].contains ·) (by decide) d h
      simp [hd] at this
    split
    case h_1 h => exact absurd h (hnone _ (by decide))
    case h_2 h => exact absurd h (hnone _ (by decide))
    case h_3 h => exact absurd h (hnone _ (by decide))
    case h_4 => rw [foldl_ofNat]
  · rintro (h | ⟨h, hne⟩)
    · exact Nat.toDigits_ne_nil h
    · exact hne (ofNat_eq_zero_of_head h)

theorem number?_ofNat (n : Nat) {rest : Text} (hrest : Ends rest) :
    number? (Text.ofNat n ++ rest) = some (.number n, rest) := by
  obtain ⟨c, t, ht, hc⟩ := exists_ofNat_eq_cons n
  have hdigits := digits?_ofNat n hrest
  rw [ht] at hdigits ⊢
  rw [number?.eq_2 _ (by rintro u hu; cases hu; cases hc), hdigits]
  rfl

theorem number?_neg_ofNat (n : Nat) {rest : Text} (hrest : Ends rest) :
    number? ('-' :: Text.ofNat n ++ rest) = some (.number (-n), rest) := by
  show (digits? (Text.ofNat n ++ rest)).map _ = _
  rw [digits?_ofNat n hrest]
  rfl

theorem number?_of_head {c : Char} (hm : c ≠ '-') (hd : c.isDigit = false) (t : Text) : number? (c :: t) = none := by
  rw [number?.eq_2 _ (by rintro u hu; exact hm (List.cons.inj hu).1)]
  unfold digits?
  simp [hd]

theorem word?_append {w : Text} (hw : w.all Char.isAlpha = true) {rest : Text} (hrest : Ends rest) :
    word? (w ++ rest) =
      if w = ['n', 'u', 'l', 'l'] then some (.null, rest)
      else if w = ['t', 'r', 'u', 'e'] then some (.bool true, rest)
      else if w = ['f', 'a', 'l', 's', 'e'] then some (.bool false, rest)
      else none := by
  have hhead := hrest.head Char.isAlpha (by decide)
  unfold word?
  rw [Text.takeWhile_append_of_all hw hhead, Text.dropWhile_append_of_all hw hhead]

/-! ## One step of each reader -/

section Steps

variable {fuel : Nat} {t u r : Text}

theorem value?_text {s : Text} (ht : skipSpace t = '"' :: u) (hs : body? fuel u = some (s, r)) :
    value? (fuel + 1) t = some (.text s, r) := by
  simp only [value?, ht, hs, Option.map_some]

theorem value?_list_nil (ht : skipSpace t = '[' :: u) (hu : skipSpace u = ']' :: r) :
    value? (fuel + 1) t = some (.list [], r) := by
  simp only [value?, ht, hu]

theorem value?_list {items : List Json} (ht : skipSpace t = '[' :: u) (hu : ∀ v, skipSpace u ≠ ']' :: v)
    (hi : items? fuel u = some (items, r)) : value? (fuel + 1) t = some (.list items, r) := by
  simp only [value?, ht, hi, Option.map_some]

theorem value?_object_nil (ht : skipSpace t = '{' :: u) (hu : skipSpace u = '}' :: r) :
    value? (fuel + 1) t = some (.object [], r) := by
  simp only [value?, ht, hu]

theorem value?_object {fields : List (Text × Json)} (ht : skipSpace t = '{' :: u)
    (hu : ∀ v, skipSpace u ≠ '}' :: v) (hf : fields? fuel u = some (fields, r)) :
    value? (fuel + 1) t = some (.object fields, r) := by
  simp only [value?, ht, hf, Option.map_some]

theorem value?_scalar {c : Char} (ht : skipSpace t = c :: u) (hc : c ≠ '"' ∧ c ≠ '[' ∧ c ≠ '{') :
    value? (fuel + 1) t = (number? (c :: u)).or (word? (c :: u)) := by
  simp only [value?, ht]
  split
  case h_1 h => exact absurd (List.cons.inj h).1 hc.1
  case h_2 h => exact absurd (List.cons.inj h).1 hc.2.1
  case h_3 h => exact absurd (List.cons.inj h).1 hc.2.2
  case h_4 => rfl

theorem value?_word {c : Char} (ht : skipSpace t = c :: u) (hc : c ∈ ['n', 't', 'f']) :
    value? (fuel + 1) t = word? (c :: u) := by
  simp only [List.mem_cons, List.not_mem_nil, or_false] at hc
  rcases hc with rfl | rfl | rfl <;>
    rw [value?_scalar ht (by decide), number?_of_head (by decide) (by decide), Option.none_or]

theorem items?_last {v : Json} (hv : value? fuel t = some (v, u)) (hu : skipSpace u = ']' :: r) :
    items? (fuel + 1) t = some ([v], r) := by
  simp only [items?, hv, hu, Option.bind_eq_bind, Option.bind_some]

theorem items?_cons {v : Json} {w : Text} {items : List Json} (hv : value? fuel t = some (v, u))
    (hu : skipSpace u = ',' :: w) (hi : items? fuel w = some (items, r)) :
    items? (fuel + 1) t = some (v :: items, r) := by
  simp only [items?, hv, hu, hi, Option.bind_eq_bind, Option.bind_some]

theorem fields?_last {name w x y : Text} {v : Json} (ht : skipSpace t = '"' :: w) (hn : body? fuel w = some (name, x))
    (hx : skipSpace x = ':' :: y) (hv : value? fuel y = some (v, u)) (hu : skipSpace u = '}' :: r) :
    fields? (fuel + 1) t = some ([(name, v)], r) := by
  simp only [fields?, ht, hn, hx, hv, hu, Option.bind_eq_bind, Option.bind_some]

theorem fields?_cons {name w x y z : Text} {v : Json} {fields : List (Text × Json)} (ht : skipSpace t = '"' :: w)
    (hn : body? fuel w = some (name, x)) (hx : skipSpace x = ':' :: y) (hv : value? fuel y = some (v, u))
    (hu : skipSpace u = ',' :: z) (hf : fields? fuel z = some (fields, r)) :
    fields? (fuel + 1) t = some ((name, v) :: fields, r) := by
  simp only [fields?, ht, hn, hx, hv, hu, hf, Option.bind_eq_bind, Option.bind_some]

end Steps

/-! ## Completeness -/

theorem SpellsValue.exists_cons {t : Text} {v : Json} (h : SpellsValue t v) :
    ∃ c u, t = c :: u ∧ isSpace c = false ∧ c ≠ ']' := by
  cases h with
  | natural n =>
    obtain ⟨c, u, hu, hc⟩ := exists_ofNat_eq_cons n
    refine ⟨c, u, hu, ?_, ?_⟩
    · cases hs : isSpace c with
      | false => rfl
      | true =>
        simp only [isSpace, Bool.or_eq_true, beq_iff_eq] at hs
        rcases hs with ((rfl | rfl) | rfl) | rfl <;> cases hc
    · rintro rfl
      cases hc
  | _ => exact ⟨_, _, rfl, by decide, by decide⟩

theorem SpellsValue.skipSpace_append {l t : Text} {v : Json} (h : SpellsValue t v) (hl : Spaces l) (rest : Text) :
    skipSpace (l ++ t ++ rest) = t ++ rest := by
  obtain ⟨c, u, rfl, hc, -⟩ := h.exists_cons
  rw [List.append_assoc]
  exact skipSpace_append_cons hl hc _

theorem SpellsItem.ne_close {t : Text} {v : Json} (h : SpellsItem t v) (rest r : Text) :
    skipSpace (t ++ rest) ≠ ']' :: r := by
  cases h with
  | pad hl hv hr =>
    rw [List.append_assoc, hv.skipSpace_append hl]
    obtain ⟨c, u, rfl, -, hc⟩ := hv.exists_cons
    intro heq
    exact hc (List.cons.inj heq).1

theorem SpellsField.ne_close {t : Text} {f : Text × Json} (h : SpellsField t f) (rest r : Text) :
    skipSpace (t ++ rest) ≠ '}' :: r := by
  cases h with
  | pair hl hn hr h =>
    simp only [List.append_assoc, List.cons_append]
    rw [skipSpace_append_cons hl (by decide)]
    intro heq
    exact absurd (List.cons.inj heq).1 (by decide)

theorem Series.ne_close {α : Type} {phrase : Text → α → Prop} {t : Text} {xs : List α} (h : Series phrase t xs)
    {c : Char} (hc : ∀ {t : Text} {x : α}, phrase t x → ∀ rest r : Text, skipSpace (t ++ rest) ≠ c :: r)
    (rest r : Text) : skipSpace (t ++ rest) ≠ c :: r := by
  cases h with
  | last h => exact hc h _ _
  | cons h hs =>
    rw [List.append_assoc]
    exact hc h _ _

/-- What the readers make of the texts that `fuel` steps suffice for. -/
structure Complete (fuel : Nat) : Prop where
  value : ∀ {l t : Text} {v : Json}, Spaces l → SpellsValue t v → t.length ≤ fuel →
    ∀ {rest : Text}, Ends rest → value? fuel (l ++ t ++ rest) = some (v, rest)
  items : ∀ {t : Text} {items : List Json}, Series SpellsItem t items → t.length < fuel →
    ∀ rest : Text, items? fuel (t ++ ']' :: rest) = some (items, rest)
  fields : ∀ {t : Text} {fields : List (Text × Json)}, Series SpellsField t fields → t.length < fuel →
    ∀ rest : Text, fields? fuel (t ++ '}' :: rest) = some (fields, rest)

def IsStop (c : Char) : Prop := c = ',' ∨ c = ']' ∨ c = '}'

theorem IsStop.isSpace {c : Char} (h : IsStop c) : isSpace c = false := by
  rcases h with rfl | rfl | rfl <;> rfl

theorem IsStop.ends {c : Char} (h : IsStop c) (rest : Text) : Ends (c :: rest) := by
  intro d hd
  obtain rfl : c = d := by simpa using hd
  exact .inr h

namespace Complete

variable {fuel : Nat}

theorem item (hf : Complete fuel) {t : Text} {v : Json} (h : SpellsItem t v) (ht : t.length ≤ fuel) {c : Char}
    (hc : IsStop c) (rest : Text) :
    ∃ u, value? fuel (t ++ c :: rest) = some (v, u) ∧ skipSpace u = c :: rest := by
  cases h with
  | @pad l t r v hl hv hr =>
    simp only [List.length_append] at ht
    refine ⟨r ++ c :: rest, ?_, ?_⟩
    · rw [List.append_assoc]
      exact hf.value hl hv (by omega) (ends_append hr (hc.ends rest))
    · exact skipSpace_append_cons hr hc.isSpace rest

theorem field (hf : Complete fuel) {t name : Text} {v : Json} (h : SpellsField t (name, v)) (ht : t.length ≤ fuel)
    {c : Char} (hc : IsStop c) (rest : Text) :
    ∃ w x y u, skipSpace (t ++ c :: rest) = '"' :: w ∧ body? fuel w = some (name, x) ∧ skipSpace x = ':' :: y ∧
      value? fuel y = some (v, u) ∧ skipSpace u = c :: rest := by
  cases h with
  | @pair l t r u _ _ hl hn hr hv =>
    have hlen := hn.length_le
    simp only [List.length_append, List.length_cons] at ht
    obtain ⟨x, hx, hskip⟩ := hf.item hv (by omega) hc rest
    refine ⟨t ++ '"' :: (r ++ ':' :: (u ++ c :: rest)), r ++ ':' :: (u ++ c :: rest), u ++ c :: rest, x, ?_, ?_, ?_, hx,
      hskip⟩
    · simp only [List.append_assoc, List.cons_append]
      exact skipSpace_append_cons hl (by decide) _
    · exact body?_of_spells hn (by omega) _
    · exact skipSpace_append_cons hr (by decide) _

theorem zero : Complete 0 where
  value := by
    intro l t v _ hv ht
    obtain ⟨c, u, rfl, -⟩ := hv.exists_cons
    exact absurd ht (Nat.not_succ_le_zero _)
  items := fun _ ht => absurd ht (Nat.not_lt_zero _)
  fields := fun _ ht => absurd ht (Nat.not_lt_zero _)

theorem value_succ (hf : Complete fuel) {l t : Text} {v : Json} (hl : Spaces l) (hv : SpellsValue t v)
    (ht : t.length ≤ fuel + 1) {rest : Text} (hrest : Ends rest) :
    value? (fuel + 1) (l ++ t ++ rest) = some (v, rest) := by
  have hskip := hv.skipSpace_append hl rest
  cases hv with
  | null =>
    rw [value?_word hskip (by decide)]
    exact word?_append (w := ['n', 'u', 'l', 'l']) (by decide) hrest
  | bool_true =>
    rw [value?_word hskip (by decide)]
    exact word?_append (w := ['t', 'r', 'u', 'e']) (by decide) hrest
  | bool_false =>
    rw [value?_word hskip (by decide)]
    exact word?_append (w := ['f', 'a', 'l', 's', 'e']) (by decide) hrest
  | natural n =>
    have hnumber := number?_ofNat n hrest
    obtain ⟨c, u, hu, hc⟩ := exists_ofNat_eq_cons n
    rw [hu] at hskip hnumber
    rw [hu, value?_scalar hskip (by refine ⟨?_, ?_, ?_⟩ <;> rintro rfl <;> cases hc)]
    exact congrArg (Option.or · _) hnumber
  | negative n =>
    rw [value?_scalar hskip (by decide)]
    exact congrArg (Option.or · _) (number?_neg_ofNat n hrest)
  | text h =>
    have hlen := h.length_le
    simp only [List.length_append, List.length_cons, List.length_nil] at ht
    exact value?_text (skipSpace_enclosed hl (by decide) _ _ _) (body?_of_spells h (by omega) rest)
  | list_nil h =>
    exact value?_list_nil (skipSpace_enclosed hl (by decide) _ _ _) (skipSpace_append_cons h (by decide) rest)
  | list h =>
    simp only [List.length_append, List.length_cons, List.length_nil] at ht
    exact value?_list (skipSpace_enclosed hl (by decide) _ _ _) (h.ne_close SpellsItem.ne_close _)
      (hf.items h (by omega) rest)
  | object_nil h =>
    exact value?_object_nil (skipSpace_enclosed hl (by decide) _ _ _) (skipSpace_append_cons h (by decide) rest)
  | object h =>
    simp only [List.length_append, List.length_cons, List.length_nil] at ht
    exact value?_object (skipSpace_enclosed hl (by decide) _ _ _) (h.ne_close SpellsField.ne_close _)
      (hf.fields h (by omega) rest)

theorem items_succ (hf : Complete fuel) {t : Text} {items : List Json} (h : Series SpellsItem t items)
    (ht : t.length < fuel + 1) (rest : Text) : items? (fuel + 1) (t ++ ']' :: rest) = some (items, rest) := by
  cases h with
  | last h =>
    obtain ⟨u, hv, hu⟩ := hf.item h (Nat.le_of_lt_succ ht) (.inr (.inl rfl)) rest
    exact items?_last hv hu
  | @cons t u v items h hs =>
    simp only [List.length_append, List.length_cons] at ht
    obtain ⟨w, hv, hw⟩ := hf.item h (by omega) (.inl rfl) (u ++ ']' :: rest)
    rw [List.append_assoc]
    exact items?_cons hv hw (hf.items hs (by omega) rest)

theorem fields_succ (hf : Complete fuel) {t : Text} {fields : List (Text × Json)} (h : Series SpellsField t fields)
    (ht : t.length < fuel + 1) (rest : Text) : fields? (fuel + 1) (t ++ '}' :: rest) = some (fields, rest) := by
  cases h with
  | last h =>
    obtain ⟨w, x, y, u, hw, hn, hx, hv, hu⟩ := hf.field h (Nat.le_of_lt_succ ht) (.inr (.inr rfl)) rest
    exact fields?_last hw hn hx hv hu
  | @cons t u f fields h hs =>
    simp only [List.length_append, List.length_cons] at ht
    obtain ⟨w, x, y, z, hw, hn, hx, hv, hz⟩ := hf.field h (by omega) (.inl rfl) (u ++ '}' :: rest)
    rw [List.append_assoc]
    exact fields?_cons hw hn hx hv hz (hf.fields hs (by omega) rest)

end Complete

/-- Every phrase is read in as many steps as its text has characters: what a phrase is made of is shorter by a bracket
    or a comma at least, and is read with one step less. -/
theorem complete (fuel : Nat) : Complete fuel := by
  induction fuel with
  | zero => exact .zero
  | succ fuel ih => exact ⟨ih.value_succ, ih.items_succ, ih.fields_succ⟩

/-- The reader finds the value that a text spells. -/
theorem read?_of_spells {t : Text} {v : Json} (h : Spells t v) : read? t = some v := by
  cases h with
  | @pad l t r v hl hv hr =>
    have hvalue := (complete ((l ++ t ++ r).length + 1)).value hl hv (by simp only [List.length_append]; omega)
      (ends_append hr (by intro c hc; cases hc) : Ends (r ++ []))
    have hrest : skipSpace r = [] := List.dropWhile_eq_nil_iff.mpr (by simpa [Spaces] using hr)
    rw [List.append_nil] at hvalue
    unfold read?
    simp only [hvalue, hrest, List.isEmpty_nil, if_true]

/-- No text spells two values. -/
theorem Spells.unique {t : Text} {v w : Json} (hv : Spells t v) (hw : Spells t w) : v = w :=
  Option.some.inj ((read?_of_spells hv).symm.trans (read?_of_spells hw))

end Stylesheet.Json
