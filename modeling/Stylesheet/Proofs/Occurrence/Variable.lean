/-
  Stylesheet.Proofs.Occurrence.Variable — references, and the places where they can be cut.

  A reference is a word `var`, and a name between parentheses (`IsReference`). The recogniser finds every reference of
  a text and nothing else (`mem_occurrences`). Two references in one text are the same or apart (`same_or_apart`), and
  none of them reaches over a character that no reference can have (`inside_or_apart`).
-/

import Stylesheet.Occurrence.Variable
import Stylesheet.Proofs.Occurrence.Span
import Stylesheet.Proofs.Scan

namespace Stylesheet.Variable

/-! ## References -/

def spell (word name : Text) : Text := word ++ ['(', '-', '-'] ++ name ++ [')']

/-- The word is `var` in either case, and the name has letters and digits only, at least one. -/
structure IsReference (word name : Text) : Prop where
  word_eq : Text.lower word = ['v', 'a', 'r']
  name_ne : name ≠ []
  name_char : ∀ c ∈ name, isNameChar c = true

theorem IsReference.length_word {word name : Text} (h : IsReference word name) : word.length = 3 := by
  rw [← Text.length_lower, h.word_eq]
  rfl

theorem IsReference.length_spell {word name : Text} (h : IsReference word name) :
    (spell word name).length = name.length + 7 := by
  simp [spell, h.length_word]
  omega

theorem IsReference.take_spell {word name : Text} (h : IsReference word name) : (spell word name).take 3 = word := by
  rw [spell, List.append_assoc, List.append_assoc, ← h.length_word, List.take_left]

theorem IsReference.drop_spell {word name : Text} (h : IsReference word name) :
    (spell word name).drop 3 = ['(', '-', '-'] ++ name ++ [')'] := by
  rw [spell, List.append_assoc, List.append_assoc, ← h.length_word, List.drop_left, List.append_assoc]

theorem IsReference.lower {word name : Text} (h : IsReference word name) : IsReference ['v', 'a', 'r'] name :=
  ⟨by decide, h.name_ne, h.name_char⟩

theorem IsReference.getElem?_word {t before word name after : Text} (h : IsReference word name)
    (hs : t = before ++ spell word name ++ after) {i : Nat} (hi : i < 3) : t[before.length + i]? = word[i]? := by
  rw [hs, Text.getElem?_middle _ _ _ (by rw [h.length_spell]; omega), spell, List.append_assoc,
    Text.getElem?_before _ _ _ (by rw [h.length_word]; exact hi)]

theorem token?_eq_some_iff {t name after : Text} :
    token? t = some (name, after) ↔ ∃ word, IsReference word name ∧ t = spell word name ++ after := by
  unfold token?
  constructor
  · intro h
    split at h
    · cases h
    · rename_i rest hrest
      obtain ⟨w, rfl, hw⟩ := Text.afterWord?_eq_some_iff.mp hrest
      obtain ⟨word, rfl, hword⟩ :=
        Text.eq_append_of_lower_eq_append (a := ['v', 'a', 'r']) (b := ['(', '-', '-']) hw (by simp)
      split at h
      · rename_i c n a htake hdrop
        simp only [Option.some.injEq, Prod.mk.injEq] at h
        obtain ⟨rfl, rfl⟩ := h
        refine ⟨word, ⟨hword, by simp, fun d hd => ?_⟩, ?_⟩
        · rw [← htake] at hd
          exact List.all_eq_true.mp (List.all_takeWhile (p := isNameChar)) d hd
        · rw [← List.takeWhile_append_dropWhile (p := isNameChar) (l := rest), htake, hdrop]
          simp [spell]
      · cases h
  · rintro ⟨word, href, rfl⟩
    have hw : Text.afterWord? ['v', 'a', 'r', '(', '-', '-'] (spell word name ++ after) = some (name ++ ')' :: after) :=
      Text.afterWord?_eq_some_iff.mpr ⟨word ++ ['(', '-', '-'], by simp [spell], by simp [href.word_eq]⟩
    have hstop : isNameChar ')' = false := by decide
    rw [hw]
    dsimp only
    rw [List.takeWhile_append_of_pos href.name_char, List.dropWhile_append_of_pos href.name_char]
    obtain ⟨c, n, rfl⟩ := List.exists_cons_of_ne_nil href.name_ne
    simp [hstop]

/-! ## The recogniser -/

def isEscaped (before after : Text) : Bool :=
  before.dropLast.getLast? == some '=' || after.head? == some '\''

theorem reached_step (read rest : Text) :
    reached step ⟨0, none, none⟩ read rest = ⟨read.length, read.getLast?, read.dropLast.getLast?⟩ := by
  refine reached_invariant (P := fun read (r : Reading) => r = ⟨read.length, read.getLast?, read.dropLast.getLast?⟩)
    rfl ?_ read rest
  rintro read _ c rest rfl
  simp [step]

theorem mem_step {read rest : Text} {c : Char} {o : Occurrence} :
    o ∈ (step (reached step ⟨0, none, none⟩ read (c :: rest)) c rest).2 ↔ ∃ word name after, IsReference word name ∧
      c :: rest = spell word name ++ after ∧
      o = ⟨⟨.var, .text name, isEscaped read after⟩, read.length, (spell word name).length⟩ := by
  simp only [reached_step, step, Option.mem_toList, occurrence?]
  constructor
  · intro h
    split at h
    · rename_i name after ht
      obtain ⟨word, href, hcr⟩ := token?_eq_some_iff.mp ht
      obtain rfl := Option.some.inj h
      exact ⟨word, name, after, href, hcr, by rw [href.length_spell]; rfl⟩
    · cases h
  · rintro ⟨word, name, after, href, hcr, rfl⟩
    have ht : token? (c :: rest) = some (name, after) := token?_eq_some_iff.mpr ⟨word, href, hcr⟩
    rw [ht, href.length_spell]
    rfl

/-- Every reference is found, and nothing else is. -/
theorem mem_occurrences {source : Text} {o : Occurrence} :
    o ∈ occurrences source ↔ ∃ before word name after, IsReference word name ∧
      o.Placed source before (spell word name) after ∧ o.part = ⟨.var, .text name, isEscaped before after⟩ := by
  rw [occurrences, mem_scan]
  simp only [mem_step]
  constructor
  · rintro ⟨before, c, rest, rfl, word, name, after, href, hcr, rfl⟩
    refine ⟨before, word, name, after, href, ⟨?_, rfl, rfl⟩, rfl⟩
    rw [hcr, List.append_assoc]
  · rintro ⟨before, word, name, after, href, hp, hpart⟩
    obtain ⟨c, rest, hcr⟩ : ∃ c rest, spell word name ++ after = c :: rest :=
      List.exists_cons_of_ne_nil (by simp [spell])
    refine ⟨before, c, rest, ?_, word, name, after, href, hcr.symm, ?_⟩
    · rw [hp.source_eq, List.append_assoc, hcr]
    · obtain ⟨part, offset, length⟩ := o
      obtain rfl := hpart
      obtain rfl : offset = _ := hp.offset_eq
      obtain rfl : length = _ := hp.length_eq
      rfl

/-! ## The characters of a reference -/

def isReferenceChar (c : Char) : Bool := isNameChar c || c == '(' || c == ')' || c == '-'

section

variable {word name : Text}

theorem IsReference.isAlpha_of_mem_word (h : IsReference word name) {c : Char} (hc : c ∈ word) : c.isAlpha = true := by
  have hl : c.toLower ∈ Text.lower word := List.mem_map_of_mem hc
  rw [h.word_eq] at hl
  rw [← Char.isLower_toLower_eq_isAlpha]
  simp only [List.mem_cons, List.not_mem_nil, or_false] at hl
  rcases hl with h | h | h <;> rw [h] <;> decide

theorem IsReference.isReferenceChar_of_mem (h : IsReference word name) {c : Char} (hc : c ∈ spell word name) :
    isReferenceChar c = true := by
  simp only [spell, List.mem_append, List.mem_cons, List.not_mem_nil, or_false] at hc
  rcases hc with ((hc | rfl | rfl | rfl) | hc) | rfl
  · simp [isReferenceChar, isNameChar, Char.isAlphanum, h.isAlpha_of_mem_word hc]
  · decide
  · decide
  · decide
  · simp [isReferenceChar, h.name_char c hc]
  · decide

theorem IsReference.getElem?_open (h : IsReference word name) : (spell word name)[3]? = some '(' := by
  rw [spell, List.append_assoc, ← h.length_word]
  exact Text.getElem?_middle word ['(', '-', '-'] (name ++ [')']) (i := 0) (by simp)

theorem IsReference.getElem?_close (h : IsReference word name) : (spell word name)[name.length + 6]? = some ')' := by
  rw [spell, List.append_assoc word, show name.length + 6 = word.length + (['(', '-', '-'] ++ name).length + 0 by
    simp [h.length_word]; omega, Text.getElem?_after]
  rfl

theorem IsReference.isAlpha_of_getElem? (h : IsReference word name) {i : Nat} (hi : i < 3) {c : Char}
    (hc : (spell word name)[i]? = some c) : c.isAlpha = true := by
  rw [spell, List.append_assoc, Text.getElem?_before _ _ _ (by rw [h.length_word]; exact hi)] at hc
  exact h.isAlpha_of_mem_word (List.mem_of_getElem? hc)

theorem IsReference.eq_of_getElem?_open (h : IsReference word name) {i : Nat} (hi : (spell word name)[i]? = some '(') :
    i = 3 := by
  by_contra hne
  by_cases hlt : i < 3
  · have := h.isAlpha_of_getElem? hlt hi
    simp at this
  · obtain ⟨k, rfl⟩ : ∃ k, i = (word ++ ['(']).length + k := ⟨i - 4, by simp [h.length_word]; omega⟩
    rw [show spell word name = (word ++ ['(']) ++ (['-', '-'] ++ name ++ [')']) by simp [spell],
      List.getElem?_append_right (by omega)] at hi
    have hm := List.mem_of_getElem? hi
    simp only [List.mem_append, List.mem_cons, List.not_mem_nil, or_false] at hm
    rcases hm with ((hm | hm) | hm) | hm
    · cases hm
    · cases hm
    · have := h.name_char _ hm
      revert this
      decide
    · cases hm

end

/-! ## Two references in one text -/

section

variable {source before word name after before' word' name' after' : Text}

theorem apart_of_lt (h : IsReference word name) (hs : source = before ++ spell word name ++ after)
    (h' : IsReference word' name') (hs' : source = before' ++ spell word' name' ++ after')
    (hlt : before.length < before'.length) : before.length + (spell word name).length ≤ before'.length := by
  by_contra hc
  have hlen := h.length_spell
  have hlen' := h'.length_spell
  -- the second parenthesis opens inside the first reference, or the first one closes inside the second word
  by_cases hin : before'.length + 3 < before.length + (spell word name).length
  · have h1 : source[before'.length + 3]? = some '(' := by
      rw [hs', Text.getElem?_middle _ _ _ (by omega), h'.getElem?_open]
    rw [hs, show before'.length + 3 = before.length + (before'.length + 3 - before.length) by omega,
      Text.getElem?_middle _ _ _ (by omega)] at h1
    have := h.eq_of_getElem?_open h1
    omega
  · have h1 : source[before.length + (name.length + 6)]? = some ')' := by
      rw [hs, Text.getElem?_middle _ _ _ (by omega), h.getElem?_close]
    have hplace : before.length + (name.length + 6) =
        before'.length + (before.length + (name.length + 6) - before'.length) := by omega
    rw [hs', hplace, Text.getElem?_middle _ _ _ (by omega)] at h1
    have := h'.isAlpha_of_getElem? (by omega) h1
    simp at this

theorem same_of_eq (h : IsReference word name) (hs : source = before ++ spell word name ++ after)
    (h' : IsReference word' name') (hs' : source = before' ++ spell word' name' ++ after')
    (hl : before.length = before'.length) : before = before' ∧ word = word' ∧ name = name' ∧ after = after' := by
  rw [List.append_assoc] at hs hs'
  obtain ⟨hb, hrest⟩ := List.append_inj (hs.symm.trans hs') hl
  have ht : token? (spell word name ++ after) = some (name, after) := token?_eq_some_iff.mpr ⟨word, h, rfl⟩
  rw [hrest, token?_eq_some_iff.mpr ⟨word', h', rfl⟩] at ht
  obtain ⟨rfl, rfl⟩ := Prod.mk.inj (Option.some.inj ht)
  refine ⟨hb, ?_, rfl, rfl⟩
  simp only [spell, List.append_assoc] at hrest
  exact (List.append_inj hrest (by rw [h.length_word, h'.length_word])).1

theorem same_or_apart (h : IsReference word name) (hs : source = before ++ spell word name ++ after)
    (h' : IsReference word' name') (hs' : source = before' ++ spell word' name' ++ after') :
    (before = before' ∧ word = word' ∧ name = name' ∧ after = after') ∨
      before.length + (spell word name).length ≤ before'.length ∨
      before'.length + (spell word' name').length ≤ before.length := by
  rcases Nat.lt_trichotomy before.length before'.length with hlt | heq | hgt
  · exact Or.inr (Or.inl (apart_of_lt h hs h' hs' hlt))
  · exact Or.inl (same_of_eq h hs h' hs' heq)
  · exact Or.inr (Or.inr (apart_of_lt h' hs' h hs hgt))

end

theorem pairwise_occurrences (source : Text) : (occurrences source).Pairwise fun a b => a.stop ≤ b.offset := by
  refine pairwise_scan (fun read c rest _ => ?_) fun read c mid d rest hl x hx y hy => ?_
  · rw [step]
    cases occurrence? _ _ with
    | none => exact List.Pairwise.nil
    | some o => exact List.pairwise_singleton _ _
  · obtain ⟨word, name, after, href, hcr, rfl⟩ := mem_step.mp hx
    obtain ⟨word', name', after', href', hdr, rfl⟩ := mem_step.mp hy
    have hs : source = read ++ spell word name ++ after := by rw [hl, hcr, List.append_assoc]
    have hs' : source = (read ++ c :: mid) ++ spell word' name' ++ after' := by
      rw [List.append_assoc, ← hdr, hl]
      simp
    have := apart_of_lt href hs href' hs' (by simp)
    simp only [Occurrence.stop]
    omega

/-! ## Stretches no reference reaches into -/

theorem isReferenceChar_eq_false_of_isBlank {c : Char} (h : Text.isBlank c = true) : isReferenceChar c = false := by
  have hc : c.toNat = c.val.toNat := rfl
  simp only [Text.isBlank, hc, Bool.or_eq_true, Bool.and_eq_true, decide_eq_true_eq, beq_iff_eq] at h
  have hne : ∀ d : Char, c = d → c.val.toNat = d.val.toNat := fun d e => by rw [e]
  by_contra hr
  simp only [isReferenceChar, isNameChar, Char.isAlphanum, Char.isAlpha, Char.isUpper, Char.isLower, Char.isDigit,
    Bool.or_eq_true, Bool.and_eq_true, decide_eq_true_eq, ge_iff_le, UInt32.le_iff_toNat_le, Char.reduceVal,
    UInt32.reduceToNat, List.contains_cons, List.contains_nil, beq_iff_eq, Bool.not_eq_false, Bool.false_eq_true,
    or_false] at hr
  rcases hr with (((hr | hr | hr | hr | hr) | hr) | hr) | hr
  · omega
  all_goals
    have := hne _ hr
    simp only [Char.reduceVal, UInt32.reduceToNat] at this
    omega

/-- The characters next to a stretch, if there are any, belong to no reference. -/
structure Fenced (before after : Text) : Prop where
  left : ∀ c ∈ before.getLast?, isReferenceChar c = false
  right : ∀ c ∈ after.head?, isReferenceChar c = false

/-- A reference lies before a fenced stretch, after it or inside it. -/
theorem inside_or_apart {source p span q before word name after : Text} (hs : source = p ++ span ++ q)
    (hf : Fenced p q) (h : IsReference word name) (hr : source = before ++ spell word name ++ after) :
    before.length + (spell word name).length ≤ p.length ∨ p.length + span.length ≤ before.length ∨
      (p.length ≤ before.length ∧ before.length + (spell word name).length ≤ p.length + span.length) := by
  have hchar : ∀ i c, before.length ≤ i → i < before.length + (spell word name).length → source[i]? = some c →
      isReferenceChar c = true := by
    intro i c h1 h2 hc
    rw [hr, show i = before.length + (i - before.length) by omega, Text.getElem?_middle _ _ _ (by omega)] at hc
    exact h.isReferenceChar_of_mem (List.mem_of_getElem? hc)
  by_contra hc
  push Not at hc
  obtain ⟨h1, h2, h3⟩ := hc
  by_cases hlt : before.length < p.length
  · obtain ⟨c, hlast⟩ : ∃ c, p.getLast? = some c := by
      cases p with
      | nil => simp at hlt
      | cons d p => exact ⟨_, List.getLast?_cons⟩
    have hget : source[p.length - 1]? = some c := by
      rw [hs, Text.getElem?_before _ _ _ (by omega), ← List.getLast?_eq_getElem?, hlast]
    have := hchar _ _ (by omega) (by omega) hget
    rw [hf.left c hlast] at this
    cases this
  · have hlen : source.length = before.length + (spell word name).length + after.length := by rw [hr]; simp; omega
    have hlen' : source.length = p.length + span.length + q.length := by rw [hs]; simp; omega
    cases q with
    | nil => simp at hlen'; omega
    | cons c q =>
      have hget : source[p.length + span.length + 0]? = some c := by
        rw [hs, Text.getElem?_after]
        rfl
      have := hchar _ _ (by omega) (by omega) hget
      rw [hf.right c rfl] at this
      cases this

end Stylesheet.Variable
