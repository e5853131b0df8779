/-
  Stylesheet.Proofs.Occurrence.Spelling — declarations and references in other spellings.

  A declaration is misspelt if it is not spelled the way its property is written, and a text is lowered if each of its
  references has `var` in lower case. The case of letters decides neither where the root block is
  (`block?_of_lower_eq`), nor which pieces are misspelt (`misspelt_of_lower_eq`). A piece that is respelled declares its
  property as it is written (`misspelt_respelled`) and has no reference it did not have (`lowered_respelled`).
-/

import Stylesheet.Proofs.Occurrence.Declaration

namespace Stylesheet.Declaration

/-! ## Declarations in either case -/

theorem property?_of_lower_eq {a b : Text} (h : Text.lower a = Text.lower b) {p : Property}
    (hp : property? a = some p) : ∃ q, property? b = some q := by
  obtain ⟨n, v, rfl, hn, hname, hvalue, -⟩ := property?_eq_some_iff.mp hp
  obtain ⟨n', v', rfl, hnn, hvv⟩ := Text.exists_append_cons_of_lower_eq (by decide) h
  have trim_ne : ∀ {x y : Text}, Text.lower x = Text.lower y → Text.trim x ≠ [] → Text.trim y ≠ [] := by
    intro x y hxy hne hy
    have hlen := Text.length_eq_of_lower_eq (Text.trim_of_lower_eq hxy)
    rw [hy] at hlen
    exact hne (List.eq_nil_of_length_eq_zero hlen)
  refine ⟨_, property?_eq_some_iff.mpr ⟨n', v', rfl, ?_, trim_ne hnn hname, trim_ne hvv hvalue, rfl⟩⟩
  exact fun hc => hn (Text.mem_of_lower_eq (by decide) hnn.symm hc)

/-- A piece declares a property, but is not spelled the way the property is written. -/
def misspelt (piece : Text) : Bool :=
  match property? piece with
  | some p => decide (Text.trim piece ≠ p.declaration)
  | none => false

theorem misspelt_eq_false_iff {piece : Text} :
    misspelt piece = false ↔ ∀ p, property? piece = some p → Text.trim piece = p.declaration := by
  unfold misspelt
  cases property? piece with
  | none => simp
  | some p => simp

/-- A text alike but for the case to a declaration that is written out is another such declaration. -/
theorem exists_declaration_of_lower_eq {p : Property} (hp : Writable p) {t : Text}
    (h : Text.lower p.declaration = Text.lower t) : ∃ q, Writable q ∧ t = q.declaration := by
  rw [Property.declaration, List.cons_append, List.cons_append] at h
  obtain ⟨t₁, rfl, h₁⟩ := Text.exists_cons_of_lower_eq (by decide) h
  obtain ⟨t₂, rfl, h₂⟩ := Text.exists_cons_of_lower_eq (by decide) h₁
  obtain ⟨name', t₃, rfl, hname, h₃⟩ := Text.exists_append_cons_of_lower_eq (by decide) h₂
  obtain ⟨value', rfl, hvalue⟩ := Text.exists_cons_of_lower_eq (by decide) h₃
  refine ⟨⟨name', value'⟩, ⟨?_, ?_, ?_, hp.value_trimmed.of_lower_eq hvalue⟩, rfl⟩
  · exact fun hc => hp.colon (Text.mem_of_lower_eq (by decide) hname.symm hc)
  · exact Text.last_of_lower_eq hname hp.name_last
  · intro hnil
    change value' = [] at hnil
    rw [hnil] at hvalue
    exact hp.value_ne (List.map_eq_nil_iff.mp hvalue)

theorem misspelt_of_lower_eq {a b : Text} (h : Text.lower a = Text.lower b) : misspelt a = misspelt b := by
  have plain : ∀ {x y : Text}, Text.lower x = Text.lower y → misspelt x = false → misspelt y = false := by
    intro x y hxy hx
    rw [misspelt_eq_false_iff] at hx ⊢
    intro q hq
    obtain ⟨p, hp⟩ := property?_of_lower_eq hxy.symm hq
    have htrim := Text.trim_of_lower_eq hxy
    rw [hx p hp] at htrim
    obtain ⟨r, hr, hy⟩ := exists_declaration_of_lower_eq (writable_of_property? hp) htrim
    rw [← property?_trim, hy, property?_declaration hr] at hq
    rw [hy, Option.some.inj hq]
  cases ha : misspelt a with
  | false => exact (plain h ha).symm
  | true =>
    cases hb : misspelt b with
    | true => rfl
    | false =>
      rw [plain h.symm hb] at ha
      cases ha

/-! ## Respelled pieces -/

def respelled (piece : Text) : Text :=
  match property? piece with
  | some p =>
    piece.take (Text.indent piece) ++ p.declaration ++ piece.drop (Text.indent piece + (Text.trim piece).length)
  | none => piece

theorem respelled_eq {w t v : Text} {p : Property} (hw : Text.allBlank w = true) (hv : Text.allBlank v = true)
    (ht : Text.Trimmed t) (hp : property? (w ++ t ++ v) = some p) :
    respelled (w ++ t ++ v) = w ++ p.declaration ++ v := by
  have htrim : Text.trim (w ++ t ++ v) = t := Text.trim_eq hw hv ht
  have hindent : Text.indent (w ++ t ++ v) = w.length :=
    Text.indent_eq hw (ne_nil_of_property? (by rw [← htrim, property?_trim, hp])) ht
  unfold respelled
  rw [hp]
  dsimp only
  rw [htrim, hindent, List.append_assoc w t v, List.take_left, ← List.append_assoc w t v, ← List.length_append,
    List.drop_left]

theorem misspelt_respelled (piece : Text) : misspelt (respelled piece) = false := by
  rw [misspelt_eq_false_iff]
  cases hp : property? piece with
  | none =>
    intro q hq
    rw [respelled, hp] at hq
    rw [hp] at hq
    cases hq
  | some p =>
    obtain ⟨w, v, hpiece, hw, hv, -, ht⟩ := Text.exists_trim piece
    have hwritable := writable_of_property? hp
    have heq : respelled piece = w ++ p.declaration ++ v := by
      rw [hpiece] at hp ⊢
      exact respelled_eq hw hv ht hp
    intro q hq
    rw [heq, property?_pad hw hv, property?_declaration hwritable] at hq
    rw [heq, Text.trim_eq hw hv (trimmed_declaration hwritable), Option.some.inj hq]

/-! ## The root block in either case -/

theorem isRoot_iff {t : Text} :
    isRoot t = true ↔ ∃ w rest, t = w ++ rest ∧ Text.lower w = [':', 'r', 'o', 'o', 't'] := by
  unfold isRoot
  rw [Option.isSome_iff_exists]
  constructor
  · intro h
    obtain ⟨rest, h⟩ := h
    obtain ⟨w, rfl, hw⟩ := Text.afterWord?_eq_some_iff.mp h
    exact ⟨w, rest, rfl, hw⟩
  · intro h
    obtain ⟨w, rest, rfl, hw⟩ := h
    exact ⟨rest, Text.afterWord?_eq_some_iff.mpr ⟨w, rfl, hw⟩⟩

/-- Whether a text starts with `:root` shows in what it has before a brace, in either case. -/
theorem isRoot_append_brace {a b x y : Text} (h : Text.lower a = Text.lower b) (ha : isRoot (a ++ '{' :: x) = true) :
    isRoot (b ++ '{' :: y) = true := by
  obtain ⟨w, rest, heq, hw⟩ := isRoot_iff.mp ha
  rcases List.append_eq_append_iff.mp heq with ⟨z, rfl, hz⟩ | ⟨z, rfl, hz⟩
  · cases z with
    | nil =>
      rw [List.append_nil] at hw
      exact isRoot_iff.mpr ⟨b, '{' :: y, rfl, by rw [← h, hw]⟩
    | cons c z =>
      obtain ⟨rfl, -⟩ := List.cons.inj hz
      have hbrace : '{' ∈ Text.lower (a ++ '{' :: z) := by simp
      rw [hw] at hbrace
      exact absurd hbrace (by decide)
  · obtain ⟨w', z', rfl, hww, -⟩ := Text.exists_append_of_lower_eq h
    exact isRoot_iff.mpr ⟨w', z' ++ '{' :: y, by simp, by rw [← hww, hw]⟩

/-- Whether a brace opens the root block shows in what is before it, in either case. -/
theorem afterBrace?_append_brace {a b x y : Text} (h : Text.lower a = Text.lower b) {offset n : Nat} {seen : Bool}
    (ha : afterBrace? offset seen (a ++ '{' :: x) = some (n, x)) :
    afterBrace? offset seen (b ++ '{' :: y) = some (n, y) := by
  induction a generalizing b offset seen with
  | nil =>
    obtain rfl : b = [] := List.map_eq_nil_iff.mp h.symm
    rw [List.nil_append, afterBrace?, if_pos rfl] at ha ⊢
    cases seen with
    | true =>
      rw [if_pos rfl] at ha ⊢
      rw [(Prod.mk.inj (Option.some.inj ha)).1]
    | false =>
      rw [if_neg (by simp)] at ha
      obtain ⟨read, hread, -⟩ := afterBrace?_eq_some ha
      have := congrArg List.length hread
      simp only [List.length_append, List.length_cons] at this
      omega
  | cons c a ih =>
    obtain ⟨d, b, rfl, hdc, hba⟩ := List.map_eq_cons_iff.mp h.symm
    have hroot : isRoot (c :: (a ++ '{' :: x)) = isRoot (d :: (b ++ '{' :: y)) := by
      rw [Bool.eq_iff_iff]
      exact ⟨isRoot_append_brace (a := c :: a) (b := d :: b) h, isRoot_append_brace (a := d :: b) (b := c :: a) h.symm⟩
    have hbrace : c = '{' ↔ d = '{' := Text.eq_iff_of_toLower_eq (by decide) hdc.symm
    have hline : c = '\n' ↔ d = '\n' := Text.eq_iff_of_toLower_eq (by decide) hdc.symm
    rw [List.cons_append, afterBrace?] at ha ⊢
    by_cases hc : c = '{'
    · rw [if_pos hc] at ha
      rw [if_pos (hbrace.mp hc)]
      cases seen with
      | true =>
        rw [if_pos rfl] at ha
        have := congrArg List.length (Prod.mk.inj (Option.some.inj ha)).2
        simp only [List.length_append, List.length_cons] at this
        omega
      | false =>
        rw [if_neg (by simp)] at ha ⊢
        exact ih hba.symm ha
    · rw [if_neg hc] at ha
      rw [if_neg fun hd => hc (hbrace.mpr hd)]
      by_cases hn : c = '\n'
      · rw [if_pos hn] at ha
        rw [if_pos (hline.mp hn)]
        exact ih hba.symm ha
      · rw [if_neg hn, hroot] at ha
        rw [if_neg fun hd => hn (hline.mpr hd)]
        exact ih hba.symm ha

/-- A text with the same before its root block, but for the case, has its root block there too, whatever that is. -/
theorem Encloses.of_lower_eq {before body after source before' body' after' : Text}
    (h : Encloses before body after source) (hb : Text.lower before = Text.lower before') (hbrace : '}' ∉ body') :
    Encloses before' body' after' (before' ++ '{' :: (body' ++ '}' :: after')) := by
  refine ⟨rfl, ?_, hbrace⟩
  have hopens := h.opens
  rw [h.source_eq] at hopens
  rw [← Text.length_eq_of_lower_eq hb]
  exact afterBrace?_append_brace hb hopens

/-- Texts alike but for the case have root blocks in the same place. -/
theorem exists_encloses_of_lower_eq {before body after source t : Text} (h : Encloses before body after source)
    (ht : Text.lower source = Text.lower t) :
    ∃ before' body' after', Encloses before' body' after' t ∧ Text.lower before = Text.lower before' ∧
      Text.lower body = Text.lower body' := by
  rw [h.source_eq] at ht
  obtain ⟨before', r, rfl, hb, hr⟩ := Text.exists_append_cons_of_lower_eq (by decide) ht
  obtain ⟨body', after', rfl, hbody, -⟩ := Text.exists_append_cons_of_lower_eq (by decide) hr
  have hbrace : '}' ∉ body' := fun hc => h.brace (Text.mem_of_lower_eq (by decide) hbody.symm hc)
  exact ⟨before', body', after', h.of_lower_eq hb hbrace, hb, hbody⟩

theorem forall₂_pieces {s t : Text} (h : Text.lower s = Text.lower t) :
    List.Forall₂ (fun x y => x.1 = y.1 ∧ Text.lower x.2 = Text.lower y.2) (pieces s) (pieces t) := by
  rcases pieces_eq_nil_or_exists_encloses s with hs | ⟨before, body, after, hs⟩
  · rcases pieces_eq_nil_or_exists_encloses t with ht | ⟨before, body, after, ht⟩
    · rw [hs, ht]
      exact List.Forall₂.nil
    · obtain ⟨before', body', after', hs', -⟩ := exists_encloses_of_lower_eq ht h.symm
      have := pieces_of_encloses hs'
      rw [hs, Text.pieces] at this
      have hne : body'.splitOn ';' ≠ [] := List.splitOn_ne_nil ';' body'
      obtain ⟨p, ps, hps⟩ := List.exists_cons_of_ne_nil hne
      rw [hps, scan_cons] at this
      cases this
  · obtain ⟨before', body', after', ht, hbefore, hbody⟩ := exists_encloses_of_lower_eq hs h
    rw [pieces_of_encloses hs, pieces_of_encloses ht, Text.length_eq_of_lower_eq hbefore]
    exact Text.forall₂_pieces (by decide) hbody

end Stylesheet.Declaration

namespace Stylesheet.Variable

/-! ## References in either case -/

theorem isNameChar_eq_of_toLower_eq {c d : Char} (h : c.toLower = d.toLower) : isNameChar c = isNameChar d :=
  Text.class_eq_of_toLower_eq (fun c d hc hd => by simp [isNameChar, Char.isAlphanum, hc, hd]) h

theorem exists_of_lower_eq {before word name after t : Text} (h : IsReference word name)
    (ht : Text.lower (before ++ spell word name ++ after) = Text.lower t) :
    ∃ before' word' name' after', t = before' ++ spell word' name' ++ after' ∧ IsReference word' name' ∧
      Text.lower before = Text.lower before' ∧ Text.lower after = Text.lower after' := by
  rw [spell, List.append_assoc word, List.append_assoc word, List.append_assoc before, List.append_assoc word] at ht
  obtain ⟨before', t₁, rfl, hbefore, ht₁⟩ := Text.exists_append_of_lower_eq ht
  obtain ⟨word', t₂, rfl, hword, ht₂⟩ := Text.exists_append_of_lower_eq ht₁
  rw [List.append_assoc, List.append_assoc] at ht₂
  obtain ⟨o, t₃, rfl, ho, ht₃⟩ := Text.exists_append_of_lower_eq ht₂
  obtain ⟨name', t₄, rfl, hname, ht₄⟩ := Text.exists_append_of_lower_eq ht₃
  obtain ⟨after', rfl, hafter⟩ := Text.exists_cons_of_lower_eq (by decide) ht₄
  have hopen : o = ['(', '-', '-'] := by
    obtain ⟨s, hs, hnil⟩ :=
      Text.eq_append_of_lower_eq_append (t := o) (a := []) (b := ['(', '-', '-']) ho.symm (by simp)
    rw [List.map_eq_nil_iff.mp hnil] at hs
    exact hs
  refine ⟨before', word', name', after', by rw [hopen]; simp [spell], ⟨by rw [← hword, h.word_eq], ?_, ?_⟩, hbefore,
    hafter⟩
  · intro hnil
    rw [hnil] at hname
    exact h.name_ne (List.map_eq_nil_iff.mp hname)
  · intro c hc
    have hmem : c.toLower ∈ Text.lower name := by
      rw [hname]
      exact List.mem_map_of_mem hc
    obtain ⟨d, hd, hdc⟩ := List.mem_map.mp hmem
    rw [← isNameChar_eq_of_toLower_eq hdc]
    exact h.name_char d hd

/-! ## Lowered texts -/

def Lowered (t : Text) : Prop := ∀ word name, IsReference word name → spell word name <:+: t → word = ['v', 'a', 'r']

theorem Lowered.of_infix {s t : Text} (h : Lowered t) (hs : s <:+: t) : Lowered s :=
  fun word name href hin => h word name href (hin.trans hs)

theorem Lowered.cons {t : Text} (h : Lowered t) {c : Char} (hc : c.isAlpha = false) : Lowered (c :: t) := by
  intro word name href hin
  rcases List.infix_cons_iff.mp hin with hfirst | hrest
  · exfalso
    obtain ⟨d, word', hword⟩ := List.exists_cons_of_length_eq_add_one href.length_word
    obtain ⟨rest, hrest⟩ := hfirst
    have halpha := href.isAlpha_of_mem_word (c := d) (by rw [hword]; exact List.mem_cons_self)
    rw [hword] at hrest
    obtain ⟨rfl, -⟩ := List.cons.inj hrest
    rw [hc] at halpha
    cases halpha
  · exact h word name href hrest

theorem Lowered.blank_append {t w : Text} (h : Lowered t) (hw : Text.allBlank w = true) : Lowered (w ++ t) := by
  induction w with
  | nil => exact h
  | cons c w ih =>
    simp only [Text.allBlank, List.all_cons, Bool.and_eq_true] at ih hw
    refine (ih hw.2).cons ?_
    by_contra halpha
    rw [Text.isBlank_eq_false_of_isAlpha (by simpa using halpha)] at hw
    cases hw.1

theorem lowered_nil : Lowered [] := by
  intro word name href hin
  have := List.eq_nil_of_infix_nil hin
  simp [spell] at this

/-- No reference lies on both sides of a character that none has. -/
theorem lowered_append_cons_iff {a b : Text} {c : Char} (hc : isReferenceChar c = false) :
    Lowered (a ++ c :: b) ↔ Lowered a ∧ Lowered b := by
  constructor
  · intro h
    exact ⟨h.of_infix ⟨[], c :: b, by simp⟩, h.of_infix ⟨a ++ [c], [], by simp⟩⟩
  · intro h word name href hin
    obtain ⟨x, y, hxy⟩ := hin
    have hno : c ∉ spell word name := by
      intro hmem
      rw [href.isReferenceChar_of_mem hmem] at hc
      cases hc
    rcases Text.append_cons_eq_append hxy.symm hno with ⟨z, hz⟩ | ⟨z, -, hz⟩
    · exact h.1 word name href ⟨x, z, hz.symm⟩
    · exact h.2 word name href ⟨z, y, hz.symm⟩

theorem lowered_append_blank {t v : Text} (h : Lowered t) (hv : Text.allBlank v = true) : Lowered (t ++ v) := by
  cases v with
  | nil => simpa using h
  | cons c v =>
    simp only [Text.allBlank, List.all_cons, Bool.and_eq_true] at hv
    refine (lowered_append_cons_iff (isReferenceChar_eq_false_of_isBlank hv.1)).mpr ⟨h, ?_⟩
    simpa using lowered_nil.blank_append (w := v) hv.2

theorem lowered_of_pieces {base : Nat} {sep : Char} (hsep : isReferenceChar sep = false) {t : Text}
    (h : ∀ p ∈ (Text.pieces base sep t).map Prod.snd, Lowered p) : Lowered t := by
  induction t using Text.pieces_induction sep generalizing base with
  | last p hp =>
    rw [Text.pieces_of_notMem hp] at h
    exact h p (by simp)
  | cons p t hp ih =>
    rw [Text.pieces_append_cons hp, List.map_cons] at h
    exact (lowered_append_cons_iff hsep).mpr ⟨h p (by simp), ih fun q hq => h q (List.mem_cons_of_mem _ hq)⟩

theorem lowered_declaration {t : Text} {p : Property} (h : Lowered t) (hp : Declaration.property? t = some p) :
    Lowered p.declaration := by
  obtain ⟨n, v, rfl, -, -, -, rfl⟩ := Declaration.property?_eq_some_iff.mp hp
  obtain ⟨hn, hv⟩ := (lowered_append_cons_iff (by decide)).mp h
  obtain ⟨a, b, hna, -⟩ := Text.exists_trim n
  obtain ⟨a', b', hva, -⟩ := Text.exists_trim v
  have hname : Lowered (Declaration.undashed (Text.trim n)) := by
    refine hn.of_infix ((Declaration.undashed_suffix _).isInfix.trans ?_)
    exact ⟨a, b, hna.symm⟩
  have hvalue : Lowered (Text.trim v) := hv.of_infix ⟨a', b', hva.symm⟩
  refine (lowered_append_cons_iff (a := '-' :: '-' :: _) (by decide)).mpr ⟨?_, hvalue.cons (by decide)⟩
  exact (hname.cons (by decide)).cons (by decide)

theorem lowered_respelled {piece : Text} (h : Lowered piece) : Lowered (Declaration.respelled piece) := by
  cases hp : Declaration.property? piece with
  | none =>
    rw [Declaration.respelled, hp]
    exact h
  | some p =>
    obtain ⟨w, v, hpiece, hw, hv, -, ht⟩ := Text.exists_trim piece
    have hdecl := lowered_declaration h hp
    rw [hpiece] at hp ⊢
    rw [Declaration.respelled_eq hw hv ht hp, List.append_assoc]
    exact (lowered_append_blank hdecl hv).blank_append hw

end Stylesheet.Variable
