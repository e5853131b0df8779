/-
  Stylesheet.Proofs.Raw — which raw segments are exported alike.

  A segment's compact text says the segment up to the surrogate pairs in its texts, and where the text ends
  (`Segment.compact_append_inj`); so two lists are exported as one text exactly when they are the same once each pair is
  read as the character it stands for (`compact_eq_iff`). On segments the export is the one of `json`
  (`compact_map_raw`).
-/

import Stylesheet.Proofs.Text.CodePoint
import Stylesheet.Raw

namespace Stylesheet

namespace Raw

open CodePoint (joined Unpaired string_append_inj string_joined)

/-! ## Texts -/

def Value.map (f : List CodePoint → List CodePoint) : Value → Value
  | .text t => .text (f t)
  | .property name value => .property (f name) (f value)

def Segment.map (f : List CodePoint → List CodePoint) : Segment → Segment
  | .literal t => .literal (f t)
  | .part kind value escape => .part kind (value.map f) escape

def Value.texts : Value → List (List CodePoint)
  | .text t => [t]
  | .property name value => [name, value]

def Segment.texts : Segment → List (List CodePoint)
  | .literal t => [t]
  | .part _ value _ => value.texts

/-! ## One segment -/

theorem Value.compact_property (name value : List CodePoint) :
    (Value.property name value).compact =
      '{' :: (Json.string nameField ++ ':' :: (CodePoint.string name ++
        ',' :: (Json.string valueField ++ ':' :: (CodePoint.string value ++ ['}'])))) := by
  simp [Value.compact, Json.bracketed, Json.Style.compact, field, List.intercalate]

def mark (escape : Bool) : Text :=
  if escape then ',' :: (Json.string encodeField ++ [':', 't', 'r', 'u', 'e', '}']) else ['}']

theorem Segment.compact_part (kind : Kind) (value : Value) (escape : Bool) :
    (Segment.part kind value escape).compact =
      '{' :: (Json.string typeField ++ ':' :: (Text.ofNat kind.code ++
        ',' :: (Json.string valueField ++ ':' :: (value.compact ++ mark escape)))) := by
  cases escape <;> simp [Segment.compact, mark, Json.bracketed, Json.Style.compact, field, List.intercalate]

theorem code_append_inj {k l : Kind} {a b : Text} (h : Text.ofNat k.code ++ a = Text.ofNat l.code ++ b) :
    k = l ∧ a = b := by
  have hone : ∀ k : Kind, (Text.ofNat k.code).length = 1 := by
    intro k
    cases k <;> rfl
  obtain ⟨hcode, hab⟩ := List.append_inj h ((hone k).trans (hone l).symm)
  refine ⟨?_, hab⟩
  cases k <;> cases l <;> first | rfl | exact absurd hcode (by decide)

theorem mark_append_inj {e f : Bool} {a b : Text} (h : mark e ++ a = mark f ++ b) : e = f ∧ a = b := by
  by_cases hef : e = f
  · subst hef
    exact ⟨rfl, List.append_cancel_left h⟩
  · cases e <;> cases f <;> first | exact absurd rfl hef | cases h

theorem Value.compact_append_inj {v w : Value} {a b : Text} (h : v.compact ++ a = w.compact ++ b) :
    v.map joined = w.map joined ∧ a = b := by
  cases v with
  | text s =>
    cases w with
    | text t =>
      obtain ⟨hst, hab⟩ := string_append_inj h
      exact ⟨congrArg Value.text hst, hab⟩
    | property name value =>
      rw [compact_property] at h
      cases h
  | property name value =>
    cases w with
    | text t =>
      rw [compact_property] at h
      cases h
    | property name' value' =>
      simp only [compact_property, List.append_assoc, List.cons_append, List.cons.injEq, true_and,
        List.append_cancel_left_eq] at h
      obtain ⟨hname, h⟩ := string_append_inj h
      simp only [List.cons.injEq, true_and, List.append_cancel_left_eq] at h
      obtain ⟨hvalue, h⟩ := string_append_inj h
      exact ⟨by rw [Value.map, Value.map, hname, hvalue], (List.cons.inj h).2⟩

theorem Segment.compact_append_inj {s t : Segment} {a b : Text} (h : s.compact ++ a = t.compact ++ b) :
    s.map joined = t.map joined ∧ a = b := by
  cases s with
  | literal u =>
    cases t with
    | literal v =>
      obtain ⟨huv, hab⟩ := string_append_inj h
      exact ⟨congrArg Segment.literal huv, hab⟩
    | part kind value escape =>
      rw [compact_part] at h
      cases h
  | part kind value escape =>
    cases t with
    | literal v =>
      rw [compact_part] at h
      cases h
    | part kind' value' escape' =>
      simp only [compact_part, List.append_assoc, List.cons_append, List.cons.injEq, true_and,
        List.append_cancel_left_eq] at h
      obtain ⟨rfl, h⟩ := code_append_inj h
      simp only [List.cons.injEq, true_and, List.append_cancel_left_eq] at h
      obtain ⟨hvalue, h⟩ := Value.compact_append_inj h
      obtain ⟨rfl, hab⟩ := mark_append_inj h
      exact ⟨by rw [Segment.map, Segment.map, hvalue], hab⟩

/-! ## Lists -/

theorem Segment.compact_head (s : Segment) : ∃ c u, s.compact = c :: u ∧ c ≠ ']' := by
  cases s with
  | literal t => exact ⟨_, _, rfl, by decide⟩
  | part kind value escape => exact ⟨_, _, compact_part kind value escape, by decide⟩

theorem intercalate_cons (t : Text) (rest : List Text) :
    List.intercalate [','] (t :: rest) = t ++ rest.flatMap fun u => ',' :: u := by
  induction rest generalizing t with
  | nil => simp
  | cons u rest ih => simp [List.intercalate_cons_cons, ih u]

theorem compact_cons (s : Segment) (rest : List Segment) :
    compact (s :: rest) = '[' :: (s.compact ++ ((rest.flatMap fun t => ',' :: t.compact) ++ [']'])) := by
  simp [compact, Json.bracketed, Json.Style.compact, intercalate_cons, List.flatMap_map]

theorem flatMap_compact_inj {a b : List Segment}
    (h : (a.flatMap fun t => ',' :: t.compact) ++ [']'] = (b.flatMap fun t => ',' :: t.compact) ++ [']']) :
    a.map (Segment.map joined) = b.map (Segment.map joined) := by
  induction a generalizing b with
  | nil =>
    cases b with
    | nil => rfl
    | cons t b => cases h
  | cons s a ih =>
    cases b with
    | nil => cases h
    | cons t b =>
      simp only [List.flatMap_cons, List.cons_append, List.append_assoc, List.cons.injEq, true_and] at h
      obtain ⟨hst, h⟩ := Segment.compact_append_inj h
      rw [List.map_cons, List.map_cons, hst, ih h]

theorem compact_cons_ne_nil (s : Segment) (rest : List Segment) : compact (s :: rest) ≠ compact [] := by
  intro h
  obtain ⟨c, u, hs, hc⟩ := s.compact_head
  rw [compact_cons, hs] at h
  exact hc (List.cons.inj (List.cons.inj h).2).1

theorem compact_inj {a b : List Segment} (h : compact a = compact b) :
    a.map (Segment.map joined) = b.map (Segment.map joined) := by
  cases a with
  | nil =>
    cases b with
    | nil => rfl
    | cons t b => exact absurd h.symm (compact_cons_ne_nil t b)
  | cons s a =>
    cases b with
    | nil => exact absurd h (compact_cons_ne_nil s a)
    | cons t b =>
      rw [compact_cons, compact_cons] at h
      obtain ⟨hst, hrest⟩ := Segment.compact_append_inj (List.cons.inj h).2
      rw [List.map_cons, List.map_cons, hst, flatMap_compact_inj hrest]

/-! ## Pairs -/

theorem Value.compact_map_joined (v : Value) : (v.map joined).compact = v.compact := by
  cases v <;> simp only [Value.map, Value.compact, string_joined]

theorem Segment.compact_map_joined (s : Segment) : (s.map joined).compact = s.compact := by
  cases s <;> simp only [Segment.map, Segment.compact, string_joined, Value.compact_map_joined]

/-- Lists are exported alike exactly when they say the same once every surrogate pair is one character. -/
theorem compact_eq_iff {a b : List Segment} :
    compact a = compact b ↔ a.map (Segment.map joined) = b.map (Segment.map joined) := by
  have hjoined : ∀ a : List Segment, compact (a.map (Segment.map joined)) = compact a := by
    intro a
    simp only [compact, List.map_map, Function.comp_def, Segment.compact_map_joined]
  constructor
  · exact compact_inj
  · intro h
    rw [← hjoined a, ← hjoined b, h]

theorem Value.map_joined {v : Value} (h : ∀ t ∈ v.texts, Unpaired t) : v.map joined = v := by
  cases v with
  | text t => rw [Value.map, (h t (by simp [texts])).joined]
  | property name value => rw [Value.map, (h name (by simp [texts])).joined, (h value (by simp [texts])).joined]

theorem Segment.map_joined {s : Segment} (h : ∀ t ∈ s.texts, Unpaired t) : s.map joined = s := by
  cases s with
  | literal t => rw [Segment.map, (h t (by simp [texts])).joined]
  | part kind value escape => rw [Segment.map, Value.map_joined h]

theorem eq_of_compact {a b : List Segment} (ha : ∀ s ∈ a, ∀ t ∈ s.texts, Unpaired t)
    (hb : ∀ s ∈ b, ∀ t ∈ s.texts, Unpaired t) (h : compact a = compact b) : a = b := by
  have hself : ∀ a : List Segment, (∀ s ∈ a, ∀ t ∈ s.texts, Unpaired t) → a.map (Segment.map joined) = a := by
    intro a ha
    rw [List.map_congr_left fun s hs => Segment.map_joined (ha s hs), List.map_id']
  rw [← hself a ha, ← hself b hb, compact_eq_iff.mp h]

end Raw

/-! ## Segments -/

theorem Value.compact_raw (v : Value) (depth : Nat) : v.raw.compact = v.json.write .compact depth := by
  cases v with
  | text t => rw [Value.json, Json.write, Value.raw, Raw.Value.compact, CodePoint.string_map_ofChar]
  | property p =>
    rw [Value.json, Json.write_object, Value.raw, Raw.Value.compact, CodePoint.string_map_ofChar,
      CodePoint.string_map_ofChar]
    simp only [List.map_cons, List.map_nil, Json.write]
    rfl

theorem Segment.compact_raw (s : Segment) (depth : Nat) : s.raw.compact = s.json.write .compact depth := by
  cases s with
  | literal t => rw [Segment.json, Json.write, Segment.raw, Raw.Segment.compact, CodePoint.string_map_ofChar]
  | part p =>
    obtain ⟨kind, value, escape⟩ := p
    rw [Segment.json, Part.json, Json.write_object, Segment.raw, Raw.Segment.compact, Value.compact_raw _ (depth + 1)]
    cases escape <;> simp only [List.map_append, List.map_cons, List.map_nil, Json.write, if_true] <;> rfl

theorem compact_map_raw (segments : List Segment) :
    Raw.compact (segments.map Segment.raw) = (json segments).write .compact 0 := by
  rw [json, Json.write_list, Raw.compact, List.map_map, List.map_map]
  refine congrArg _ (List.map_congr_left ?_)
  intro s hs
  exact s.compact_raw 1

end Stylesheet
