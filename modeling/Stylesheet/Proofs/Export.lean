/-
  Stylesheet.Proofs.Export — nothing is lost in a module.

  Main statement: `moduleText_lossless` — what follows the assignment in a module is printable ASCII, a JSON text of the
  exported data and of nothing else, and the data give back the segments; segments exported alike are equal.

  The texts of segments are `Text`s, which have no surrogates. Of raw segments, whose texts may have them, the same
  holds as long as no high surrogate stands directly before a low one: such a pair is exported as the character above
  U+FFFF with these two units is, and the two lists of `compact_pair_eq_character` differ in nothing else.
-/

import Stylesheet.Proofs.Pipeline
import Stylesheet.Proofs.Raw

namespace Stylesheet

theorem json_injective {a b : List Segment} (h : json a = json b) : a = b := by
  have hread := congrArg ofJson? h
  rw [ofJson?_json, ofJson?_json] at hread
  exact Option.some.inj hread

/-- The module of a text that is not too long has one reading as JSON, and it leads back to the segments. In general,
    lists of segments that are exported as the same text are equal. So are lists of raw segments, which are exported in
    the same way, if no text in them has a high surrogate directly before a low one. -/
theorem moduleText_lossless :
    (∀ (source : Text) (options : Options), source.length ≤ options.limit →
      ∃ parsed payload, parse source options = .ok parsed ∧
        moduleText parsed.segments = "module.exports = ".toList ++ payload ∧
        (∀ c ∈ payload, 0x20 ≤ c.toNat ∧ c.toNat ≤ 0x7E) ∧
        (∀ v, Json.Spells payload v ↔ v = json parsed.segments) ∧
        Json.read? payload = some (json parsed.segments) ∧
        ofJson? (json parsed.segments) = some parsed.segments) ∧
      (∀ a b : List Segment, (json a).write .compact 0 = (json b).write .compact 0 → a = b) ∧
      (∀ segments : List Segment, Raw.compact (segments.map Segment.raw) = (json segments).write .compact 0) ∧
      ∀ a b : List Raw.Segment, (∀ s ∈ a, ∀ t ∈ s.texts, CodePoint.Unpaired t) →
        (∀ s ∈ b, ∀ t ∈ s.texts, CodePoint.Unpaired t) → Raw.compact a = Raw.compact b → a = b := by
  refine ⟨?_, ?_, compact_map_raw, ?_⟩
  · intro source options hlimit
    obtain ⟨parsed, hparse⟩ := exists_parse hlimit
    have hspells := Json.spells_write .compact (json parsed.segments) 0
    refine ⟨parsed, _, hparse, rfl, ?_, ?_, Json.read?_write .compact _ 0, ofJson?_json _⟩
    · intro c hc
      exact Json.isPrint_iff.mp (Json.isPrint_of_mem_write_compact hc)
    · intro v
      constructor
      · intro hv
        exact hv.unique hspells
      · rintro rfl
        exact hspells
  · intro a b h
    exact json_injective (Json.write_injective .compact h)
  · intro a b ha hb h
    exact Raw.eq_of_compact ha hb h

/-- Quotes, a backslash, control characters and one above U+FFFF, in a property and in literals, and a variable marked
    for escaping; and two surrogates in the wrong order beside one that stands alone. -/
theorem moduleText_lossless_escapes :
    let source := (r#":root{--x:"\"# ++ "\t\x7f😀" ++ r#""}svg[fill='var(--c)']"# ++ "\n\x08").toList
    let payload := (r#"[":root{",{"type":3,"value":{"name":"x","value":"\"\\\t\u007f\ud83d\ude00\""}},"# ++
      r#""}svg[fill='",{"type":2,"value":"c","encode":true},"']\n\b"]"#).toList
    let raw : List Raw.Segment := [.literal [0xDE00, 0xD83D], .part .url (.text [0xD83D]) false]
    (source.length : Int) ≤ ({} : Options).limit ∧
      (∃ parsed, parse source {} = .ok parsed ∧
        moduleText parsed.segments = "module.exports = ".toList ++ payload ∧
        (∀ c ∈ payload, 0x20 ≤ c.toNat ∧ c.toNat ≤ 0x7E) ∧
        (∀ v, Json.Spells payload v ↔ v = json parsed.segments) ∧
        Json.read? payload = some (json parsed.segments) ∧
        ofJson? (json parsed.segments) = some parsed.segments ∧
        (∀ segments, (json segments).write .compact 0 = payload → segments = parsed.segments) ∧
        Raw.compact (parsed.segments.map Segment.raw) = payload) ∧
      (∀ s ∈ raw, ∀ t ∈ s.texts, CodePoint.Unpaired t) ∧
      ∀ segments : List Raw.Segment, (∀ s ∈ segments, ∀ t ∈ s.texts, CodePoint.Unpaired t) →
        Raw.compact segments = Raw.compact raw → segments = raw := by
  intro source payload raw
  have hlimit : (source.length : Int) ≤ ({} : Options).limit := by decide
  have hraw : ∀ s ∈ raw, ∀ t ∈ s.texts, CodePoint.Unpaired t := by decide
  obtain ⟨parsed, payload', hparse, hmodule, hrest⟩ := moduleText_lossless.1 source {} hlimit
  have hwrite : (json parsed.segments).write .compact 0 = payload := by
    rw [eq_of_parse hparse]
    decide +kernel
  clear_value payload
  obtain rfl : payload' = payload := (List.append_cancel_left hmodule).symm.trans hwrite
  obtain ⟨hprint, hspells, hread, hback⟩ := hrest
  refine ⟨hlimit, ⟨parsed, hparse, hmodule, hprint, hspells, hread, hback, ?_, ?_⟩, hraw, ?_⟩
  · intro segments h
    exact moduleText_lossless.2.1 segments parsed.segments (h.trans hwrite.symm)
  · exact (moduleText_lossless.2.2.1 parsed.segments).trans hwrite
  · intro segments hsegments h
    exact moduleText_lossless.2.2.2 segments raw hsegments hraw h

/-- Without the condition on surrogates raw segments may be different and still be exported as one text. -/
theorem compact_pair_eq_character :
    let pair : List Raw.Segment := [.literal [0xD83D, 0xDE00]]
    let character : List Raw.Segment := [.literal [0x1F600]]
    Raw.compact pair = r#"["\ud83d\ude00"]"#.toList ∧ Raw.compact character = Raw.compact pair ∧ pair ≠ character := by
  decide +kernel

end Stylesheet
