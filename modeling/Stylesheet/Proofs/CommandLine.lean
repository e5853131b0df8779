/-
  Stylesheet.Proofs.CommandLine — the program answers as the library does.

  The options of a command may stand before its file and after it, and a kind may be joined to its option
  (`read_switches`). The file's bytes are read as the text they encode, each line end as one line feed (`readText_eq`).
  What is printed has no escape character, so that it reaches a terminal unchanged (`escape_notMem_write`).

  Main statement: `run_agrees` — on a file of encoded text, the module or the data that a parse of the text gives, or
  its failure, whatever the text holds.
-/

import Stylesheet.CommandLine.Run
import Stylesheet.Proofs.Cut
import Stylesheet.Proofs.Export
import Stylesheet.Proofs.Text.Replace
import Stylesheet.Proofs.Text.Utf8

namespace Stylesheet.CommandLine

/-! ## Arguments -/

/-- An option of `parse`. The value of `--kind` may be joined to it by an equals sign. -/
inductive Switch where
  | kind (k : Kind) (joined : Bool)
  | dropBlank

namespace Switch

def arguments : Switch → List Text
  | kind k true => ["--kind=".toList ++ k.label]
  | kind k false => ["--kind".toList, k.label]
  | dropBlank => ["--drop-blank".toList]

def setting : Switch → Setting
  | kind k _ => .kind k.label
  | dropBlank => .dropBlank

def kind? : Switch → Option Kind
  | kind k _ => some k
  | dropBlank => none

end Switch

structure Matches (switches : List Switch) (options : Options) : Prop where
  limit : options.limit = 1000000
  dropBlank : options.dropBlank = true ↔ .dropBlank ∈ switches
  kinds : ∀ k, k ∈ options.kinds ↔
    (∃ joined, .kind k joined ∈ switches) ∨ ∀ k joined, .kind k joined ∉ switches

theorem read_switch (a : Arguments) (switch : Switch) (rest : List Text) :
    (Grammar.command .parse).read a (switch.arguments ++ rest) =
      (Grammar.command .parse).read (a.set switch.setting) rest := by
  cases switch with
  | kind k joined => cases k <;> cases joined <;> rfl
  | dropBlank => rfl

theorem read_switches (switches : List Switch) (a : Arguments) (rest : List Text) :
    (Grammar.command .parse).read a (switches.flatMap Switch.arguments ++ rest) =
      (Grammar.command .parse).read ⟨a.settings ++ switches.map Switch.setting, a.rest⟩ rest := by
  induction switches generalizing a with
  | nil => simp
  | cons switch switches ih =>
    rw [List.flatMap_cons, List.append_assoc, read_switch, ih]
    simp [Arguments.set]

theorem read_argument {argument : Text} (h : isOption argument = false) (c : Command) (a : Arguments)
    (rest : List Text) :
    (Grammar.command c).read a (argument :: rest) = (Grammar.command c).read (a.leave [argument]) rest := by
  have hends : argument ≠ ['-', '-'] := by
    rintro rfl
    cases h
  rw [Grammar.read, if_neg hends, h]
  cases c <;> rfl

theorem eager?_switches (topic : Topic) (switches : List Switch) :
    eager? topic (switches.map Switch.setting) = none := by
  refine List.findSome?_eq_none_iff.mpr fun s hs => ?_
  obtain ⟨switch, -, rfl⟩ := List.mem_map.mp hs
  cases switch <;> rfl

theorem chosenKinds_switches (switches : List Switch) :
    chosenKinds (switches.map Switch.setting) = .ok (switches.filterMap Switch.kind?) := by
  induction switches with
  | nil => rfl
  | cons switch switches ih =>
    cases switch with
    | dropBlank => exact ih
    | kind k joined =>
      unfold chosenKinds at ih ⊢
      rw [List.map_cons, Switch.setting, List.filterMap_cons]
      dsimp only
      rw [List.mapM_cons, Kind.ofLabel?_label, ih]
      rfl

/-! ## Jobs -/

section

variable {path : Text} (hpath : isOption path = false)

include hpath

theorem read_parse (before after : List Switch) : (Grammar.command .parse).read .empty
    (before.flatMap Switch.arguments ++ path :: after.flatMap Switch.arguments) =
      .ok ⟨(before ++ after).map Switch.setting, [path]⟩ := by
  have hafter := read_switches after ⟨before.map Switch.setting, [path]⟩ []
  rw [List.append_nil, Grammar.read] at hafter
  rw [read_switches, read_argument hpath]
  show (Grammar.command .parse).read ⟨before.map Switch.setting, [path]⟩ _ = _
  rw [hafter, List.map_append]

theorem request_parse (before after : List Switch) : request ("parse".toList ::
    (before.flatMap Switch.arguments ++ path :: after.flatMap Switch.arguments)) =
      .job ⟨.parse, path, (before ++ after).filterMap Switch.kind?,
        ((before ++ after).map Switch.setting).contains .dropBlank, false, []⟩ := by
  show commandRequest .parse false _ = _
  unfold commandRequest
  rw [read_parse hpath]
  dsimp only
  rw [eager?_switches, chosenKinds_switches]

theorem request_command (c : Command) : request [c.name, path] = .job ⟨c, path, [], false, false, []⟩ := by
  have hread : (Grammar.command c).read .empty [path] = .ok ⟨[], [path]⟩ := by
    rw [read_argument hpath, Grammar.read]
    rfl
  have hrequest : request [c.name, path] = commandRequest c false [path] := by
    cases c <;> rfl
  rw [hrequest]
  unfold commandRequest
  rw [hread]
  rfl

end

theorem mem_kinds_iff {switches : List Switch} {k : Kind} :
    k ∈ switches.filterMap Switch.kind? ↔ ∃ joined, .kind k joined ∈ switches := by
  rw [List.mem_filterMap]
  constructor
  · rintro ⟨switch, hmem, hk⟩
    cases switch with
    | dropBlank => cases hk
    | kind k' joined =>
      obtain rfl := Option.some.inj hk
      exact ⟨joined, hmem⟩
  · rintro ⟨joined, hmem⟩
    exact ⟨_, hmem, rfl⟩

theorem contains_dropBlank_iff {switches : List Switch} :
    (switches.map Switch.setting).contains .dropBlank = true ↔ .dropBlank ∈ switches := by
  rw [List.contains_iff_mem, List.mem_map]
  constructor
  · rintro ⟨switch, hmem, hsetting⟩
    cases switch with
    | dropBlank => exact hmem
    | kind => cases hsetting
  · exact fun hmem => ⟨_, hmem, rfl⟩

/-- A job of `parse` cuts a text as the library does under the options that match. -/
theorem Matches.parse_eq {switches : List Switch} {options : Options} (h : Matches switches options)
    (path source : Text) :
    parse source (Job.options ⟨.parse, path, switches.filterMap Switch.kind?,
      (switches.map Switch.setting).contains .dropBlank, false, []⟩) = parse source options := by
  refine parse_congr h.limit.symm ?_ (fun k => ?_) source
  · rw [Bool.eq_iff_iff, h.dropBlank]
    exact contains_dropBlank_iff
  · rw [h.kinds, ← mem_kinds_iff]
    have hnone : (∀ k joined, Switch.kind k joined ∉ switches) ↔ switches.filterMap Switch.kind? = [] := by
      rw [List.eq_nil_iff_forall_not_mem]
      exact forall_congr' fun k => by rw [mem_kinds_iff, not_exists]
    rw [hnone, Job.options]
    dsimp only
    cases switches.filterMap Switch.kind? with
    | nil => exact iff_of_true (mem_all k) (Or.inr rfl)
    | cons => simp

/-! ## Files -/

theorem readText_eq (t : Text) : readText (t.flatMap String.utf8EncodeChar) =
    .ok (Text.replace ['\r'] ['\n'] (Text.replace ['\r', '\n'] ['\n'] t)) := by
  rw [readText, Text.Utf8.decode_flatMap, ← Text.unifyLineEnds_eq]
  rfl

/-! ## What is printed -/

theorem escape_ne_of_isSpace {c : Char} (h : Json.isSpace c = true) : c ≠ Text.Terminal.escape := by
  rintro rfl
  exact absurd h (by decide)

theorem escape_ne_of_isPrint {c : Char} (h : Json.isPrint c = true) : c ≠ Text.Terminal.escape := by
  rintro rfl
  exact absurd h (by decide)

theorem escape_notMem_write {style : Json.Style} (hs : style.Spaced) (v : Json) (depth : Nat) :
    Text.Terminal.escape ∉ v.write style depth := by
  intro h
  rcases Json.mem_write h with h | ⟨depth, h⟩ | h
  · exact escape_ne_of_isPrint h rfl
  · exact escape_ne_of_isSpace (List.all_eq_true.mp (hs.lineBreak depth) _ h) rfl
  · obtain ⟨l, r, hl, hr, hcolon⟩ := hs.colon
    rw [hcolon, List.mem_append, List.mem_cons] at h
    rcases h with h | h | h
    · exact escape_ne_of_isSpace (List.all_eq_true.mp hl _ h) rfl
    · exact absurd h (by decide)
    · exact escape_ne_of_isSpace (List.all_eq_true.mp hr _ h) rfl

theorem escape_notMem_line {t : Text} (h : Text.Terminal.escape ∉ t) : Text.Terminal.escape ∉ Text.line t := by
  rw [Text.line, List.mem_append, not_or]
  exact ⟨h, by decide⟩

theorem escape_notMem_moduleText (segments : List Segment) : Text.Terminal.escape ∉ moduleText segments := by
  intro h
  rcases List.mem_append.mp h with h | h
  · exact absurd h (by decide +kernel)
  · exact escape_notMem_write .compact _ 0 h

theorem plain_line_eq_self {t : Text} (h : Text.Terminal.escape ∉ t) :
    Text.Terminal.plain (Text.line t) = Text.line t :=
  Text.Terminal.plain_eq_self (escape_notMem_line h)

def tooLong (n : Nat) : Text :=
  Text.line ("Parse error: Input of ".toList ++ Text.ofNat n ++
    " characters exceeds the limit of 1000000 characters".toList)

theorem escape_notMem_tooLong (n : Nat) : Text.Terminal.escape ∉ tooLong n := by
  refine escape_notMem_line fun h => ?_
  rcases List.mem_append.mp h with h | h
  · rcases List.mem_append.mp h with h | h
    · exact absurd h (by decide +kernel)
    · exact absurd (Json.isDigit_of_mem_ofNat h) (by decide)
  · exact absurd h (by decide +kernel)

/-! ## Runs -/

theorem run_of_request {entry : Text → Entry} {t : Text} {arguments : List Text} {job : Job}
    (hrequest : request arguments = .job job) (hextra : job.extra = [])
    (hfile : entry job.path = .file (t.flatMap String.utf8EncodeChar)) : run entry arguments =
      job.runOn (Text.replace ['\r'] ['\n'] (Text.replace ['\r', '\n'] ['\n'] t)) := by
  rw [run, hrequest, Request.run]
  unfold Job.run
  rw [hfile, hextra]
  dsimp only
  rw [readText_eq]
  rfl

theorem message_tooLong (n : Nat) :
    Text.line ("Parse error: ".toList ++ (ParseError.tooLong n 1000000).message) = tooLong n := by
  have hprompt : "Parse error: Input of ".toList = "Parse error: ".toList ++ "Input of ".toList := by decide +kernel
  have hlimit : " characters exceeds the limit of 1000000 characters".toList =
      " characters exceeds the limit of ".toList ++ Text.ofInt 1000000 ++ " characters".toList := by decide +kernel
  have hassoc (a b c d e f : Text) : a ++ (b ++ c ++ d ++ e ++ f) = a ++ b ++ c ++ (d ++ e ++ f) := by
    simp only [List.append_assoc]
  rw [tooLong, hprompt, hlimit]
  exact congrArg Text.line (hassoc _ _ _ _ _ _)

theorem parse_of_lt {source : Text} (h : 1000000 < source.length) {options : Options}
    (hlimit : options.limit = 1000000) :
    parse source options = .error (.tooLong source.length 1000000) := by
  rw [parse, hlimit, if_pos (by omega)]

theorem runOn_of_lt {source : Text} (h : 1000000 < source.length) (job : Job) :
    job.runOn source = ⟨1, [], tooLong source.length, none⟩ := by
  unfold Job.runOn
  rw [parse_of_lt h rfl]
  dsimp only
  rw [Outcome.refused, message_tooLong, Text.Terminal.plain_eq_self (escape_notMem_tooLong _)]

/-- A command that prints one text without escape characters prints it as it is. -/
theorem runOn_of_parse {source out : Text} {job : Job} {parsed : Parsed}
    (hparse : parse source job.options = .ok parsed) (hverbose : job.verbose = false)
    (hprint : job.print parsed = [out]) (hout : Text.Terminal.escape ∉ out) : job.runOn source = .done (Text.line out) [] := by
  unfold Job.runOn
  rw [hparse]
  dsimp only
  rw [hprint, hverbose, List.flatMap_singleton, plain_line_eq_self hout]
  rfl

/-- On a file that encodes a text, the program answers as the library does. Read with one spelling of the line end, a
    text within the limit is printed as its module, or as the data that its parse gives under the options that match;
    the data can be read from what is printed, and in one way only. What is printed is the same on a terminal. A text
    above the limit is refused by every command, with the library's message. -/
theorem run_agrees {entry : Text → Entry} {path t : Text} (hpath : isOption path = false)
    (hfile : entry path = .file (t.flatMap String.utf8EncodeChar)) (before after : List Switch) :
    let source := Text.replace ['\r'] ['\n'] (Text.replace ['\r', '\n'] ['\n'] t)
    let bundle := ["module".toList, path]
    let split := "parse".toList :: (before.flatMap Switch.arguments ++ path :: after.flatMap Switch.arguments)
    (source.length ≤ 1000000 →
      (∃ parsed, parse source {} = .ok parsed ∧
        run entry bundle = .done (Text.line (moduleText parsed.segments)) [] ∧
        Text.Terminal.plain (Text.line (moduleText parsed.segments)) = Text.line (moduleText parsed.segments)) ∧
      ∀ options, Matches (before ++ after) options → ∃ parsed stdout, parse source options = .ok parsed ∧
        run entry split = .done stdout [] ∧ stdout = Text.line ((json parsed.segments).write .indented 0) ∧
        Text.Terminal.plain stdout = stdout ∧ Json.read? stdout = some (json parsed.segments) ∧
        ∀ v, Json.Spells stdout v ↔ v = json parsed.segments) ∧
    (1000000 < source.length →
      (∀ options : Options, options.limit = 1000000 →
        parse source options = .error (.tooLong source.length 1000000)) ∧
      ∀ arguments ∈ [bundle, split, ["inspect".toList, path]],
        run entry arguments = ⟨1, [], tooLong source.length, none⟩) := by
  intro source bundle split
  have hbundle : run entry bundle = Job.runOn ⟨.bundle, path, [], false, false, []⟩ source :=
    run_of_request (request_command hpath .bundle) rfl hfile
  have hinspect : run entry ["inspect".toList, path] = Job.runOn ⟨.inspect, path, [], false, false, []⟩ source :=
    run_of_request (request_command hpath .inspect) rfl hfile
  have hsplit := run_of_request (request_parse hpath before after) rfl hfile
  refine ⟨fun hle => ⟨?_, fun options hmatches => ?_⟩,
    fun hlt => ⟨fun options => parse_of_lt hlt, fun arguments hmem => ?_⟩⟩
  · have hlimit : (source.length : Int) ≤ ({} : Options).limit := by
      show (source.length : Int) ≤ 1000000
      omega
    obtain ⟨parsed, hparse⟩ := exists_parse hlimit
    have hescape := escape_notMem_moduleText parsed.segments
    refine ⟨parsed, hparse, ?_, plain_line_eq_self hescape⟩
    rw [hbundle]
    exact runOn_of_parse hparse rfl rfl hescape
  · have hlimit : (source.length : Int) ≤ options.limit := by
      rw [hmatches.limit]
      omega
    obtain ⟨parsed, hparse⟩ := exists_parse hlimit
    have hescape := escape_notMem_write .indented (json parsed.segments) 0
    have hspells : Json.Spells (Text.line ((json parsed.segments).write .indented 0)) (json parsed.segments) :=
      (Json.spells_write .indented _ 0).append_spaces rfl
    refine ⟨parsed, _, hparse, ?_, rfl, plain_line_eq_self hescape, Json.read?_of_spells hspells, fun v => ?_⟩
    · rw [hsplit]
      exact runOn_of_parse ((hmatches.parse_eq path source).trans hparse) rfl rfl hescape
    · exact ⟨fun hv => hv.unique hspells, fun hv => hv ▸ hspells⟩
  · simp only [List.mem_cons, List.not_mem_nil, or_false] at hmem
    rcases hmem with rfl | rfl | rfl
    · rw [hbundle, runOn_of_lt hlt]
    · rw [hsplit]
      exact runOn_of_lt hlt _
    · rw [hinspect, runOn_of_lt hlt]

/-- A control sequence, two spellings of the line end and a character above U+FFFF, with options on both sides of the
    file. -/
theorem run_agrees_escapes :
    let t := "\x1b[31m\r\na{}\r😀".toList
    let source := "\x1b[31m\na{}\n😀".toList
    let path := "a.css".toList
    let entry : Text → Entry := fun p => if p = path then .file (t.flatMap String.utf8EncodeChar) else .missing
    isOption path = false ∧ entry path = .file (t.flatMap String.utf8EncodeChar) ∧
      run entry ["module".toList, path] = .done
        (r#"module.exports = ["\u001b[31m\n",{"type":1,"value":"a"},"{}\n\ud83d\ude00"]"# ++ "\n").toList [] ∧
      ∃ parsed stdout, parse source { dropBlank := true, kinds := [.url, .selector] } = .ok parsed ∧
        run entry ["parse".toList, "--kind".toList, "selector".toList, path, "--drop-blank".toList,
          "--kind=url".toList] = .done stdout [] ∧ Json.read? stdout = some (json parsed.segments) := by
  intro t source path entry
  have hpath : isOption path = false := rfl
  have hfile : entry path = .file (t.flatMap String.utf8EncodeChar) := if_pos rfl
  have hsource : Text.replace ['\r'] ['\n'] (Text.replace ['\r', '\n'] ['\n'] t) = source := by decide +kernel
  have hmatches : Matches ([.kind .selector false] ++ [.dropBlank, .kind .url true])
      { dropBlank := true, kinds := [.url, .selector] } := by
    refine ⟨rfl, by simp, fun k => ?_⟩
    rw [or_iff_left fun hnone => hnone .selector false (by simp)]
    cases k <;> simp
  obtain ⟨⟨parsed, hparse, hrun, -⟩, hoptions⟩ :=
    (run_agrees hpath hfile [.kind .selector false] [.dropBlank, .kind .url true]).1 (by decide +kernel)
  obtain ⟨parsed', stdout, hparse', hrun', -, -, hread, -⟩ := hoptions _ hmatches
  rw [hsource] at hparse hparse'
  refine ⟨hpath, hfile, ?_, parsed', stdout, hparse', hrun', hread⟩
  rw [hrun, eq_of_parse hparse]
  decide +kernel

end Stylesheet.CommandLine
