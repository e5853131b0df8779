/-
  Stylesheet.CommandLine.Run — requests carried out.

  A run is a function of the arguments and of what their path leads to. It ends with an exit code and the texts printed,
  or with a failure of the file, after which nothing is printed.
-/

import Stylesheet.CommandLine.Files
import Stylesheet.CommandLine.Request
import Stylesheet.Export
import Stylesheet.Parse
import Stylesheet.Text.LineEnd
import Stylesheet.Text.Terminal
import Stylesheet.Text.Utf8

namespace Stylesheet.CommandLine

/-! ## Outcomes -/

inductive Failure where
  | isDirectory (path : Text)
  | undecodable (fault : Text.Utf8.Fault)
  deriving DecidableEq, Repr

def Failure.message : Failure → Text
  | .isDirectory path => "[Errno 21] Is a directory: ".toList ++ Text.quoted (Path.plain path)
  | .undecodable fault => fault.message

structure Outcome where
  exitCode : Nat
  stdout : Text
  stderr : Text
  failure : Option Failure
  deriving DecidableEq, Repr

namespace Outcome

def done (stdout stderr : Text) : Outcome := ⟨0, stdout, stderr, none⟩

def refused (exitCode : Nat) (stderr : Text) : Outcome := ⟨exitCode, [], Text.Terminal.plain stderr, none⟩

def failed (f : Failure) : Outcome := ⟨1, [], [], some f⟩

end Outcome

/-! ## Reports -/

def partLine (p : Part) : Text :=
  let value :=
    match p.value with
    | .text t => t
    | .property q => q.declaration
  "  ".toList ++ Text.padRight 9 p.kind.label ++ [' '] ++ value ++ if p.escape then "  (escaped)".toList else []

def diagnosticLines (diagnostics : List Diagnostic) : List Text :=
  if diagnostics.isEmpty then []
  else [] :: "Diagnostics:".toList :: diagnostics.map fun d => "  ".toList ++ d.display

def inspection (path : Text) (parsed : Parsed) : List Text :=
  let found := parts parsed.segments
  ["File:     ".toList ++ Path.last path,
    "Segments: ".toList ++ Text.ofNat parsed.segments.length,
    "Parts:    ".toList ++ Text.ofNat found.length,
    []] ++ found.map partLine ++ diagnosticLines parsed.diagnostics

/-- The debug log of a parse: how much each kind has, and what was dropped. -/
def log (source : Text) (kinds : List Kind) : List Text :=
  let counts := (Kind.ordered kinds).map fun kind =>
    "matcher ".toList ++ kind.name ++ " produced ".toList ++ Text.ofNat (kind.occurrences source).length ++
      " record(s)".toList
  let drops := (Layout.verdicts (findings source kinds).occurrences).filterMap fun v =>
    match v with
    | .kept _ _ => none
    | .dropped o taken =>
      some ("dropping ".toList ++ o.part.kind.name ++ " record at ".toList ++ Text.ofInt o.offset ++
        " overlapping text up to ".toList ++ Text.ofInt taken)
  (counts ++ drops).map ("cssparts: ".toList ++ ·)

/-! ## Running -/

def readText (bytes : List UInt8) : Except Text.Utf8.Fault Text := (Text.Utf8.decode bytes).map Text.unifyLineEnds

def Job.options (job : Job) : Options :=
  { dropBlank := job.dropBlank, kinds := if job.kinds.isEmpty then Kind.all else job.kinds }

def Job.print (job : Job) (parsed : Parsed) : List Text :=
  match job.command with
  | .parse => [(json parsed.segments).write .indented 0]
  | .bundle => [moduleText parsed.segments]
  | .inspect => inspection job.path parsed

def Job.runOn (job : Job) (source : Text) : Outcome :=
  match parse source job.options with
  | .error e => .refused 1 (Text.line ("Parse error: ".toList ++ e.message))
  | .ok parsed =>
    .done ((job.print parsed).flatMap fun l => Text.Terminal.plain (Text.line l))
      (if job.verbose then (log source job.options.kinds).flatMap Text.line else [])

def Job.run (job : Job) (entry : Entry) : Outcome :=
  let refuse (e : UsageError) := Outcome.refused 2 (e.report (.command job.command))
  match entry with
  | .missing => refuse (.noSuchFile job.path)
  | .directory => if job.extra.isEmpty then .failed (.isDirectory job.path) else refuse (.extraArguments job.extra)
  | .file bytes =>
    if job.extra.isEmpty then
      match readText bytes with
      | .ok source => job.runOn source
      | .error fault => .failed (.undecodable fault)
    else refuse (.extraArguments job.extra)

/-- Carries out a request; `entry` tells what a path leads to. -/
def Request.run (entry : Text → Entry) : Request → Outcome
  | .help topic => .done topic.help []
  | .version => .done (Text.line CommandLine.version) []
  | .refuse topic e => .refused 2 (e.report topic)
  | .job j => j.run (entry j.path)

def run (entry : Text → Entry) (arguments : List Text) : Outcome := (request arguments).run entry

end Stylesheet.CommandLine
