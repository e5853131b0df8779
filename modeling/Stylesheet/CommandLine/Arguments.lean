/-
  Stylesheet.CommandLine.Arguments — arguments read against the options in force.

  An argument of two or more characters that starts with a dash is an option. A long option may carry its value after
  an equals sign; one dash introduces a run of one-letter options. Two dashes alone end the options.
-/

import Stylesheet.CommandLine.UsageError

namespace Stylesheet.CommandLine

inductive Setting where
  | help
  | version
  | verbose
  | kind (value : Text)
  | dropBlank
  deriving DecidableEq, Repr

inductive Effect where
  | flag (s : Setting)
  | value (set : Text → Setting)

/-- The options in force. Where other arguments end the options, `mixed` is false. -/
structure Grammar where
  long : List (Text × Effect)
  short : List (Char × Setting)
  mixed : Bool

structure Arguments where
  settings : List Setting
  rest : List Text

namespace Arguments

def empty : Arguments := ⟨[], []⟩

def set (a : Arguments) (s : Setting) : Arguments := { a with settings := a.settings ++ [s] }

def leave (a : Arguments) (rest : List Text) : Arguments := { a with rest := a.rest ++ rest }

end Arguments

/-- The name and the value of a long option. -/
def splitValue (argument : Text) : Text × Option Text :=
  match argument.dropWhile (· ≠ '=') with
  | [] => (argument, none)
  | _ :: value => (argument.takeWhile (· ≠ '='), some value)

def Grammar.letters (g : Grammar) (run : Text) : Except UsageError (List Setting) :=
  run.mapM fun c =>
    match g.short.lookup c with
    | some s => .ok s
    | none => .error (.unknownOption ['-', c])

def isOption : Text → Bool
  | '-' :: _ :: _ => true
  | _ => false

def Grammar.read (g : Grammar) (a : Arguments) : List Text → Except UsageError Arguments
  | [] => .ok a
  | argument :: rest =>
    if argument = ['-', '-'] then .ok (a.leave rest)
    else if isOption argument then
      match splitValue argument with
      | (name, value) =>
        match g.long.lookup name, value with
        | some (.flag s), none => g.read (a.set s) rest
        | some (.flag _), some _ => .error (.valueRefused name)
        | some (.value set), some v => g.read (a.set (set v)) rest
        | some (.value set), none =>
          match rest with
          | v :: rest => g.read (a.set (set v)) rest
          | [] => .error (.valueMissing name)
        | none, _ =>
          match argument with
          | '-' :: '-' :: _ => .error (.unknownOption name)
          | _ =>
            match g.letters (argument.drop 1) with
            | .ok settings => g.read ⟨a.settings ++ settings, a.rest⟩ rest
            | .error e => .error e
    else if g.mixed then g.read (a.leave [argument]) rest
    else .ok (a.leave (argument :: rest))

/-! ## The program's options -/

def helpOption : Text × Effect := ("--help".toList, .flag .help)

def Grammar.program : Grammar where
  long := [("--version".toList, .flag .version), ("--verbose".toList, .flag .verbose), helpOption]
  short := [('v', .verbose)]
  mixed := false

def Grammar.command : Command → Grammar
  | .parse => ⟨[("--kind".toList, .value .kind), ("--drop-blank".toList, .flag .dropBlank), helpOption], [], true⟩
  | _ => ⟨[helpOption], [], true⟩

end Stylesheet.CommandLine
