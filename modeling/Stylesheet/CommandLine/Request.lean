/-
  Stylesheet.CommandLine.Request — what the arguments ask for.

  Arguments are read before anything is done. Of several faults, options that cannot be read come first, then calls for
  help or the version, then the values of options, then the file, then arguments left over.
-/

import Stylesheet.CommandLine.Arguments
import Stylesheet.Text.Alphanumeric

namespace Stylesheet.CommandLine

structure Job where
  command : Command
  path : Text
  /-- The kinds asked for; none means all. -/
  kinds : List Kind
  dropBlank : Bool
  verbose : Bool
  /-- Arguments the command has no use for. -/
  extra : List Text
  deriving DecidableEq, Repr

inductive Request where
  | help (topic : Topic)
  | version
  | refuse (topic : Topic) (e : UsageError)
  | job (job : Job)
  deriving DecidableEq, Repr

/-- The first call for help or the version among some settings. -/
def eager? (topic : Topic) (settings : List Setting) : Option Request :=
  settings.findSome? fun s =>
    match s with
    | .help => some (.help topic)
    | .version => some .version
    | _ => none

/-- The kinds that `--kind` options name, or the first of them that names none. -/
def chosenKinds (settings : List Setting) : Except UsageError (List Kind) :=
  (settings.filterMap fun s => match s with | .kind value => some value | _ => none).mapM fun value =>
    match Kind.ofLabel? value with
    | some kind => .ok kind
    | none => .error (.unknownKind value)

def commandRequest (c : Command) (verbose : Bool) (arguments : List Text) : Request :=
  let topic := Topic.command c
  match (Grammar.command c).read .empty arguments with
  | .error e => .refuse topic e
  | .ok a =>
    match eager? topic a.settings with
    | some request => request
    | none =>
      match chosenKinds a.settings, a.rest with
      | .error e, _ => .refuse topic e
      | .ok _, [] => .refuse topic .missingFile
      | .ok kinds, path :: extra => .job ⟨c, path, kinds, a.settings.contains .dropBlank, verbose, extra⟩

/-- Whether an unknown command looks like an option: it starts with neither a letter nor a numeral. -/
def looksLikeOption (name : Text) : Bool :=
  match name.head? with
  | some c => !Text.isAlphanumeric c
  | none => false

/-- The request that an unknown command comes to, whatever follows it: one that looks like an option calls for help. -/
def unknownRequest (name : Text) : Request :=
  if looksLikeOption name then .help .program else .refuse .program (.unknownCommand name)

def request (arguments : List Text) : Request :=
  if arguments.isEmpty then .help .program
  else
    match Grammar.program.read .empty arguments with
    | .error e => .refuse .program e
    | .ok a =>
      match eager? .program a.settings, a.rest with
      | some request, _ => request
      | none, [] => .refuse .program .missingCommand
      | none, name :: rest =>
        match Command.ofName? name with
        | some c => commandRequest c (a.settings.contains .verbose) rest
        | none => unknownRequest name

end Stylesheet.CommandLine
