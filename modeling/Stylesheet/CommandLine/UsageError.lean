/-
  Stylesheet.CommandLine.UsageError — arguments the program cannot follow.
-/

import Stylesheet.CommandLine.Command
import Stylesheet.Part

namespace Stylesheet.CommandLine

inductive UsageError where
  | missingCommand
  | unknownCommand (name : Text)
  | unknownOption (name : Text)
  /-- The option needs a value and none follows. -/
  | valueMissing (option : Text)
  /-- The option takes no value and got one. -/
  | valueRefused (option : Text)
  | unknownKind (value : Text)
  | missingFile
  | noSuchFile (path : Text)
  | extraArguments (arguments : List Text)
  deriving DecidableEq, Repr

namespace UsageError

def message : UsageError → Text
  | .missingCommand => "Missing command.".toList
  | .unknownCommand name => "No such command ".toList ++ Text.quoted name ++ ['.']
  | .unknownOption name => "No such option: ".toList ++ name
  | .valueMissing option => "Option ".toList ++ Text.quoted option ++ " requires an argument.".toList
  | .valueRefused option => "Option ".toList ++ Text.quoted option ++ " does not take a value.".toList
  | .unknownKind value =>
    "Invalid value for '--kind': ".toList ++ Text.quoted value ++ " is not one of ".toList ++
      List.intercalate [',', ' '] (Kind.all.map fun kind => Text.quoted kind.label) ++ ['.']
  | .missingFile => "Missing argument 'CSSFILE'.".toList
  | .noSuchFile path =>
    "Invalid value for 'CSSFILE': Path ".toList ++ Text.quoted path ++ " does not exist.".toList
  | .extraArguments arguments =>
    "Got unexpected extra argument".toList ++ (if arguments.length = 1 then [] else ['s']) ++ " (".toList ++
      List.intercalate [' '] arguments ++ [')']

/-- Whether the topic's usage is shown with the message: always, unless only an option's value is at fault. -/
def showsUsage : UsageError → Bool
  | .valueMissing _ => false
  | .valueRefused _ => false
  | _ => true

def report (topic : Topic) (e : UsageError) : Text :=
  let usage :=
    if e.showsUsage then
      Text.line topic.usage ++ Text.line ("Try '".toList ++ topic.path ++ " --help' for help.".toList) ++ ['\n']
    else []
  usage ++ Text.line ("Error: ".toList ++ e.message)

end UsageError

end Stylesheet.CommandLine
