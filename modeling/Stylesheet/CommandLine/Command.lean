/-
  Stylesheet.CommandLine.Command — the commands and what the program says about them.
-/

import Stylesheet.Text.Basic

namespace Stylesheet.CommandLine

inductive Command where
  | parse
  | bundle
  | inspect
  deriving DecidableEq, Repr

namespace Command

def all : List Command := [.parse, .bundle, .inspect]

def name : Command → Text
  | .parse => "parse".toList
  | .bundle => "module".toList
  | .inspect => "inspect".toList

def ofName? (t : Text) : Option Command := all.find? (·.name == t)

def purpose : Command → String
  | .parse => "Tokenize a CSS file and print the segments as JSON."
  | .bundle => "Render a CSS file as a JavaScript module exporting its segments."
  | .inspect => "List the parts found in a CSS file along with any diagnostics."

end Command

/-- What a page of help or a usage error is about: the program, or one of its commands. -/
inductive Topic where
  | program
  | command (c : Command)
  deriving DecidableEq, Repr

namespace Topic

def path : Topic → Text
  | .program => "cssparts".toList
  | .command c => "cssparts ".toList ++ c.name

def usage (topic : Topic) : Text :=
  "Usage: ".toList ++ topic.path ++
    match topic with
    | .program => " [OPTIONS] COMMAND [ARGS]...".toList
    | .command _ => " [OPTIONS] CSSFILE".toList

def description : Topic → String
  | .program => "cssparts - split CSS into literals and selector/variable/property/url parts."
  | .command c => c.purpose

def options : Topic → List String
  | .program =>
    ["  --version      Show the version and exit.",
      "  -v, --verbose  Enable debug logging",
      "  --help         Show this message and exit."]
  | .command .parse =>
    ["  --kind [selector|variable|property|url]",
      "                                  Only run the matcher for this part kind",
      "                                  (repeatable)",
      "  --drop-blank                    Drop whitespace-only literals",
      "  --help                          Show this message and exit."]
  | .command _ => ["  --help  Show this message and exit."]

def commands : Topic → List String
  | .program =>
    ["", "Commands:",
      "  inspect  " ++ Command.inspect.purpose,
      "  module   " ++ Command.bundle.purpose,
      "  parse    " ++ Command.parse.purpose]
  | .command _ => []

def help (topic : Topic) : Text :=
  let lines := ["", "  " ++ topic.description, "", "Options:"] ++ topic.options ++ topic.commands
  Text.line topic.usage ++ lines.flatMap fun l => Text.line l.toList

end Topic

def version : Text := "cssparts, version 0.1.0".toList

end Stylesheet.CommandLine
