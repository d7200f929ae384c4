import JsonRules.CommandLine.Arguments

/-!
What is printed in place of a run: help, the version, or a complaint about the arguments.
-/
namespace JsonRules.CommandLine

def columns (rows : List (String × String)) : List String :=
  let width := (rows.map fun row => row.1.length).foldl max 0
  rows.map fun (term, about) =>
    "  " ++ term ++ String.ofList (List.replicate (width + 2 - term.length) ' ') ++ about

structure Help where
  about : String
  usage : String
  sections : List (String × List (String × String))

def Help.text (h : Help) : String :=
  let sections := h.sections.flatMap fun (title, rows) => "" :: (title ++ ":") :: columns rows
  String.join (([h.about, "", "Usage: " ++ h.usage] ++ sections).map (· ++ "\n"))

def commonOptions : List (String × String) :=
  [("    --output <OUTPUT>",
      "Output format (text or json) [default: text] [possible values: text, json]"),
    ("    --quiet", "Suppress non-essential output"),
    ("    --config <CONFIG>", "Path to a TOML config file"),
    ("    --parse-dates", "Read YYYY-MM-DD strings in data files as dates"),
    ("-v, --verbose", "Enable debug logging on stderr"),
    ("-h, --help", "Print help")]

def ruleArgument : String × String := ("<RULE>", "Path to the rule JSON file")

def commandHelp (usage about : String) (arguments options : List (String × String)) : Help where
  about
  usage := "jsonlogic " ++ usage
  sections := [("Arguments", arguments), ("Options", options ++ commonOptions)]

def commandHelps : List (String × Help) :=
  [("eval", commandHelp "eval [OPTIONS] <RULE>" "Evaluate a rule against a data context" [ruleArgument]
      [("    --data <DATA>", "Path to the data JSON file (defaults to an empty object)"),
        ("    --explain", "Print the explanation trace after the result")]),
    ("validate", commandHelp "validate [OPTIONS] <RULE>"
      "Check that a rule is well formed without evaluating it" [ruleArgument] []),
    ("vars", commandHelp "vars [OPTIONS] <RULE>" "List the variables a rule reads" [ruleArgument] []),
    ("values", commandHelp "values [OPTIONS] <RULE> <NAME>"
      "List the values a rule compares a variable against"
      [ruleArgument, ("<NAME>", "Variable name (parsed as JSON when possible, e.g. `1`)")] [])]

def programHelp : Help where
  about := "JSON Logic rule evaluator"
  usage := "jsonlogic [OPTIONS] <COMMAND>"
  sections :=
    [("Commands", commandHelps.map (fun (name, help) => (name, help.about)) ++
        [("help", "Print this message or the help of the given subcommand(s)")]),
      ("Options", commonOptions ++ [("-V, --version", "Print version")])]

/-- The help for a sub-command, and for the whole program if it has none of this name. -/
def helpFor (name : Option String) : Help := (name.bind (commandHelps.lookup ·)).getD programHelp

def Stop.outcome : Stop → Outcome
  | .version => ⟨0, "jsonlogic 0.1.0\n", ""⟩
  | .help name => ⟨0, (helpFor name).text, ""⟩
  | .usage =>
    ⟨2, "", "error: invalid arguments\n\nUsage: " ++ programHelp.usage ++
      "\n\nFor more information, try '--help'.\n"⟩

end JsonRules.CommandLine
