/-!
Settings of a run: what the command line asks for, completed by a settings file. A flag goes before
the file for the output format, and either of them can switch on the rest.
-/
namespace JsonRules

inductive OutputFormat where
  | text
  | json
deriving DecidableEq

def OutputFormat.named? : String → Option OutputFormat
  | "text" => some .text
  | "json" => some .json
  | _ => none

structure Config where
  output : Option OutputFormat
  explain : Bool
  parseDates : Bool
deriving DecidableEq

def Config.empty : Config := ⟨none, false, false⟩

structure Settings where
  output : OutputFormat
  quiet : Bool
  explain : Bool
  parseDates : Bool
deriving DecidableEq

def Settings.resolve (config : Config) (output : Option OutputFormat)
    (quiet explain parseDates : Bool) : Settings :=
  { output := (output.or config.output).getD .text
    quiet
    explain := explain || config.explain
    parseDates := parseDates || config.parseDates }

end JsonRules
