import JsonRules.CommandLine.Invocation
import JsonRules.Evaluation
import JsonRules.Introspection
import JsonRules.Json.Printer
import JsonRules.Trace.Explanation
import JsonRules.Validation
import JsonRules.Value.Json

/-!
The program over the libraries that it is built on. Arguments, JSON texts and settings files are read
by them, and what they find wrong with a text is the end of the message about it; the program is the same
whatever they are. A run is a function of its arguments and of the files, and what it prints and its exit
status are its outcome.
-/
namespace JsonRules.CommandLine

/-- What the program takes from its libraries. -/
structure Libraries where
  /-- The invocation that arguments ask for, or the outcome of a call that asks for no run. -/
  arguments : List String → Except Outcome Invocation
  /-- The document in a text, or what is wrong with the text. An integer beyond 64 bits with a sign is the
  binary number that stands for it. -/
  json : String → Except String Json
  /-- The settings that a text states, or what is wrong with the text. -/
  settings : String → Except String Config
  /-- The diagnostics of a verbose run, from what the same run writes to them without the debug log. -/
  debugLog : Files → Invocation → String → String

inductive Failure where
  | unreadable (path reason : String)
  | notJson (path reason : String)
  | badConfig (path reason : String)
  | evaluation (e : EvalError)
deriving DecidableEq

def Failure.message : Failure → String
  | .unreadable path reason => "error reading file '" ++ path ++ "': " ++ reason
  | .notJson path reason => "error: invalid JSON in " ++ path ++ ": " ++ reason
  | .badConfig path reason => "error: invalid config in " ++ path ++ ": " ++ reason
  | .evaluation e => "error: " ++ e.message

def errorLine (message : String) (output : OutputFormat) (quiet : Bool) : String :=
  if quiet then
    ""
  else
    match output with
    | .text => message ++ "\n"
    | .json => (Json.object [("error", .string message)]).compact ++ "\n"

def logText (lines : List String) : String := String.join (lines.map (· ++ "\n"))

def evaluationText (s : Settings) (e : Evaluation) : String :=
  match s.output with
  | .text =>
    let explanation := if s.explain && !e.trace.isEmpty then "\n" ++ e.trace.report ++ "\n" else ""
    e.result.display ++ "\n" ++ explanation
  | .json =>
    let explanation := if s.explain then [("trace", e.trace.toJson)] else []
    (Json.object (("result", e.result.toJson) :: explanation)).pretty ++ "\n"

def valuesText (output : OutputFormat) (vs : List Value) : String :=
  match output with
  | .text => String.join (vs.map fun v => v.display ++ "\n")
  | .json => (Value.array vs).toJson.pretty ++ "\n"

def failed (s : Settings) (f : Failure) (log : List String) : Outcome :=
  ⟨1, "", logText log ++ errorLine f.message s.output s.quiet⟩

def answered (s : Settings) (text : String) (log : List String) : Outcome :=
  ⟨0, if s.quiet then "" else text, logText log⟩

namespace Libraries

variable (lib : Libraries) (files : Files)

def loadConfig : Option String → Except Failure Config
  | none => return .empty
  | some path => do
    let text ← (files path).mapError (.unreadable path)
    (lib.settings text).mapError (.badConfig path)

def loadJson (path : String) : Except Failure Value := do
  let text ← (files path).mapError (.unreadable path)
  let document ← (lib.json text).mapError (.notJson path)
  return .ofJson document

def loadData : Option String → Except Failure Value
  | none => return .object []
  | some path => lib.loadJson files path

/-- Rule and data of an evaluation. Dates are read in the data only. -/
def loadPair (rule : String) (data : Option String) (parseDates : Bool) :
    Except Failure (Value × Value) := do
  let rule ← lib.loadJson files rule
  let data ← lib.loadData files data
  return (rule, if parseDates then data.withDates else data)

def runEval (s : Settings) (rule : String) (data : Option String) : Outcome :=
  match lib.loadPair files rule data s.parseDates with
  | .error f => failed s f []
  | .ok (rule, data) =>
    match evaluate rule data with
    | (.error e, log) => failed s (.evaluation e) log
    | (.ok e, log) => answered s (evaluationText s e) log

/-- An invalid rule is no error of the run, but the exit status tells. -/
def runValidate (s : Settings) (rule : String) : Outcome :=
  match lib.loadJson files rule with
  | .error f => failed s f []
  | .ok v =>
    let verdict := (Json.object [("valid", .bool v.isValid)]).compact ++ "\n"
    match v.isValid, s.output with
    | true, .text => answered s "valid\n" []
    | true, .json => answered s verdict []
    | false, .text => ⟨1, "", errorLine ("error: " ++ rule ++ " is not a valid rule") .text s.quiet⟩
    | false, .json => ⟨1, if s.quiet then "" else verdict, ""⟩

/-- A name on the command line is JSON if it can be read as such, else a text. -/
def variableName (s : String) : Value :=
  match lib.json s with
  | .ok document => .ofJson document
  | .error _ => .string s

def runList (s : Settings) (rule : String) (list : Value → List Value) : Outcome :=
  match lib.loadJson files rule with
  | .error f => failed s f []
  | .ok v => answered s (valuesText s.output (list v)) []

def runCommand (s : Settings) : Command → Outcome
  | .eval rule data _ => lib.runEval files s rule data
  | .validate rule => lib.runValidate files s rule
  | .vars rule => lib.runList files s rule Value.variableNames
  | .values rule name => lib.runList files s rule (·.comparedWith (lib.variableName name))

/-- A run without the debug log. -/
def perform (i : Invocation) : Outcome :=
  match lib.loadConfig files i.flags.config with
  | .error f => ⟨1, "", errorLine f.message (i.flags.output.getD .text) i.flags.quiet⟩
  | .ok config =>
    let s := Settings.resolve config i.flags.output i.flags.quiet i.command.explain i.flags.parseDates
    lib.runCommand files s i.command

def run (args : List String) : Outcome :=
  match lib.arguments args with
  | .error outcome => outcome
  | .ok i =>
    let outcome := lib.perform files i
    if i.flags.verbose then
      { outcome with stderr := lib.debugLog files i outcome.stderr }
    else
      outcome

end Libraries

end JsonRules.CommandLine
