import JsonRules.CommandLine.Help
import JsonRules.CommandLine.Program
import JsonRules.Settings.Reader

/-!
The program with the readers of this project.
-/
namespace JsonRules.CommandLine

/-- The readers of this project. They tell that a text is wrong but not where, and there is no debug
log. -/
def standard : Libraries where
  arguments args := (parse args).mapError Stop.outcome
  json text := (Json.parse? text).elim (.error "not a JSON text") .ok
  settings text := (Config.parse? text).elim (.error "not a settings file") .ok
  debugLog _ _ stderr := stderr

def run (files : String → Option String) (args : List String) : Outcome :=
  standard.run (fun path => (files path).elim (.error "No such file or directory") .ok) args

end JsonRules.CommandLine
