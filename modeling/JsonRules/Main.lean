import JsonRules.CommandLine.Run

/-!
The program: reads the files that the arguments name and does the run they ask for.
-/
namespace JsonRules.CommandLine

def readText (path : String) : IO (Except String String) := do
  try
    return .ok (← IO.FS.readFile path)
  catch e =>
    return .error e.toString

def readTexts (paths : List String) : IO (List (String × Except String String)) :=
  paths.mapM fun path => return (path, ← readText path)

end JsonRules.CommandLine

open JsonRules.CommandLine

def main (args : List String) : IO UInt32 := do
  let paths :=
    match parse args with
    | .ok invocation => invocation.paths
    | .error _ => []
  let texts ← readTexts paths
  let outcome := standard.run (fun path => (texts.lookup path).getD (.error "not read")) args
  let out ← IO.getStdout
  let err ← IO.getStderr
  err.putStr outcome.stderr
  out.putStr outcome.stdout
  return outcome.code
