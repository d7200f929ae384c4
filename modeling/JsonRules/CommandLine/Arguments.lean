import JsonRules.CommandLine.Invocation

/-!
Reading arguments. Options stand before or behind the name of the sub-command; each may be given once on
either side, and of two values the one behind counts. The arguments are read from left to right up to the
first that is wrong or asks for help or the version.
-/
namespace JsonRules.CommandLine

def Flags.empty : Flags := ⟨none, false, none, false, false⟩

def Flags.merge (before behind : Flags) : Flags :=
  { output := behind.output.or before.output
    quiet := before.quiet || behind.quiet
    config := behind.config.or before.config
    parseDates := before.parseDates || behind.parseDates
    verbose := before.verbose || behind.verbose }

/-- Why arguments ask for no run. Help is about a sub-command or the whole. -/
inductive Stop where
  | usage
  | help (command : Option String)
  | version
deriving DecidableEq

def Stop.behind (name : String) : Stop → Stop
  | .help none => .help (some name)
  | stop => stop

inductive Token where
  | escape
  | long (name : String) (value : Option String)
  | short (letters : List Char)
  | word (s : String)

def Token.ofArgument (s : String) : Token :=
  match s.toList with
  | ['-', '-'] => .escape
  | '-' :: '-' :: cs =>
    let name := String.ofList (cs.takeWhile (· != '='))
    match cs.dropWhile (· != '=') with
    | [] => .long name none
    | _ :: value => .long name (some (String.ofList value))
  | '-' :: c :: cs => .short (c :: cs)
  | _ => .word s

inductive Valued where
  | output
  | config
  | data
deriving DecidableEq

inductive Switch where
  | quiet
  | parseDates
  | verbose
  | explain
  | help
  | version
deriving DecidableEq

inductive Side where
  | before
  | behind (isEval : Bool)
deriving DecidableEq

def Side.isEval : Side → Bool
  | .before => false
  | .behind isEval => isEval

def Side.valued? (side : Side) : String → Option Valued
  | "output" => some .output
  | "config" => some .config
  | "data" => if side.isEval then some .data else none
  | _ => none

def Side.switch? (side : Side) : String → Option Switch
  | "quiet" => some .quiet
  | "parse-dates" => some .parseDates
  | "verbose" => some .verbose
  | "explain" => if side.isEval then some .explain else none
  | "help" => some .help
  | "version" => if side = .before then some .version else none
  | _ => none

def Side.letter? (side : Side) : Char → Option Switch
  | 'v' => some .verbose
  | 'h' => some .help
  | 'V' => if side = .before then some .version else none
  | _ => none

/-- What has been read on one side. `awaiting` is an option whose value has to come next. -/
structure Reading where
  flags : Flags
  data : Option String
  explain : Bool
  words : List String
  awaiting : Option Valued
  onlyWords : Bool

namespace Reading

def empty : Reading := ⟨.empty, none, false, [], none, false⟩

/-- A text that names a file, so it cannot be empty. -/
def fileName (s : String) : Except Stop String := if s.isEmpty then throw .usage else return s

def once {α : Type} (old : Option α) (new : α) : Except Stop (Option α) :=
  if old.isSome then throw .usage else return some new

def on (old : Bool) : Except Stop Bool := if old then throw .usage else return true

def value (r : Reading) (option : Valued) (s : String) : Except Stop Reading := do
  let r := { r with awaiting := none }
  match option with
  | .output =>
    match OutputFormat.named? s with
    | some format => return { r with flags.output := ← once r.flags.output format }
    | none => throw .usage
  | .config => return { r with flags.config := ← once r.flags.config (← fileName s) }
  | .data => return { r with data := ← once r.data (← fileName s) }

def switch (r : Reading) : Switch → Except Stop Reading
  | .quiet => return { r with flags.quiet := ← on r.flags.quiet }
  | .parseDates => return { r with flags.parseDates := ← on r.flags.parseDates }
  | .verbose => return { r with flags.verbose := ← on r.flags.verbose }
  | .explain => return { r with explain := ← on r.explain }
  | .help => throw (.help none)
  | .version => throw .version

def option (side : Side) (r : Reading) : Token → Except Stop Reading
  | .long name none =>
    match side.valued? name, side.switch? name with
    | some option, _ => return { r with awaiting := some option }
    | none, some s => r.switch s
    | none, none => throw .usage
  | .long name (some value) =>
    match side.valued? name with
    | some option => r.value option value
    | none => throw .usage
  | .short letters =>
    letters.foldlM (fun r c =>
      match side.letter? c with
      | some s => r.switch s
      | none => throw .usage) r
  | .escape | .word _ => throw .usage

def word (arity : Nat) (r : Reading) (s : String) : Except Stop Reading := do
  if arity ≤ r.words.length then throw .usage
  let s ← if r.words.isEmpty then fileName s else pure s
  return { r with words := r.words ++ [s] }

def argument (isEval : Bool) (arity : Nat) (r : Reading) (s : String) : Except Stop Reading :=
  if r.onlyWords then
    r.word arity s
  else
    match r.awaiting, Token.ofArgument s with
    | some option, .word value => r.value option value
    | some _, _ => throw .usage
    | none, .escape => return { r with onlyWords := true }
    | none, .word s => r.word arity s
    | none, token => r.option (.behind isEval) token

def behind (isEval : Bool) (arity : Nat) (args : List String) : Except Stop Reading := do
  let r ← args.foldlM (argument isEval arity) .empty
  if r.awaiting.isSome then throw .usage else return r

end Reading

def isCommandName (s : String) : Bool := ["eval", "validate", "vars", "values", "help"].contains s

def command (name : String) (args : List String) : Except Stop (Flags × Command) := do
  match name with
  | "eval" =>
    let r ← Reading.behind true 1 args
    match r.words with
    | [rule] => return (r.flags, .eval rule r.data r.explain)
    | _ => throw .usage
  | "validate" =>
    let r ← Reading.behind false 1 args
    match r.words with
    | [rule] => return (r.flags, .validate rule)
    | _ => throw .usage
  | "vars" =>
    let r ← Reading.behind false 1 args
    match r.words with
    | [rule] => return (r.flags, .vars rule)
    | _ => throw .usage
  | "values" =>
    let r ← Reading.behind false 2 args
    match r.words with
    | [rule, variableName] => return (r.flags, .values rule variableName)
    | _ => throw .usage
  | "help" => throw (if args.length ≤ 1 ∧ args.all isCommandName then .help args.head? else .usage)
  | _ => throw .usage

/-- Reads on from what stood before, up to the name of the sub-command. -/
def parseFrom (r : Reading) : List String → Except Stop Invocation
  | [] => throw .usage
  | s :: rest =>
    match r.awaiting, Token.ofArgument s with
    | some option, .word value => do parseFrom (← r.value option value) rest
    | some _, _ => throw .usage
    | none, .word name => do
      let (behind, command) ← (command name rest).mapError (·.behind name)
      return ⟨r.flags.merge behind, command⟩
    | none, token => do parseFrom (← r.option .before token) rest

def parse (args : List String) : Except Stop Invocation := parseFrom .empty args

end JsonRules.CommandLine
