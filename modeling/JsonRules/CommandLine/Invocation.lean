import JsonRules.Settings

/-!
Invocations of the program, and what a run of one comes to.
-/
namespace JsonRules.CommandLine

inductive Command where
  | eval (rule : String) (data : Option String) (explain : Bool)
  | validate (rule : String)
  | vars (rule : String)
  | values (rule name : String)
deriving DecidableEq

namespace Command

def rule : Command → String
  | .eval rule _ _ => rule
  | .validate rule => rule
  | .vars rule => rule
  | .values rule _ => rule

def data? : Command → Option String
  | .eval _ data _ => data
  | _ => none

def explain : Command → Bool
  | .eval _ _ explain => explain
  | _ => false

end Command

structure Flags where
  output : Option OutputFormat
  quiet : Bool
  config : Option String
  parseDates : Bool
  verbose : Bool
deriving DecidableEq

structure Invocation where
  flags : Flags
  command : Command
deriving DecidableEq

/-- The text of each file, or the error of the system that reads it. -/
abbrev Files := String → Except String String

structure Outcome where
  code : UInt32
  stdout : String
  stderr : String
deriving DecidableEq

def Invocation.paths (i : Invocation) : List String :=
  i.flags.config.toList ++ i.command.rule :: i.command.data?.toList

end JsonRules.CommandLine
