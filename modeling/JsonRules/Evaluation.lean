import JsonRules.Operator.Table
import JsonRules.Trace
import JsonRules.Value.Lookup

/-!
Evaluation of rules. The first field of an object names an operator and holds its operands; any other
value is a literal. Operands are evaluated from left to right before the operator, all of them, so no
branch of `and`, `or` and `if` is skipped. The state of an evaluation, its trace and its log, is kept
when it fails.
-/
namespace JsonRules

inductive EvalError where
  | unrecognized (operator : String)
deriving DecidableEq

def EvalError.message : EvalError → String
  | .unrecognized operator => "unrecognized operator: " ++ operator

/-- What an evaluation has left behind so far. -/
structure Progress where
  trace : Trace.Builder
  log : Array String

abbrev Eval := ExceptT EvalError (StateM Progress)

namespace Eval

def enter (op : Operator) : Eval Unit :=
  modify fun s => { s with trace := s.trace.enter op }

def writeLog (lines : List String) : Eval Unit :=
  modify fun s => { s with log := s.log ++ lines }

/-- The variable that an operator tests: the one its middle operand refers to in a range check, else
its first operand. -/
def testedVariable? : Value → Option Value
  | .array operands => do
    let reference ← operands[if operands.length = 3 then 1 else 0]?
    let name ←
      match ← reference.field? "var" with
      | .array names => names.head?
      | name => some name
    if name.isNull then none else some name
  | _ => none

def dataPoint (op : Operator) (operand data result : Value) : DataPoint :=
  let tested := testedVariable? operand
  { tested
    operator := op
    expected := operand
    current := (tested.bind data.lookup?).getD .null
    result }

def commit (op : Operator) (operand data result : Value) : Eval Unit :=
  modify fun s =>
    { s with trace :=
        if op.isComposite then s.trace.close result
        else s.trace.record (dataPoint op operand data result) }

def readData (op : Operator) (data : Value) (values : List Value) : Value :=
  match op with
  | .var => data.variableValue (Operator.operand values 0) values[1]?
  | .missing => .array (data.missing values)
  | .missingSome =>
    .array (data.missingSome (Operator.operand values 0) (Operator.operand values 1).operands)
  | _ => .null

def settle (op : Operator) (operand data : Value) (values : List Value) : Eval Value :=
  match op.result? values with
  | some result => do
    writeLog (op.logged values)
    commit op operand data result
    return result
  | none => return readData op data values

/-- The body on every item as data of its own. What is no array has no items. -/
def overItems (items : Value) (body : Value → Eval Value) : Eval Value :=
  match items with
  | .array items => return .array (← items.mapM body)
  | _ => return .array []

mutual

def rule (r : Value) (data : Value) : Eval Value :=
  match r with
  | .object ((name, operand) :: _) =>
    match Operator.named? name with
    | none => throw (.unrecognized name)
    | some op => do
      enter op
      match op, operand with
      | .map, .array operands => mapped operands data
      | .map, lone => overItems (← rule lone data) fun _ => return .null
      | op, .array operands => settle op (.array operands) data (← rules operands data)
      | op, lone => settle op lone data [← rule lone data]
  | literal => return literal

def rules (rs : List Value) (data : Value) : Eval (List Value) :=
  match rs with
  | [] => return []
  | r :: rest => do
    let value ← rule r data
    return value :: (← rules rest data)

def mapped (operands : List Value) (data : Value) : Eval Value :=
  match operands with
  | [] => return .array []
  | [source] => do overItems (← rule source data) fun _ => return .null
  | source :: body :: _ => do overItems (← rule source data) fun item => rule body item

end

end Eval

structure Evaluation where
  result : Value
  trace : Trace

/-- The outcome of a rule on its data, with the lines it wrote to the log. -/
def evaluate (rule data : Value) : Except EvalError Evaluation × List String :=
  let (outcome, s) := (Eval.rule rule data).run ⟨.empty, #[]⟩
  (outcome.map fun result => ⟨result, s.trace.finish⟩, s.log.toList)

def apply (rule data : Value) : Except EvalError Value × List String :=
  let (outcome, log) := evaluate rule data
  (outcome.map Evaluation.result, log)

end JsonRules
