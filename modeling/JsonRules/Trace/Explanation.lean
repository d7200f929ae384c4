import JsonRules.Trace
import JsonRules.Value.Display

/-!
Explanations: a trace as the tree that its handles describe, with its report and its JSON form. A
child has a greater handle than its parent, which is why unfolding a trace ends.
-/
namespace JsonRules

/-- A node of an explanation with the reasons for its result, or a single data point. -/
inductive Reason where
  | point (p : DataPoint)
  | node (operator : Operator) (result : Value) (depth : Nat) (reasons : List Reason)

namespace Trace

def reasonAt (t : Trace) (handle : Nat) (h : handle < t.nodes.size) : Reason :=
  let n := t.nodes[handle]
  .node n.operator n.result n.depth <| n.entries.toList.filterMap fun
    | .point p => some (.point p)
    | .node child =>
      if hc : handle < child ∧ child < t.nodes.size then some (t.reasonAt child hc.2) else none
termination_by t.nodes.size - handle

def explanation? (t : Trace) : Option Reason :=
  if h : 0 < t.nodes.size then some (t.reasonAt 0 h) else none

def handlesFrom (t : Trace) (handle : Nat) (h : handle < t.nodes.size) : List Nat :=
  handle :: t.nodes[handle].children.flatMap fun child =>
    if hc : handle < child ∧ child < t.nodes.size then t.handlesFrom child hc.2 else []
termination_by t.nodes.size - handle

def handles (t : Trace) : List Nat :=
  if h : 0 < t.nodes.size then t.handlesFrom 0 h else []

end Trace

namespace DataPoint

/-- What the tested value was held against: the bounds of a range check, else the last operand. -/
def counterpart (p : DataPoint) : Value :=
  match p.expected with
  | .array [low, _, high] => .array [low, high]
  | .array items => items.getLast?.getD .null
  | lone => lone

def line (p : DataPoint) : String :=
  let name := (p.tested.map Value.display).getD ""
  let current := if p.current.isNull then "None" else p.current.display
  "DATA: '" ++ name ++ "' data:" ++ current ++ " " ++ p.operator.name ++ " expected:" ++
    p.counterpart.display ++ ",  RESULT = " ++ p.result.display

def toJson (p : DataPoint) : Json :=
  .object [
    ("variable", (p.tested.map Value.toJson).getD .null),
    ("operator", .string p.operator.name),
    ("expected", p.expected.toJson),
    ("current", p.current.toJson),
    ("result", p.result.toJson)]

end DataPoint

namespace Reason

def indentation (depth : Nat) : String :=
  String.ofList (List.replicate (depth + 1) '\t' ++ [' '])

mutual

/-- One line for each node and data point, as far as no value shown has line breaks. -/
def report : Reason → String
  | .point p => p.line
  | .node op result depth reasons =>
    "LOGIC: '" ++ op.name ++ "', RESULT = " ++ result.display ++ reportEntries depth reasons

def reportEntries (depth : Nat) : List Reason → String
  | [] => ""
  | entry :: rest => "\n" ++ indentation depth ++ entry.report ++ reportEntries depth rest

end

mutual

def toJson : Reason → Json
  | .point p => p.toJson
  | .node op result depth reasons =>
    .object [
      ("operator", .string op.name),
      ("result", result.toJson),
      ("depth", .integer (Int64.ofNat depth)),
      ("reasons", .array (entriesToJson reasons))]

def entriesToJson : List Reason → List Json
  | [] => []
  | entry :: rest => entry.toJson :: entriesToJson rest

end

end Reason

namespace Trace

def report (t : Trace) : String := (t.explanation?.map Reason.report).getD ""

def toJson (t : Trace) : Json := (t.explanation?.map Reason.toJson).getD .null

end Trace
end JsonRules
