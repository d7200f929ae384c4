import JsonRules.Operator
import JsonRules.Value

/-!
Traces of evaluations. A trace is an arena of nodes that refer to each other by their place in it,
its handle. A composite operator opens a node, and the first operator of an evaluation opens the
root whatever it is; any other operator leaves a data point on the node that is open at the time.
-/
namespace JsonRules

/-- What an operator found: the variable it tested with its value in the data, the operands as the
rule writes them, and the result. -/
structure DataPoint where
  tested : Option Value
  operator : Operator
  expected : Value
  current : Value
  result : Value
deriving BEq

namespace Trace

inductive Entry where
  | node (handle : Nat)
  | point (p : DataPoint)
deriving BEq

structure Node where
  operator : Operator
  result : Value
  parent : Option Nat
  depth : Nat
  entries : Array Entry
deriving BEq

end Trace

structure Trace where
  nodes : Array Trace.Node
deriving BEq

namespace Trace

def size (t : Trace) : Nat := t.nodes.size

def isEmpty (t : Trace) : Bool := t.nodes.isEmpty

def get? (t : Trace) (handle : Nat) : Option Node := t.nodes[handle]?

def Node.children (n : Node) : List Nat :=
  n.entries.toList.filterMap fun
    | .node handle => some handle
    | .point _ => none

def Node.points (n : Node) : List DataPoint :=
  n.entries.toList.filterMap fun
    | .node _ => none
    | .point p => some p

def Node.addEntry (e : Entry) (n : Node) : Node := { n with entries := n.entries.push e }

structure Builder where
  nodes : Array Node
  cursor : Option Nat

namespace Builder

def empty : Builder := ⟨#[], none⟩

/-- A new node, which becomes the open one. Its result is false until it has one. -/
def openRoot (b : Builder) (op : Operator) : Builder :=
  ⟨b.nodes.push ⟨op, .bool false, none, 0, #[]⟩, some b.nodes.size⟩

def openChild (b : Builder) (op : Operator) (parent : Nat) : Builder :=
  let depth := (b.nodes[parent]?.map Node.depth).getD 0 + 1
  let nodes := b.nodes.push ⟨op, .bool false, some parent, depth, #[]⟩
  ⟨nodes.modify parent (Node.addEntry (.node b.nodes.size)), some b.nodes.size⟩

def enter (b : Builder) (op : Operator) : Builder :=
  match b.cursor with
  | none => b.openRoot op
  | some current => if op.isComposite then b.openChild op current else b

/-- The open node gets its result and its parent is open again. The root stays open. -/
def close (b : Builder) (result : Value) : Builder :=
  match b.cursor with
  | none => b
  | some current =>
    ⟨b.nodes.modify current fun n => { n with result },
      (b.nodes[current]?.bind Node.parent).or (some current)⟩

def record (b : Builder) (p : DataPoint) : Builder :=
  match b.cursor with
  | none => b
  | some current =>
    ⟨b.nodes.modify current fun n => { n.addEntry (.point p) with result := p.result }, b.cursor⟩

def finish (b : Builder) : Trace := ⟨b.nodes⟩

end Builder
end Trace
end JsonRules
