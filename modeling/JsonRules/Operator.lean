/-!
The recognised operators and their written names.
-/
namespace JsonRules

inductive Operator where
  | var
  | missing
  | missingSome
  | map
  | equal
  | notEqual
  | greater
  | greaterOrEqual
  | less
  | lessOrEqual
  | not
  | truth
  | modulo
  | and
  | or
  | ternary
  | choose
  | log
  | member
  | cat
  | add
  | multiply
  | subtract
  | divide
  | min
  | max
  | merge
  | count
deriving DecidableEq

namespace Operator

def all : List Operator :=
  [.var, .missing, .missingSome, .map, .equal, .notEqual, .greater, .greaterOrEqual, .less,
    .lessOrEqual, .not, .truth, .modulo, .and, .or, .ternary, .choose, .log, .member, .cat, .add,
    .multiply, .subtract, .divide, .min, .max, .merge, .count]

def name : Operator → String
  | .var => "var"
  | .missing => "missing"
  | .missingSome => "missing_some"
  | .map => "map"
  | .equal => "=="
  | .notEqual => "!="
  | .greater => ">"
  | .greaterOrEqual => ">="
  | .less => "<"
  | .lessOrEqual => "<="
  | .not => "!"
  | .truth => "!!"
  | .modulo => "%"
  | .and => "and"
  | .or => "or"
  | .ternary => "?:"
  | .choose => "if"
  | .log => "log"
  | .member => "in"
  | .cat => "cat"
  | .add => "+"
  | .multiply => "*"
  | .subtract => "-"
  | .divide => "/"
  | .min => "min"
  | .max => "max"
  | .merge => "merge"
  | .count => "count"

def named? (name : String) : Option Operator := all.find? fun op => op.name == name

/-- Operators that open a node of their own in an explanation. -/
def isComposite : Operator → Bool
  | .and | .or | .choose | .ternary | .not | .truth => true
  | _ => false

/-- Operators that read the data, and so are no functions of their operands' values. -/
def readsData : Operator → Bool
  | .var | .missing | .missingSome | .map => true
  | _ => false

theorem named?_name (op : Operator) : named? op.name = some op := by cases op <;> decide

theorem name_of_named? {name : String} {op : Operator} (h : named? name = some op) :
    op.name = name := by
  have hfound := List.find?_some (show all.find? (fun op => op.name == name) = some op from h)
  exact beq_iff_eq.mp hfound

theorem name_mem_of_readsData {op : Operator} (h : op.readsData = true) :
    op.name ∈ ["var", "map", "missing", "missing_some"] := by
  cases op <;> first | decide | contradiction

end Operator
end JsonRules
