import JsonRules.Value

/-!
What a rule says about its variables, without evaluating it: which names it reads and which values
it holds them against.
-/
namespace JsonRules.Value

mutual

/-- Every value under a key `var`, in the order of writing and with repetitions. -/
def variableNames : Value → List Value
  | .array items => namesInItems items
  | .object fields => namesInFields fields
  | _ => []

def namesInItems : List Value → List Value
  | [] => []
  | item :: rest => item.variableNames ++ namesInItems rest

def namesInFields : List (String × Value) → List Value
  | [] => []
  | (key, value) :: rest =>
    (if key = "var" then [value] else value.variableNames) ++ namesInFields rest

end

/-- An object that refers to the variable of this name. -/
def refersTo (v name : Value) : Bool := (v.field? "var").any (· == name)

mutual

/-- The second operand, null if there is none, of each operand list that starts with a reference to
the variable. Such a list is not searched further. -/
def comparedWith (v name : Value) : List Value :=
  match v with
  | .array items =>
    if items.head?.any (·.refersTo name) then
      [items.getD 1 .null]
    else
      comparedInItems items name
  | .object fields => comparedInFields fields name
  | _ => []

def comparedInItems (items : List Value) (name : Value) : List Value :=
  match items with
  | [] => []
  | item :: rest => item.comparedWith name ++ comparedInItems rest name

def comparedInFields (fields : List (String × Value)) (name : Value) : List Value :=
  match fields with
  | [] => []
  | (_, value) :: rest => value.comparedWith name ++ comparedInFields rest name

end

end JsonRules.Value
