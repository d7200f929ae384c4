import JsonRules.Operator
import JsonRules.Value

/-!
The shape of a rule. In a valid rule every key of an object names an operator, at every depth; a
reference to a variable that stands in an array may have other keys as well.
-/
namespace JsonRules.Value

/-- An object that refers to a variable by a name which is a text, a number or null. -/
def isReference (v : Value) : Bool :=
  match v.field? "var" with
  | some (.string _) | some (.int _) | some (.float _) | some .null => true
  | _ => false

mutual

def isValid : Value → Bool
  | .object fields => areValidFields fields
  | .array items => areValidItems items
  | _ => true

def areValidItems : List Value → Bool
  | [] => true
  | item :: rest => (item.isValid || item.isReference) && areValidItems rest

def areValidFields : List (String × Value) → Bool
  | [] => true
  | (key, value) :: rest => (Operator.named? key).isSome && value.isValid && areValidFields rest

end

end JsonRules.Value
