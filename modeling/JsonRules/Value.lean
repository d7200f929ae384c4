import JsonRules.Date

/-!
Values: what rules are written in, what data consists of and what a rule evaluates to. Beside the
kinds of JSON there are dates, and a number is a 64-bit integer or any binary number, NaN and the
infinities included.
-/
namespace JsonRules

inductive Value where
  | null
  | bool (b : Bool)
  | int (n : Int64)
  | float (x : Binary64)
  | string (s : String)
  | array (items : List Value)
  | object (fields : List (String × Value))
  | date (d : Date)

namespace Value

def isNull : Value → Bool
  | .null => true
  | _ => false

def field? (key : String) : Value → Option Value
  | .object fields => fields.lookup key
  | _ => none

/-- The value as a list of operands: an array lists them and anything else is the only one. -/
def operands : Value → List Value
  | .array items => items
  | lone => [lone]

def ofInt64 (n : Int64) : Binary64 := Binary64.ofInt n.toInt

mutual

/-- Replaces every value that is no array and no object, at any depth. Keys stay. -/
def mapLeaves (f : Value → Value) : Value → Value
  | .array items => .array (mapItems f items)
  | .object fields => .object (mapFields f fields)
  | .null => f .null
  | .bool b => f (.bool b)
  | .int n => f (.int n)
  | .float x => f (.float x)
  | .string s => f (.string s)
  | .date d => f (.date d)

def mapItems (f : Value → Value) : List Value → List Value
  | [] => []
  | item :: rest => item.mapLeaves f :: mapItems f rest

def mapFields (f : Value → Value) : List (String × Value) → List (String × Value)
  | [] => []
  | (key, value) :: rest => (key, value.mapLeaves f) :: mapFields f rest

end

def dateOfText : Value → Value
  | .string s =>
    match Date.parse? s with
    | some d => .date d
    | none => .string s
  | v => v

def withDates (v : Value) : Value := v.mapLeaves dateOfText

mutual

/-- Equality of values. Integers and binary numbers compare on the number line, an array item by
item, an object without regard to the order of its keys; values of other different kinds are never
equal. -/
def equal : Value → Value → Bool
  | .null, .null => true
  | .bool a, .bool b => a == b
  | .int a, .int b => a == b
  | .float a, .float b => a == b
  | .int a, .float b => ofInt64 a == b
  | .float a, .int b => a == ofInt64 b
  | .string a, .string b => a == b
  | .array a, .array b => equalItems a b
  | .object a, .object b => a.length == b.length && equalFields a b
  | .date a, .date b => a == b
  | _, _ => false

def equalItems : List Value → List Value → Bool
  | [], [] => true
  | a :: as, b :: bs => a.equal b && equalItems as bs
  | _, _ => false

/-- Every field of the first object has an equal one in the second. -/
def equalFields : List (String × Value) → List (String × Value) → Bool
  | [], _ => true
  | (key, a) :: rest, fields =>
    match fields.lookup key with
    | some b => a.equal b && equalFields rest fields
    | none => false

end

instance : BEq Value := ⟨equal⟩

end Value
end JsonRules
