import JsonRules.Json.Printer
import JsonRules.Json.Reader
import JsonRules.Value

/-!
Values and JSON. A document read as a value keeps its shape; a value written as a document loses what
JSON cannot say: a date becomes its text, and NaN and the infinities become null. `compact` writes
the text of a value directly.
-/
namespace JsonRules.Value

mutual

def toJson : Value → Json
  | .null => .null
  | .bool b => .bool b
  | .int n => .integer n
  | .float (.finite x) => .number x
  | .float _ => .null
  | .string s => .string s
  | .array items => .array (itemsToJson items)
  | .object fields => .object (fieldsToJson fields)
  | .date d => .string d.text

def itemsToJson : List Value → List Json
  | [] => []
  | item :: rest => item.toJson :: itemsToJson rest

def fieldsToJson : List (String × Value) → List (String × Json)
  | [] => []
  | (key, value) :: rest => (key, value.toJson) :: fieldsToJson rest

end

mutual

def ofJson : Json → Value
  | .null => .null
  | .bool b => .bool b
  | .integer n => .int n
  | .number x => .float (.finite x)
  | .string s => .string s
  | .array items => .array (itemsOfJson items)
  | .object fields => .object (fieldsOfJson fields)

def itemsOfJson : List Json → List Value
  | [] => []
  | item :: rest => ofJson item :: itemsOfJson rest

def fieldsOfJson : List (String × Json) → List (String × Value)
  | [] => []
  | (key, value) :: rest => (key, ofJson value) :: fieldsOfJson rest

end

def parse? (text : String) : Option Value := (Json.parse? text).map ofJson

mutual

/-- Compact JSON text of a value, written without building the document. -/
def compact : Value → String
  | .null => "null"
  | .bool b => Json.boolText b
  | .int n => Json.integerText n
  | .float (.finite x) => Json.numberText x
  | .float _ => "null"
  | .string s => Json.quoted s
  | .array items => Json.bracketed (compactItems items)
  | .object fields => Json.braced (compactFields fields)
  | .date d => Json.quoted d.text

def compactItems : List Value → List String
  | [] => []
  | item :: rest => item.compact :: compactItems rest

def compactFields : List (String × Value) → List String
  | [] => []
  | (key, value) :: rest => (Json.quoted key ++ ":" ++ value.compact) :: compactFields rest

end

end JsonRules.Value
