import JsonRules.Binary64

/-!
JSON documents. A number is an integer of 64 bits or a finite binary number, so every document has
a text.
-/
namespace JsonRules

inductive Json where
  | null
  | bool (b : Bool)
  | integer (n : Int64)
  | number (x : Binary64.Finite)
  | string (s : String)
  | array (items : List Json)
  | object (fields : List (String × Json))

namespace Json

/-- Sets a field. A key that is present keeps its place. -/
def put (key : String) (value : Json) : List (String × Json) → List (String × Json)
  | [] => [(key, value)]
  | (k, v) :: rest => if k = key then (k, value) :: rest else (k, v) :: put key value rest

end Json
end JsonRules
