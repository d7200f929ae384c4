import JsonRules.Value.Json

/-!
The form in which values are shown to people: in concatenated text, in the log and in reports. Texts
stand without quotes, containers as compact JSON, and a whole number below 10^16 that is no integer
keeps a `.0`.
-/
namespace JsonRules.Value

/-- A number from 10^16 on, or with a fraction, is shown in the fewest digits that read back, in
positional form. -/
def shownMagnitude (x : Binary64.Finite) : List Char :=
  if x.units % Binary64.one = 0 ∧ x.units < Nat.pow 10 16 * Binary64.one then
    Text.decimalDigits (x.units / Binary64.one) ++ ['.', '0']
  else
    (x.shortest .up).positional

def shownNumber : Binary64 → List Char
  | .nan => "NaN".toList
  | .infinity negative => if negative then "-Infinity".toList else "Infinity".toList
  | .finite x => if x.negative then '-' :: shownMagnitude x else shownMagnitude x

def display : Value → String
  | .null => "null"
  | .bool b => Json.boolText b
  | .int n => Json.integerText n
  | .float x => String.ofList (shownNumber x)
  | .string s => s
  | .array items => (Value.array items).compact
  | .object fields => (Value.object fields).compact
  | .date d => d.text

end JsonRules.Value
