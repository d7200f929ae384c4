import JsonRules.Text.Blank
import JsonRules.Text.Bytes
import JsonRules.Text.Numeral
import JsonRules.Text.Scan
import JsonRules.Value

/-!
The number a value counts as in arithmetic. A text counts as the number it starts with.
-/
namespace JsonRules.Value

/-- The number at the front of a text, behind blanks; 0 if there is none. The text is cut at the byte where
the scan ends, and what is before it is read. -/
def leadingNumber (s : String) : Binary64 :=
  let text := String.ofList (s.toList.dropWhile Text.isBlank)
  match Text.numberEnd? (Text.bytes text) with
  | none => 0
  | some stop => ((Text.upTo? text stop).bind Text.number?).getD 0

def toNumber : Value → Binary64
  | .null => 0
  | .bool b => if b then 1 else 0
  | .int n => ofInt64 n
  | .float x => x
  | .string s => leadingNumber s
  | .array _ | .object _ | .date _ => .nan

end JsonRules.Value
