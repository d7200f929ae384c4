import JsonRules.Binary64.DecimalText
import JsonRules.Json
import JsonRules.Text.Numeral

/-!
JSON text, compact and indented. Numbers with a fraction part are written in the fewest digits that
read back; a number from 10^-5 up to 10^16 is positional and any other has an exponent.
-/
namespace JsonRules.Json

def hexDigit (n : Nat) : Char := Nat.digitChar n

def escaped (c : Char) : List Char :=
  match c with
  | '"' => ['\\', '"']
  | '\\' => ['\\', '\\']
  | '\x08' => ['\\', 'b']
  | '\x0c' => ['\\', 'f']
  | '\n' => ['\\', 'n']
  | '\r' => ['\\', 'r']
  | '\t' => ['\\', 't']
  | c =>
    if c.toNat < 0x20 then
      ['\\', 'u', '0', '0', hexDigit (c.toNat / 16), hexDigit (c.toNat % 16)]
    else
      [c]

def quoted (s : String) : String :=
  String.ofList ('"' :: s.toList.flatMap escaped ++ ['"'])

def integerText (n : Int64) : String := String.ofList (Text.integer n.toInt)

def magnitudeText (x : Binary64.Finite) : List Char :=
  if x.units = 0 then
    ['0', '.', '0']
  else
    let d := x.shortest .even
    if d.point < -4 ∨ 16 < d.point then d.scientific
    else if d.isWhole then d.positional ++ ['.', '0']
    else d.positional

def numberText (x : Binary64.Finite) : String :=
  String.ofList (if x.negative then '-' :: magnitudeText x else magnitudeText x)

def boolText (b : Bool) : String := if b then "true" else "false"

def bracketed (parts : List String) : String := "[" ++ ",".intercalate parts ++ "]"

def braced (parts : List String) : String := "\x7b" ++ ",".intercalate parts ++ "\x7d"

mutual

def compact : Json → String
  | .null => "null"
  | .bool b => boolText b
  | .integer n => integerText n
  | .number x => numberText x
  | .string s => quoted s
  | .array items => bracketed (compactItems items)
  | .object fields => braced (compactFields fields)

def compactItems : List Json → List String
  | [] => []
  | item :: rest => item.compact :: compactItems rest

def compactFields : List (String × Json) → List String
  | [] => []
  | (key, value) :: rest => (quoted key ++ ":" ++ value.compact) :: compactFields rest

end

def newline (level : Nat) : String :=
  String.ofList ('\n' :: List.replicate (2 * level) ' ')

def block (level : Nat) (opening closing : String) (parts : List String) : String :=
  if parts.isEmpty then
    opening ++ closing
  else
    opening ++ newline (level + 1) ++ ("," ++ newline (level + 1)).intercalate parts ++
      newline level ++ closing

mutual

def prettyAt (level : Nat) : Json → String
  | .array items => block level "[" "]" (prettyItems (level + 1) items)
  | .object fields => block level "\x7b" "\x7d" (prettyFields (level + 1) fields)
  | .null => "null"
  | .bool b => boolText b
  | .integer n => integerText n
  | .number x => numberText x
  | .string s => quoted s

def prettyItems (level : Nat) : List Json → List String
  | [] => []
  | item :: rest => prettyAt level item :: prettyItems level rest

def prettyFields (level : Nat) : List (String × Json) → List String
  | [] => []
  | (key, value) :: rest =>
    (quoted key ++ ": " ++ prettyAt level value) :: prettyFields level rest

end

def pretty (j : Json) : String := prettyAt 0 j

end JsonRules.Json
