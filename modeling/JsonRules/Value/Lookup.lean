import JsonRules.Value.Display
import JsonRules.Value.Number

/-!
Finding a variable in the data. A name is a path of segments with points between them: a key of an
object or an index of an array each. A name that is no text is a path by the form it is shown in.
-/
namespace JsonRules.Value

def segments : List Char → List (List Char)
  | [] => [[]]
  | c :: cs => if c = '.' then [] :: segments cs else (segments cs).modifyHead (c :: ·)

/-- Digits, perhaps behind a plus sign, that write a number of 64 bits. -/
def index? (segment : List Char) : Option Nat :=
  let digits :=
    match segment with
    | '+' :: rest => rest
    | _ => segment
  let n := Text.digitsValue digits
  if !digits.isEmpty && digits.all Char.isDigit && n < UInt64.size then some n else none

def step? (v : Value) (segment : List Char) : Option Value :=
  match v with
  | .object fields => fields.lookup (String.ofList segment)
  | .array items => (index? segment).bind fun i => items[i]?
  | _ => none

def clamped (i : Int) : Int := max Int64.minValue.toInt (min Int64.maxValue.toInt i)

/-- The path that a name stands for. A whole number is written without a fraction. -/
def path : Value → String
  | .null => ""
  | .string s => s
  | .float (.finite x) =>
    match x.integer? with
    | some i => String.ofList (Text.integer (clamped i))
    | none => (Value.float (.finite x)).display
  | name => name.display

/-- The part of the data that a name addresses; the empty path addresses all of it. -/
def lookup? (data name : Value) : Option Value :=
  let path := name.path
  if path.isEmpty then some data else (segments path.toList).foldlM step? data

def variableValue (data name : Value) (default : Option Value) : Value :=
  match data.lookup? name with
  | some v => if v.isNull then default.getD .null else v
  | none => default.getD .null

def isMissing (data name : Value) : Bool := (data.lookup? name).all isNull

def missing (data : Value) (names : List Value) : List Value := names.filter data.isMissing

/-- The missing names, unless the number of those present reaches the threshold. -/
def missingSome (data threshold : Value) (names : List Value) : List Value :=
  let least := threshold.toNumber
  let present := names.countP fun name => !data.isMissing name
  if least.lt 1 || least.le (Binary64.ofInt present) then [] else data.missing names

end JsonRules.Value
