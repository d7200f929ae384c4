import JsonRules.Json
import JsonRules.Text.Numeral

/-!
Reading a JSON text. The reader is strict, and a document nests at most 127 arrays and objects. An
integer of 64 bits keeps its kind; any other number is read as its leading digits times a power of ten,
and one that is then too large is refused. Of two fields with one key the later value stands in the
earlier place.
-/
namespace JsonRules.Json

def isBlank (c : Char) : Bool := c == ' ' || c == '\n' || c == '\r' || c == '\t'

def skipBlanks (cs : List Char) : List Char := cs.dropWhile isBlank

/-- A character of a string literal, or a number that an escape gives in hexadecimal digits. -/
inductive Piece where
  | char (c : Char)
  | unit (n : Nat)

def unescaped? : Char → Option Char
  | '"' => some '"'
  | '\\' => some '\\'
  | '/' => some '/'
  | 'b' => some '\x08'
  | 'f' => some '\x0c'
  | 'n' => some '\n'
  | 'r' => some '\r'
  | 't' => some '\t'
  | _ => none

def pieces? : List Char → Option (List Piece × List Char)
  | '"' :: rest => some ([], rest)
  | '\\' :: 'u' :: a :: b :: c :: d :: rest => do
    let n ← Text.hexNumber? [a, b, c, d]
    let (pieces, rest) ← pieces? rest
    return (.unit n :: pieces, rest)
  | '\\' :: c :: rest => do
    let c ← unescaped? c
    let (pieces, rest) ← pieces? rest
    return (.char c :: pieces, rest)
  | c :: rest =>
    if c.toNat < 0x20 then
      none
    else do
      let (pieces, rest) ← pieces? rest
      return (.char c :: pieces, rest)
  | [] => none

def isHighSurrogate (n : Nat) : Bool := 0xD800 ≤ n && n < 0xDC00

def isLowSurrogate (n : Nat) : Bool := 0xDC00 ≤ n && n < 0xE000

/-- The characters of the pieces. Two surrogates make one character and none stands alone. -/
def assemble? : List Piece → Option (List Char)
  | [] => some []
  | .char c :: rest => (assemble? rest).map (c :: ·)
  | .unit high :: .unit low :: rest =>
    if isHighSurrogate high then
      if isLowSurrogate low then
        let n := 0x10000 + (high - 0xD800) * 0x400 + (low - 0xDC00)
        (assemble? rest).map (Char.ofNat n :: ·)
      else
        none
    else if isLowSurrogate high then
      none
    else
      (assemble? (.unit low :: rest)).map (Char.ofNat high :: ·)
  | .unit n :: rest =>
    if isHighSurrogate n || isLowSurrogate n then
      none
    else
      (assemble? rest).map (Char.ofNat n :: ·)

def string? (cs : List Char) : Option (String × List Char) := do
  let (pieces, rest) ← pieces? cs
  let chars ← assemble? pieces
  return (String.ofList chars, rest)

def integerInRange? (i : Int) : Option Int64 :=
  if Int64.minValue.toInt ≤ i ∧ i ≤ Int64.maxValue.toInt then some (Int64.ofInt i) else none

/-- Takes digits behind a number up to the first that 64 bits have no room for. -/
def takeDigits (n : Nat) : List Char → Nat × List Char
  | [] => (n, [])
  | c :: rest =>
    let next := Nat.ofDigitChars 10 [c] n
    if next < 2 ^ 64 then takeDigits next rest else (n, c :: rest)

/-- The leading digits as a number of 64 bits, and its power of ten. A digit that is left out before the
point still counts for the power. -/
def significand (whole fraction : List Char) : Nat × Int :=
  let (n, wholeRest) := takeDigits 0 whole
  let (n, fractionRest) := takeDigits n fraction
  (n, wholeRest.length + fractionRest.length - fraction.length)

def powerOfTen (n : Nat) : Binary64 := Binary64.ofDecimal false ⟨1, n⟩

/-- The quotient by `10^(308 * blocks + rest)`, one rounded power of ten after the other. -/
def divided (x : Binary64) (rest : Nat) : Nat → Binary64
  | 0 => x / powerOfTen rest
  | blocks + 1 => if x.isZero then x else divided (x / powerOfTen 308) rest blocks

/-- The product with a power of ten, rounded at each step. It is not always the nearest number. -/
def scaled (x : Binary64) : Int → Binary64
  | .ofNat n =>
    if n ≤ 308 then x * powerOfTen n else if x.isZero then x else .infinity x.isNegative
  | .negSucc n => divided x (n % 308 + 1) (n / 308)

def binary? (negative : Bool) (n : Nat) (exponent : Int) : Option Json :=
  match scaled (Binary64.ofInt n) exponent with
  | .finite x => some (.number { x with negative })
  | _ => none

/-- The number with these digits. Minus zero is no integer, since only a binary number has it. -/
def numberOf? (negative : Bool) (whole fraction : List Char) (exponent : Option Int) :
    Option Json :=
  let (n, power) := significand whole fraction
  if fraction.isEmpty ∧ exponent.isNone ∧ power = 0 ∧ ¬ (negative ∧ n = 0) then
    match integerInRange? (if negative then -(n : Int) else n) with
    | some i => some (.integer i)
    | none => binary? negative n 0
  else
    binary? negative n (power + exponent.getD 0)

def whole? : List Char → Option (List Char × List Char)
  | '0' :: rest => some (['0'], rest)
  | cs =>
    match Text.spanDigits cs with
    | ([], _) => none
    | found => some found

def optionalFraction? : List Char → Option (List Char × List Char)
  | '.' :: rest => Text.fraction? ('.' :: rest)
  | cs => some ([], cs)

def optionalExponent? (cs : List Char) : Option (Option Int × List Char) :=
  match cs with
  | 'e' :: _ | 'E' :: _ => (Text.exponent? cs).map fun (e, rest) => (some e, rest)
  | _ => some (none, cs)

def unsigned? (negative : Bool) (cs : List Char) : Option (Json × List Char) := do
  let (whole, rest) ← whole? cs
  let (fraction, rest) ← optionalFraction? rest
  let (exponent, rest) ← optionalExponent? rest
  let j ← numberOf? negative whole fraction exponent
  return (j, rest)

def number? : List Char → Option (Json × List Char)
  | '-' :: cs => unsigned? true cs
  | cs => unsigned? false cs

mutual

/-- A value and the text behind it. `depth` is the nesting still allowed; `fuel` never runs out
when it is twice the length of the text, as at most two calls are made for each character. -/
def value? (depth : Nat) : Nat → List Char → Option (Json × List Char)
  | 0, _ => none
  | fuel + 1, cs =>
    match skipBlanks cs with
    | 'n' :: 'u' :: 'l' :: 'l' :: rest => some (.null, rest)
    | 't' :: 'r' :: 'u' :: 'e' :: rest => some (.bool true, rest)
    | 'f' :: 'a' :: 'l' :: 's' :: 'e' :: rest => some (.bool false, rest)
    | '"' :: rest => (string? rest).map fun (s, rest) => (.string s, rest)
    | '[' :: rest =>
      if depth = 0 then
        none
      else
        match skipBlanks rest with
        | ']' :: rest => some (.array [], rest)
        | rest => (items? (depth - 1) fuel rest).map fun (items, rest) => (.array items, rest)
    | '\x7b' :: rest =>
      if depth = 0 then
        none
      else
        match skipBlanks rest with
        | '\x7d' :: rest => some (.object [], rest)
        | rest =>
          (fields? (depth - 1) fuel rest).map fun (fields, rest) =>
            (.object (fields.foldl (fun object (key, value) => put key value object) []), rest)
    | rest => number? rest

def items? (depth : Nat) : Nat → List Char → Option (List Json × List Char)
  | 0, _ => none
  | fuel + 1, cs => do
    let (item, rest) ← value? depth fuel cs
    match skipBlanks rest with
    | ',' :: rest =>
      let (items, rest) ← items? depth fuel rest
      return (item :: items, rest)
    | ']' :: rest => return ([item], rest)
    | _ => none

def fields? (depth : Nat) : Nat → List Char → Option (List (String × Json) × List Char)
  | 0, _ => none
  | fuel + 1, cs =>
    match skipBlanks cs with
    | '"' :: rest => do
      let (key, rest) ← string? rest
      match skipBlanks rest with
      | ':' :: rest =>
        let (value, rest) ← value? depth fuel rest
        match skipBlanks rest with
        | ',' :: rest =>
          let (fields, rest) ← fields? depth fuel rest
          return ((key, value) :: fields, rest)
        | '\x7d' :: rest => return ([(key, value)], rest)
        | _ => none
      | _ => none
    | _ => none

end

def maxDepth : Nat := 127

def parse? (text : String) : Option Json := do
  let cs := text.toList
  let (j, rest) ← value? maxDepth (2 * cs.length + 2) cs
  if (skipBlanks rest).isEmpty then some j else none

end JsonRules.Json
