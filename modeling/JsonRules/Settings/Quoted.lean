import JsonRules.Text.Numeral

/-!
Strings of settings files, decoded: in double quotes with escapes or in single quotes without, on one
line or, between three quotes, on several.
-/
namespace JsonRules.Settings

def isBlank (c : Char) : Bool := c == ' ' || c == '\t'

def skipBlanks (cs : List Char) : List Char := cs.dropWhile isBlank

/-- Characters that may stand in strings and comments: a tab, and all but the control characters. -/
def isPlain (c : Char) : Bool := c == '\t' || (0x20 ≤ c.toNat && c.toNat != 0x7F)

def newline? : List Char → Option (List Char)
  | '\n' :: rest => some rest
  | '\r' :: '\n' :: rest => some rest
  | _ => none

def unescaped? : Char → Option Char
  | '"' => some '"'
  | '\\' => some '\\'
  | 'b' => some '\x08'
  | 'f' => some '\x0c'
  | 'n' => some '\n'
  | 'r' => some '\r'
  | 't' => some '\t'
  | _ => none

def scalarChar? (n : Nat) : Option Char :=
  if n.isValidChar then some (Char.ofNat n) else none

/-- A decoded string and the text behind it. -/
abbrev Decoded := Option (List Char × List Char)

def Decoded.cons (c : Char) (d : Decoded) : Decoded := d.map fun (cs, rest) => (c :: cs, rest)

def Decoded.toString (d : Decoded) : Option (String × List Char) :=
  d.map fun (cs, rest) => (String.ofList cs, rest)

def basic? : List Char → Decoded
  | '"' :: rest => some ([], rest)
  | '\\' :: 'u' :: a :: b :: c :: d :: rest => do
    let n ← Text.hexNumber? [a, b, c, d]
    Decoded.cons (← scalarChar? n) (basic? rest)
  | '\\' :: 'U' :: a :: b :: c :: d :: e :: f :: g :: h :: rest => do
    let n ← Text.hexNumber? [a, b, c, d, e, f, g, h]
    Decoded.cons (← scalarChar? n) (basic? rest)
  | '\\' :: c :: rest => do Decoded.cons (← unescaped? c) (basic? rest)
  | c :: rest => if isPlain c then Decoded.cons c (basic? rest) else none
  | [] => none

/-- The rest of a string in three double quotes. A backslash at the end of a line takes away the line
break and all blanks and line breaks up to the next character; `skipping` holds meanwhile. -/
def multiline? (skipping : Bool) : List Char → Decoded
  | '"' :: '"' :: '"' :: rest => some ([], rest)
  | '\\' :: 'u' :: a :: b :: c :: d :: rest => do
    let n ← Text.hexNumber? [a, b, c, d]
    Decoded.cons (← scalarChar? n) (multiline? false rest)
  | '\\' :: 'U' :: a :: b :: c :: d :: e :: f :: g :: h :: rest => do
    let n ← Text.hexNumber? [a, b, c, d, e, f, g, h]
    Decoded.cons (← scalarChar? n) (multiline? false rest)
  | '\\' :: c :: rest =>
    if (newline? (skipBlanks (c :: rest))).isSome then
      multiline? true (c :: rest)
    else do
      Decoded.cons (← unescaped? c) (multiline? false rest)
  | '\r' :: '\n' :: rest =>
    if skipping then multiline? true rest else Decoded.cons '\n' (multiline? false rest)
  | c :: rest =>
    if skipping && (isBlank c || c == '\n') then multiline? true rest
    else if isPlain c || c == '\n' then Decoded.cons c (multiline? false rest)
    else none
  | [] => none

def literal? : List Char → Decoded
  | '\'' :: rest => some ([], rest)
  | c :: rest => if isPlain c then Decoded.cons c (literal? rest) else none
  | [] => none

def multilineLiteral? : List Char → Decoded
  | '\'' :: '\'' :: '\'' :: rest => some ([], rest)
  | '\r' :: '\n' :: rest => Decoded.cons '\n' (multilineLiteral? rest)
  | c :: rest =>
    if isPlain c || c == '\n' then Decoded.cons c (multilineLiteral? rest) else none
  | [] => none

def afterOpening (cs : List Char) : List Char := (newline? cs).getD cs

def string? : List Char → Decoded
  | '"' :: '"' :: '"' :: rest => multiline? false (afterOpening rest)
  | '"' :: rest => basic? rest
  | '\'' :: '\'' :: '\'' :: rest => multilineLiteral? (afterOpening rest)
  | '\'' :: rest => literal? rest
  | _ => none

end JsonRules.Settings
