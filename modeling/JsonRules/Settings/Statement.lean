import JsonRules.Settings.Quoted

/-!
Statements of a settings file. It is a TOML document, and each of its lines is a header that names a
table or an entry that gives a key its value. Settings lie at most two keys deep and are texts, truth
values and choices, so no other part of TOML is read. A choice is a key that stands for nothing, that
is for an empty array or table.
-/
namespace JsonRules.Settings

structure Path where
  key : String
  inner : Option String
deriving DecidableEq

inductive Setting where
  | text (s : String)
  | truth (b : Bool)
  /-- An empty array or table. -/
  | nothing
  /-- A table whose only key stands for nothing. -/
  | choice (key : String)
deriving DecidableEq

inductive Statement where
  | header (table : Path)
  | entry (path : Path) (value : Setting)
deriving DecidableEq

def isBareKey (c : Char) : Bool := c.isAlphanum || c == '_' || c == '-'

def key? : List Char → Option (String × List Char)
  | '"' :: rest => (basic? rest).toString
  | '\'' :: rest => (literal? rest).toString
  | cs =>
    match cs.span isBareKey with
    | ([], _) => none
    | (key, rest) => some (String.ofList key, rest)

def path? (cs : List Char) : Option (Path × List Char) := do
  let (key, rest) ← key? (skipBlanks cs)
  match skipBlanks rest with
  | '.' :: rest =>
    let (inner, rest) ← key? (skipBlanks rest)
    return (⟨key, some inner⟩, skipBlanks rest)
  | rest => return (⟨key, none⟩, rest)

def skipVoid (inComment : Bool) : List Char → List Char
  | '\n' :: rest => skipVoid false rest
  | '\r' :: '\n' :: rest => skipVoid false rest
  | c :: rest =>
    if inComment then
      if isPlain c then skipVoid true rest else c :: rest
    else if isBlank c then
      skipVoid false rest
    else if c = '#' then
      skipVoid true rest
    else
      c :: rest
  | [] => []

def nothing? : List Char → Option (List Char)
  | '[' :: rest =>
    match skipVoid false rest with
    | ']' :: rest => some rest
    | _ => none
  | '\x7b' :: rest =>
    match skipBlanks rest with
    | '\x7d' :: rest => some rest
    | _ => none
  | _ => none

def choice? (cs : List Char) : Option (String × List Char) := do
  let (key, rest) ← key? (skipBlanks cs)
  match skipBlanks rest with
  | '=' :: rest =>
    let rest ← nothing? (skipBlanks rest)
    match skipBlanks rest with
    | '\x7d' :: rest => return (key, rest)
    | _ => none
  | _ => none

def setting? (cs : List Char) : Option (Setting × List Char) :=
  match nothing? cs, cs with
  | some rest, _ => some (.nothing, rest)
  | none, '\x7b' :: rest => (choice? rest).map fun (key, rest) => (.choice key, rest)
  | none, 't' :: 'r' :: 'u' :: 'e' :: rest => some (.truth true, rest)
  | none, 'f' :: 'a' :: 'l' :: 's' :: 'e' :: rest => some (.truth false, rest)
  | none, cs => (string? cs).toString.map fun (s, rest) => (.text s, rest)

def endOfLine? (cs : List Char) : Option (List Char) :=
  let cs :=
    match skipBlanks cs with
    | '#' :: comment => comment.dropWhile isPlain
    | cs => cs
  if cs.isEmpty then some [] else newline? cs

def statement? : List Char → Option (Statement × List Char)
  | '[' :: rest => do
    let (table, rest) ← path? rest
    match rest with
    | ']' :: rest => return (.header table, ← endOfLine? rest)
    | _ => none
  | cs => do
    let (path, rest) ← path? cs
    match rest with
    | '=' :: rest =>
      let (value, rest) ← setting? (skipBlanks rest)
      return (.entry path value, ← endOfLine? rest)
    | _ => none

/-- The statements of a text in their order. Each step takes a line or more, so the length of the text
is enough fuel. -/
def statements? : Nat → List Char → Option (List Statement)
  | 0, _ => none
  | fuel + 1, cs =>
    match skipBlanks cs with
    | [] => some []
    | c :: rest =>
      match endOfLine? (c :: rest) with
      | some rest => statements? fuel rest
      | none => do
        let (statement, rest) ← statement? (c :: rest)
        return statement :: (← statements? fuel rest)

end JsonRules.Settings
