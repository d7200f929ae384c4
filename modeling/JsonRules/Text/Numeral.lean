import JsonRules.Binary64.Decimal

/-!
Pieces of a written number, shared by the reader of JSON and by the reading of a text that is a number as
a whole. A piece is returned with the text behind it. Digits are the ten ASCII digits.
-/
namespace JsonRules.Text

def decimalDigits (n : Nat) : List Char := Nat.toDigits 10 n

def integer (i : Int) : List Char :=
  if i < 0 then '-' :: decimalDigits i.natAbs else decimalDigits i.natAbs

def digitsValue (cs : List Char) : Nat := Nat.ofDigitChars 10 cs 0

theorem decimalDigits_ne_nil (n : Nat) : decimalDigits n ≠ [] := Nat.toDigits_ne_nil

theorem isDigit_of_mem_decimalDigits {n : Nat} {c : Char} (h : c ∈ decimalDigits n) :
    c.isDigit = true :=
  Nat.isDigit_of_mem_toDigits (by decide) (by decide) h

theorem digitsValue_decimalDigits (n : Nat) : digitsValue (decimalDigits n) = n :=
  Nat.ofDigitChars_toDigits (by decide) (by decide)

def spanDigits (cs : List Char) : List Char × List Char := cs.span Char.isDigit

def fraction? : List Char → Option (List Char × List Char)
  | '.' :: cs =>
    match spanDigits cs with
    | ([], _) => none
    | found => some found
  | _ => none

/-- `true` for a minus sign; a sign may be missing. -/
def sign : List Char → Bool × List Char
  | '-' :: cs => (true, cs)
  | '+' :: cs => (false, cs)
  | cs => (false, cs)

def exponent? : List Char → Option (Int × List Char)
  | 'e' :: cs | 'E' :: cs =>
    let (negative, cs) := sign cs
    match spanDigits cs with
    | ([], _) => none
    | (digits, rest) =>
      let n : Int := digitsValue digits
      some (if negative then -n else n, rest)
  | _ => none

/-- Digits before and after the point, and a power of ten. -/
structure Numeral where
  whole : List Char
  fraction : List Char
  exponent : Int

def Numeral.decimal (n : Numeral) : Binary64.Decimal :=
  ⟨digitsValue (n.whole ++ n.fraction), n.exponent - n.fraction.length⟩

def pointed : List Char → List Char × List Char
  | '.' :: cs => spanDigits cs
  | cs => ([], cs)

def numeral? (cs : List Char) : Option Numeral :=
  let (whole, rest) := spanDigits cs
  let (fraction, rest) := pointed rest
  if whole.isEmpty ∧ fraction.isEmpty then
    none
  else if rest.isEmpty then
    some ⟨whole, fraction, 0⟩
  else
    match exponent? rest with
    | some (exponent, []) => some ⟨whole, fraction, exponent⟩
    | _ => none

def number? (s : String) : Option Binary64 :=
  let (negative, cs) := sign s.toList
  match numeral? cs with
  | some numeral => some (Binary64.ofDecimal negative numeral.decimal)
  | none =>
    match (String.ofList cs).toLower with
    | "inf" | "infinity" => some (.infinity negative)
    | "nan" => some .nan
    | _ => none

def hexValue? (c : Char) : Option Nat :=
  if c.isDigit then some (c.toNat - '0'.toNat)
  else if 'a' ≤ c ∧ c ≤ 'f' then some (c.toNat - 'a'.toNat + 10)
  else if 'A' ≤ c ∧ c ≤ 'F' then some (c.toNat - 'A'.toNat + 10)
  else none

def hexNumber? (cs : List Char) : Option Nat :=
  cs.foldlM (fun n c => (hexValue? c).map (16 * n + ·)) 0

end JsonRules.Text
