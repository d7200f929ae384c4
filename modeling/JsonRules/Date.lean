import JsonRules.Text.Numeral

/-!
Calendar dates of the proleptic Gregorian calendar with a four-digit year, and their text
`YYYY-MM-DD`. A year before 0 is written with a minus sign; a plus sign is read and never written.
-/
namespace JsonRules

namespace Date

def isLeapYear (year : Int) : Bool := year % 4 == 0 && (year % 100 != 0 || year % 400 == 0)

def daysInMonth (year : Int) (month : Nat) : Nat :=
  if month = 2 then
    if isLeapYear year then 29 else 28
  else if month = 4 ∨ month = 6 ∨ month = 9 ∨ month = 11 then
    30
  else
    31

end Date

structure Date where
  year : Int
  month : Nat
  day : Nat
  year_le : year.natAbs ≤ 9999
  month_mem : 1 ≤ month ∧ month ≤ 12
  day_mem : 1 ≤ day ∧ day ≤ Date.daysInMonth year month
deriving DecidableEq

namespace Date

def ofFields? (year : Int) (month day : Nat) : Option Date :=
  if h : year.natAbs ≤ 9999 ∧ (1 ≤ month ∧ month ≤ 12) ∧ (1 ≤ day ∧ day ≤ daysInMonth year month)
  then some ⟨year, month, day, h.1, h.2.1, h.2.2⟩
  else none

instance : Ord Date where
  compare a b :=
    ((compare a.year b.year).then (compare a.month b.month)).then (compare a.day b.day)

def unsigned? (negative : Bool) : List Char → Option Date
  | [y₁, y₂, y₃, y₄, '-', m₁, m₂, '-', d₁, d₂] =>
    if [y₁, y₂, y₃, y₄, m₁, m₂, d₁, d₂].all Char.isDigit then
      let year : Int := Text.digitsValue [y₁, y₂, y₃, y₄]
      ofFields? (if negative then -year else year)
        (Text.digitsValue [m₁, m₂]) (Text.digitsValue [d₁, d₂])
    else
      none
  | _ => none

def ofChars? : List Char → Option Date
  | '-' :: cs => unsigned? true cs
  | '+' :: cs => unsigned? false cs
  | cs => unsigned? false cs

def parse? (s : String) : Option Date := ofChars? s.toList

def twoDigits (n : Nat) : List Char := [Nat.digitChar (n / 10 % 10), Nat.digitChar (n % 10)]

def fourDigits (n : Nat) : List Char := twoDigits (n / 100) ++ twoDigits n

def chars (d : Date) : List Char :=
  let unsigned :=
    fourDigits d.year.natAbs ++ '-' :: twoDigits d.month ++ '-' :: twoDigits d.day
  if d.year < 0 then '-' :: unsigned else unsigned

def text (d : Date) : String := String.ofList d.chars

end Date
end JsonRules
