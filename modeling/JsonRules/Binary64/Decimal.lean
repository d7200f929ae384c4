import JsonRules.Binary64

/-!
Decimal numbers and the binary format. Reading takes a decimal to the nearest number; writing finds
the fewest digits that read back (`Finite.shortest`), so what is written always reads as the same
number.
-/
namespace JsonRules.Binary64

/-- `coefficient · 10^exponent`. -/
structure Decimal where
  coefficient : Nat
  exponent : Int
deriving DecidableEq

namespace Decimal

/-- A decimal is `numerator / denominator` units. -/
def numerator (d : Decimal) : Nat := d.coefficient * Nat.pow 10 d.exponent.toNat * one

def denominator (d : Decimal) : Nat := Nat.pow 10 (-d.exponent).toNat

end Decimal

/-- The nearest number. Far outside the range of the format the answer is known without computing
a huge power of ten: 10^401 is over the limit and 10^-401 under half a unit. -/
def ofDecimal (negative : Bool) (d : Decimal) : Binary64 :=
  if d.coefficient = 0 ∨ d.exponent + d.coefficient.log2 + 1 < -400 then ofQuotient negative 0 1
  else if 400 < d.exponent then .infinity negative
  else ofQuotient negative d.numerator d.denominator

inductive Tie where
  | even
  | up
deriving DecidableEq

def reaches (n : Nat) (e : Int) : Bool := one * Nat.pow 10 e.toNat ≤ n * Nat.pow 10 (-e).toNat

/-- The power of ten of the leading digit of `n` units, estimated from the leading bit with a
logarithm of 0.30103 and then corrected. -/
def leadingExponent (n : Nat) : Int :=
  let e := ((n.log2 : Int) - 1074) * 30103 / 100000
  if reaches n (e + 1) then e + 1 else if reaches n e then e else e - 1

/-- The decimal with last place 10^`place` that reads as `n` units. Only the two neighbours of `n`
on that decimal grid can; of two, the nearer is taken. -/
def readingBack (tie : Tie) (n : Nat) (place : Int) : Option Decimal :=
  let num := n * Nat.pow 10 (-place).toNat
  let den := one * Nat.pow 10 place.toNat
  let q := num / den
  let twice := 2 * (num % den)
  let below : Decimal := ⟨q, place⟩
  let above : Decimal := ⟨q + 1, place⟩
  let reads (d : Decimal) : Bool := nearest d.numerator d.denominator = n
  let aboveFirst : Bool := den < twice ∨ (twice = den ∧ (tie = .up ∨ q % 2 = 1))
  let candidates := if aboveFirst then [above, below] else [below, above]
  candidates.find? reads

def Finite.exactDecimal (x : Finite) : Decimal := ⟨x.units * Nat.pow 5 1074, -1074⟩

/-- The magnitude in the fewest digits that read back, seventeen being enough for any number. -/
def Finite.shortest (tie : Tie) (x : Finite) : Decimal :=
  let top := leadingExponent x.units
  let found := (List.range 17).findSome? fun (i : Nat) => readingBack tie x.units (top - i)
  found.getD x.exactDecimal

end JsonRules.Binary64
