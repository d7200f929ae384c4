import JsonRules.Binary64.Grid

/-!
Numbers of the 64-bit binary format with exact arithmetic. Every operation computes its result as a
quotient of units and rounds it once, so nothing here rests on the machine's own floating point.
Order and equality are those of the position on the number line (`position?`).
-/
namespace JsonRules

/-- A finite number: a sign, kept also by zero, and a magnitude in units of 2^-1074. -/
structure Binary64.Finite where
  negative : Bool
  units : Nat
  units_lt : units < Binary64.limit
  onGrid : Binary64.OnGrid units
deriving DecidableEq

inductive Binary64 where
  | nan
  | infinity (negative : Bool)
  | finite (x : Binary64.Finite)
deriving DecidableEq

namespace Binary64

/-- `num / den` units with a sign, rounded to nearest. What rounds to the limit is infinite. -/
def ofQuotient (negative : Bool) (num den : Nat) : Binary64 :=
  if h : nearest num den < limit then
    .finite ⟨negative, nearest num den, h, onGrid_nearest num den⟩
  else
    .infinity negative

def negativeZero : Binary64 := ofQuotient true 0 1

def ofInt (i : Int) : Binary64 := ofQuotient (i < 0) (i.natAbs * one) 1

instance (n : Nat) : OfNat Binary64 n := ⟨ofInt n⟩

/-- The value in units, both zeros being 0. -/
def Finite.toInt (x : Finite) : Int :=
  if x.negative then -(x.units : Int) else x.units

/-- Place on the number line in units. The infinities stand just outside the finite numbers and
NaN has no place. -/
def position? : Binary64 → Option Int
  | .nan => none
  | .infinity negative => some (if negative then -(limit : Int) else limit)
  | .finite x => some x.toInt

def compare? (x y : Binary64) : Option Ordering := do
  return compare (← x.position?) (← y.position?)

/-- Equality on the number line: the zeros are equal and NaN equals nothing. -/
instance : BEq Binary64 := ⟨fun x y => x.compare? y == some .eq⟩

def lt (x y : Binary64) : Bool := x.compare? y == some .lt

def le (x y : Binary64) : Bool := (x.compare? y).any Ordering.isLE

def isZero (x : Binary64) : Bool := x.position? == some 0

def isNegative (x : Binary64) : Bool := x.position?.any (· < 0)

def neg : Binary64 → Binary64
  | .nan => .nan
  | .infinity negative => .infinity !negative
  | .finite x => .finite { x with negative := !x.negative }

/-- An exact sum of zero is negative only when both operands are. -/
def add : Binary64 → Binary64 → Binary64
  | .nan, _ | _, .nan => .nan
  | .infinity s, .infinity t => if s = t then .infinity s else .nan
  | .infinity s, .finite _ => .infinity s
  | .finite _, .infinity t => .infinity t
  | .finite x, .finite y =>
    let sum := x.toInt + y.toInt
    ofQuotient (if sum = 0 then x.negative && y.negative else sum < 0) sum.natAbs 1

def sub (x y : Binary64) : Binary64 := x.add y.neg

def mul : Binary64 → Binary64 → Binary64
  | .nan, _ | _, .nan => .nan
  | .infinity s, .infinity t => .infinity (s ^^ t)
  | .infinity s, .finite y => if y.units = 0 then .nan else .infinity (s ^^ y.negative)
  | .finite x, .infinity t => if x.units = 0 then .nan else .infinity (x.negative ^^ t)
  | .finite x, .finite y => ofQuotient (x.negative ^^ y.negative) (x.units * y.units) one

def div : Binary64 → Binary64 → Binary64
  | .nan, _ | _, .nan => .nan
  | .infinity _, .infinity _ => .nan
  | .infinity s, .finite y => .infinity (s ^^ y.negative)
  | .finite x, .infinity t => ofQuotient (x.negative ^^ t) 0 1
  | .finite x, .finite y =>
    if y.units = 0 then
      if x.units = 0 then .nan else .infinity (x.negative ^^ y.negative)
    else
      ofQuotient (x.negative ^^ y.negative) (x.units * one) y.units

/-- Remainder of the division that rounds toward zero. It has the sign of the dividend and is
exact, since a remainder of two grid points is one. -/
def rem : Binary64 → Binary64 → Binary64
  | .nan, _ | _, .nan => .nan
  | .infinity _, _ => .nan
  | .finite x, .infinity _ => .finite x
  | .finite x, .finite y =>
    if y.units = 0 then .nan else ofQuotient x.negative (x.units % y.units) 1

instance : Neg Binary64 := ⟨neg⟩
instance : Add Binary64 := ⟨add⟩
instance : Sub Binary64 := ⟨sub⟩
instance : Mul Binary64 := ⟨mul⟩
instance : Div Binary64 := ⟨div⟩
instance : Mod Binary64 := ⟨rem⟩

def Finite.integer? (x : Finite) : Option Int :=
  if x.units % one = 0 then
    some (if x.negative then -((x.units / one : Nat) : Int) else (x.units / one : Nat))
  else
    none

end Binary64
end JsonRules
