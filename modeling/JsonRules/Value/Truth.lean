import JsonRules.Value

/-!
Truth of a value, its comparable form and the order of comparable values. Only numbers, texts, dates
and arrays of such are ordered, each with its own kind; every other pair has no order.
-/
namespace JsonRules.Value

def isFalsey : Value → Bool
  | .null => true
  | .bool b => !b
  | .int n => n == 0
  | .float x => x.isZero
  | .string s => s.isEmpty
  | .array items => items.isEmpty
  | .object fields => fields.isEmpty
  | .date _ => false

def isTruthy (v : Value) : Bool := !v.isFalsey

/-- Null and the truth values count as 0 and 1. -/
def comparableLeaf : Value → Value
  | .null => .float 0
  | .bool b => .float (if b then 1 else 0)
  | .int n => .float (ofInt64 n)
  | v => v

def comparable (v : Value) : Value := v.mapLeaves comparableLeaf

mutual

def compare? : Value → Value → Option Ordering
  | .int a, .int b => (ofInt64 a).compare? (ofInt64 b)
  | .int a, .float y => (ofInt64 a).compare? y
  | .float x, .int b => x.compare? (ofInt64 b)
  | .float x, .float y => x.compare? y
  | .string a, .string b => some (compare a b)
  | .date a, .date b => some (compare a b)
  | .array a, .array b => compareItems? a b
  | _, _ => none

/-- An item pair without an order leaves the arrays without one, unless an earlier pair decides. -/
def compareItems? : List Value → List Value → Option Ordering
  | [], [] => some .eq
  | [], _ :: _ => some .lt
  | _ :: _, [] => some .gt
  | a :: as, b :: bs =>
    match a.compare? b with
    | some .eq => compareItems? as bs
    | decided => decided

end

/-- The comparable forms stand in one of the given orders. -/
def related (a b : Value) (accepts : Ordering → Bool) : Bool :=
  (a.comparable.compare? b.comparable).any accepts

end JsonRules.Value
