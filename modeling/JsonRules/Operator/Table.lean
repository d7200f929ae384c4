import JsonRules.Operator
import JsonRules.Value.Display
import JsonRules.Value.Number
import JsonRules.Value.Truth

/-!
What the operators that do not read the data make of the values of their operands. An operand that
is not given counts as null.
-/
namespace JsonRules.Operator

def operand (args : List Value) (i : Nat) : Value := args.getD i .null

/-- The remainder is zero or has the sign of the divisor. -/
def HasSignOf (r b : Int) : Prop := r = 0 ∨ (r < 0 ↔ b < 0)

instance (r b : Int) : Decidable (HasSignOf r b) :=
  inferInstanceAs (Decidable (r = 0 ∨ (r < 0 ↔ b < 0)))

def wordRemainder (x y : Int64) : Int64 :=
  if HasSignOf (x % y).toInt y.toInt then x % y else x % y + y

/-- Remainder with the sign of the divisor. Of integers it is an integer, and NaN when the division
has no result: for a divisor of zero, and where the quotient leaves the 64-bit range. -/
def remainder : Value → Value → Value
  | .int x, .int y =>
    if y = 0 ∨ (x = Int64.minValue ∧ y = -1) then .float .nan else .int (wordRemainder x y)
  | a, b =>
    let y := b.toNumber
    let r := a.toNumber % y
    .float (if !r.isZero && r.isNegative != y.isNegative then r + y else r)

def pairs : List Value → List (Value × Value)
  | condition :: value :: rest => (condition, value) :: pairs rest
  | _ => []

/-- The value of the first pair with a truthy condition, else a last operand that stands alone. -/
def chosen (args : List Value) : Value :=
  match (pairs args).find? fun pair => pair.1.isTruthy with
  | some pair => pair.2
  | none => if args.length % 2 = 1 then args.getLastD .null else .null

@[simp] theorem chosen_nil : chosen [] = .null := rfl

@[simp] theorem chosen_singleton (otherwise : Value) : chosen [otherwise] = otherwise := rfl

@[simp] theorem chosen_cons_cons (condition value : Value) (rest : List Value) :
    chosen (condition :: value :: rest) = if condition.isTruthy then value else chosen rest := by
  unfold chosen
  rw [pairs, List.find?_cons]
  cases condition.isTruthy with
  | true => rfl
  | false =>
    have hlength : (condition :: value :: rest).length % 2 = rest.length % 2 := by
      simp only [List.length_cons]
      omega
    rw [hlength]
    cases rest <;> rfl

/-- A value is in an array by equality, a text in a text as a part, a key in an object. -/
def isMember (needle : Value) : Value → Bool
  | .array items => items.any (· == needle)
  | .string s =>
    match needle with
    | .string part => s.contains part
    | _ => false
  | .object fields =>
    match needle with
    | .string key => (fields.lookup key).isSome
    | _ => false
  | _ => false

/-- The first comparable form that no later one precedes in the wanted order. -/
def extreme (wanted : Ordering) (args : List Value) : Value :=
  match args.map Value.comparable with
  | [] => .null
  | first :: rest =>
    rest.foldl (fun best v => if v.compare? best == some wanted then v else best) first

def concatenated (args : List Value) : String :=
  String.join (args.map fun v => if v.isNull then "" else v.display)

/-- The exact neutral element of addition is minus zero. -/
def sum (args : List Value) : Binary64 :=
  args.foldl (fun total v => total + v.toNumber) Binary64.negativeZero

def product (args : List Value) : Binary64 :=
  args.foldl (fun total v => total * v.toNumber) 1

/-- The value of an operator on the values of its operands; none for one that reads the data. -/
def result? (op : Operator) (args : List Value) : Option Value :=
  let a := operand args 0
  let b := operand args 1
  match op with
  | .var | .missing | .missingSome | .map => none
  | .equal => some (.bool (a == b))
  | .notEqual => some (.bool (a != b))
  | .greater => some (.bool (a.related b Ordering.isGT))
  | .greaterOrEqual => some (.bool (a.related b Ordering.isGE))
  | .less => some (.bool (a.related b Ordering.isLT))
  | .lessOrEqual =>
    let c := operand args 2
    some (.bool (a.related b Ordering.isLE && (c.isNull || b.related c Ordering.isLE)))
  | .not => some (.bool a.isFalsey)
  | .truth => some (.bool a.isTruthy)
  | .modulo => some (remainder a b)
  | .and => some (args.foldl (fun v arg => if v.isFalsey then v else arg) (.bool true))
  | .or => some (args.foldl (fun v arg => if v.isTruthy then v else arg) (.bool false))
  | .ternary => some (if a.isTruthy then b else operand args 2)
  | .choose => some (chosen args)
  | .log => some a
  | .member => some (.bool (isMember a b))
  | .cat => some (.string (concatenated args))
  | .add => some (.float (sum args))
  | .multiply => some (.float (product args))
  | .subtract =>
    match args with
    | [only] => some (.float (-only.toNumber))
    | _ => some (.float (a.toNumber - b.toNumber))
  | .divide => some (.float (a.toNumber / b.toNumber))
  | .min => some (extreme .lt args)
  | .max => some (extreme .gt args)
  | .merge => some (.array (args.flatMap Value.operands))
  | .count => some (.int (Int64.ofNat (args.countP Value.isTruthy)))

def logged (op : Operator) (args : List Value) : List String :=
  if op = .log then [(operand args 0).display] else []

theorem result?_eq_none_iff (op : Operator) (args : List Value) :
    op.result? args = none ↔ op.readsData = true := by
  cases op with
  | subtract =>
    simp only [result?, readsData]
    split <;> simp
  | _ => simp [result?, readsData]

theorem length_logged (op : Operator) (args args' : List Value) :
    (op.logged args).length = (op.logged args').length := by
  unfold logged
  split <;> rfl

end JsonRules.Operator
