import JsonRules.Proofs.Summaries
import Mathlib.Algebra.Ring.Nat

/-!
Laws of the operators that choose among their operands. A chain of conditions is ternary conditionals one
within the other (`choose_eq_nested`). Conjunction and disjunction take one operand after the other until
one stops them (`Joins`); negation turns each into the other, and which operands stop them can be told
from their count. The laws hold of whole evaluations, with the errors and the log of operands that are not
chosen.
-/
namespace JsonRules

namespace Operator
open Value

section Chains

def nested : List Value → Value
  | [] => .null
  | [otherwise] => otherwise
  | condition :: value :: rest => ternary.on [condition, value, nested rest]

theorem summary_nested (rs : List Value) (data : Value) :
    summary (nested rs) data = chosen <$> rs.mapM fun r => summary r data := by
  induction rs using nested.induct with
  | case1 =>
    rw [nested, summary_literal rfl]
    simp
  | case2 otherwise => simp [nested]
  | case3 condition value rest ih =>
    rw [nested, summary_on (by decide) (by decide)]
    simp [ih, valueOn, result?, operand]

end Chains

section Joins

variable {op : Operator} {stops : Value → Bool} {start v : Value} {args : List Value}

/-- One operand takes the place of those before it, unless what they have come to stops them. -/
def kept (stops : Value → Bool) (v arg : Value) : Value := if stops v then v else arg

theorem foldl_kept_of_stops (h : stops v = true) : args.foldl (kept stops) v = v := by
  induction args with
  | nil => rfl
  | cons arg rest ih => simpa [kept, h] using ih

theorem stops_foldl_kept (stops : Value → Bool) (v : Value) (args : List Value) :
    stops (args.foldl (kept stops) v) = (stops v || args.any stops) := by
  induction args generalizing v with
  | nil => simp
  | cons arg rest ih =>
    rw [List.foldl_cons, ih, List.any_cons]
    cases h : stops v <;> simp [kept, h]

theorem kept_foldl_kept (hstart : stops start = false) (hargs : args ≠ []) (v : Value) :
    kept stops v (args.foldl (kept stops) start) = args.foldl (kept stops) v := by
  cases h : stops v with
  | true => rw [foldl_kept_of_stops h, kept, if_pos h]
  | false =>
    cases args with
    | nil => contradiction
    | cons arg rest => simp [kept, h, hstart]

/-- The operators that take their operands in order, with what stops them and what they start from. -/
inductive Joins : Operator → (Value → Bool) → Value → Prop
  | and : Joins .and isFalsey (.bool true)
  | or : Joins .or isTruthy (.bool false)

namespace Joins

theorem result?_eq (h : op.Joins stops start) (args : List Value) :
    op.result? args = some (args.foldl (kept stops) start) := by
  cases h <;> rfl

theorem valueOn_eq (h : op.Joins stops start) (data : Value) (args : List Value) :
    op.valueOn data args = args.foldl (kept stops) start := by
  rw [valueOn, h.result?_eq, Option.getD_some]

theorem stops_start (h : op.Joins stops start) : stops start = false := by
  cases h <;> rfl

theorem summary_on (h : op.Joins stops start) (rs : List Value) (data : Value) :
    summary (op.on rs) data =
      List.foldl (kept stops) start <$> rs.mapM fun r => summary r data := by
  have hvalue : op.valueOn data = List.foldl (kept stops) start := funext (h.valueOn_eq data)
  rw [JsonRules.summary_on (by cases h <;> decide) (by cases h <;> decide), hvalue]

end Joins

end Joins

section Negation

variable {op op' : Operator} {stops stops' : Value → Bool} {start : Value}

def negated (v : Value) : Value := .bool v.isFalsey

theorem summary_not (r data : Value) : summary (not.on [r]) data = negated <$> summary r data :=
  summary_single (by decide) (by decide) r data

/-- The operator that is stopped by the negation of what stops the other. -/
structure Dual (op op' : Operator) (stops stops' : Value → Bool) (start : Value) : Prop where
  joins : op.Joins stops start
  joins' : op'.Joins stops' (negated start)
  stops_negated : ∀ v, stops' (negated v) = stops v

theorem dual_and_or : Dual .and .or isFalsey isTruthy (.bool true) where
  joins := .and
  joins' := .or
  stops_negated v := by simp [negated, isTruthy, isFalsey]

theorem dual_or_and : Dual .or .and isTruthy isFalsey (.bool false) where
  joins := .or
  joins' := .and
  stops_negated v := by simp [negated, isTruthy, isFalsey]

theorem Dual.negated_foldl (h : Dual op op' stops stops' start) (args : List Value) :
    negated (args.foldl (kept stops) start) =
      (args.map negated).foldl (kept stops') (negated start) := by
  rw [List.foldl_map]
  refine (List.foldl_hom negated fun v arg => ?_).symm
  rw [kept, kept, h.stops_negated, apply_ite negated]

theorem Dual.summary_not_on (h : Dual op op' stops stops' start) (rs : List Value) (data : Value) :
    summary (not.on [op.on rs]) data = summary (op'.on (rs.map fun r => not.on [r])) data := by
  have hnegated : negated ∘ List.foldl (kept stops) start =
      List.foldl (kept stops') (negated start) ∘ List.map negated := funext h.negated_foldl
  rw [summary_not, h.joins.summary_on, h.joins'.summary_on, List.mapM_map, ← comp_map, hnegated,
    comp_map, ← mapM_comp_map]
  simp only [Function.comp_def, summary_not]

end Negation

section Count

variable {args : List Value}

theorem isTruthy_and_iff :
    (args.foldl (kept isFalsey) (.bool true)).isTruthy = true ↔
      args.countP isTruthy = args.length := by
  rw [isTruthy, stops_foldl_kept isFalsey, List.countP_eq_length]
  simp [isTruthy, isFalsey]

theorem isTruthy_or_iff :
    (args.foldl (kept isTruthy) (.bool false)).isTruthy = true ↔ 1 ≤ args.countP isTruthy := by
  rw [stops_foldl_kept isTruthy, List.one_le_countP_iff]
  simp [isTruthy, isFalsey]

end Count

end Operator

open Operator

/-- A chain of conditions may be written as nested ternary conditionals. -/
theorem choose_eq_nested (rs : List Value) (data : Value) :
    apply (choose.on rs) data = apply (nested rs) data := by
  apply apply_congr
  rw [summary_nested, summary_on (by decide) (by decide)]
  rfl

/-- The negation of a conjunction is the disjunction of the negations and the other way round. Of operands
whose number fits into an integer, a conjunction asks that all are counted and a disjunction that one
is. -/
theorem de_morgan_and_counting (rs : List Value) (data : Value) (args : List Value) :
    apply (not.on [and.on rs]) data = apply (or.on (rs.map fun r => not.on [r])) data ∧
      apply (not.on [or.on rs]) data = apply (and.on (rs.map fun r => not.on [r])) data ∧
      ∃ (v w : Value) (n : Nat), and.result? args = some v ∧ or.result? args = some w ∧
        count.result? args = some (.int (Int64.ofNat n)) ∧
        (args.length < 2 ^ 63 → (Int64.ofNat n).toInt = n) ∧
        (v.isTruthy = true ↔ n = args.length) ∧ (w.isTruthy = true ↔ 1 ≤ n) := by
  refine ⟨apply_congr (dual_and_or.summary_not_on rs data),
    apply_congr (dual_or_and.summary_not_on rs data), _, _, args.countP Value.isTruthy,
    Joins.and.result?_eq args, Joins.or.result?_eq args, rfl, fun hlength => ?_,
    isTruthy_and_iff, isTruthy_or_iff⟩
  have hcount : args.countP Value.isTruthy ≤ args.length := List.countP_le_length
  exact Int64.toInt_ofNat_of_lt (by omega)

theorem de_morgan_and_counting_mixed :
    let rs := [.object [("log", .string "")], .object [("nope", .null)]]
    let args := [Value.string "0", .array [], .array [.null]]
    let failed : Except EvalError Value × List String := (.error (.unrecognized "nope"), [""])
    apply (not.on [and.on rs]) .null = failed ∧
      apply (or.on (rs.map fun r => not.on [r])) .null = failed ∧
      args.length < 2 ^ 63 ∧ count.result? args = some (.int 2) ∧
      ∃ (v w : Value) (n : Nat), and.result? args = some v ∧ or.result? args = some w ∧
        Int64.ofNat n = 2 ∧ (Int64.ofNat n).toInt = n ∧
        (v.isTruthy = true ↔ n = 3) ∧ (w.isTruthy = true ↔ 1 ≤ n) := by
  intro rs args failed
  have hlength : args.length < 2 ^ 63 := by decide
  have hfailed : apply (not.on [and.on rs]) .null = failed := rfl
  have hcount : count.result? args = some (.int 2) := rfl
  obtain ⟨hand, -, v, w, n, hv, hw, hn, hexact, hall, hsome⟩ :=
    de_morgan_and_counting rs .null args
  have htwo : Int64.ofNat n = 2 := Value.int.inj (Option.some.inj (hn.symm.trans hcount))
  exact ⟨hfailed, hand.symm.trans hfailed, hlength, hcount, v, w, n, hv, hw, htwo, hexact hlength,
    hall, hsome⟩

end JsonRules
