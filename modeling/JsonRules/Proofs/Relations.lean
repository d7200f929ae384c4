import JsonRules.Operator.Table
import JsonRules.Proofs.Comparison

/-!
The relational operators. They go by the order of the comparable forms of their operands (`order?`),
which chains like that of values, so a range check with a bound on either side holds for no value
unless the bounds themselves are in order. A third operand that is null is no bound.
-/
namespace JsonRules

namespace Value

variable {a b c : Value} {o wanted : Ordering} {accepts : Ordering → Bool}

def order? (a b : Value) : Option Ordering := a.comparable.compare? b.comparable

theorem order?_swap (a b : Value) : b.order? a = (a.order? b).map Ordering.swap :=
  compare?_swap a.comparable b.comparable

theorem eq_of_order?_self (h : a.order? a = some o) : o = .eq := by
  have hswap := order?_swap a a
  rw [h] at hswap
  cases o with
  | eq => rfl
  | lt => contradiction
  | gt => contradiction

theorem order?_trans (hwanted : wanted ≠ .eq) (ho : o = wanted ∨ o = .eq)
    (hab : a.order? b = some o) (hbc : b.order? c = some wanted) : a.order? c = some wanted := by
  cases wanted with
  | eq => contradiction
  | lt =>
    have hle : o.isLE := by rcases ho with rfl | rfl <;> rfl
    have hac : a.order? c = some (o.then .lt) := compare?_chain hle rfl hab hbc
    rwa [then_lt_of_isLE hle] at hac
  | gt =>
    -- Downwards is upwards from the other end.
    have hle : o.swap.isLE := by rcases ho with rfl | rfl <;> rfl
    have hcb : c.order? b = some .lt := by rw [order?_swap b c, hbc]; rfl
    have hba : b.order? a = some o.swap := by rw [order?_swap a b, hab]; rfl
    have hca : c.order? a = some .lt := compare?_chain rfl hle hcb hba
    rw [order?_swap c a, hca]
    rfl

theorem related_iff :
    a.related b accepts = true ↔ ∃ o, a.order? b = some o ∧ accepts o = true := by
  unfold related
  rw [← order?, Option.any_eq_true_iff_get]
  cases a.order? b <;> simp

theorem related_isLE_trans (hab : a.related b Ordering.isLE = true)
    (hbc : b.related c Ordering.isLE = true) : a.related c Ordering.isLE = true := by
  obtain ⟨o₁, ho₁, h₁⟩ := related_iff.mp hab
  obtain ⟨o₂, ho₂, h₂⟩ := related_iff.mp hbc
  have hac : a.order? c = some (o₁.then o₂) := compare?_chain h₁ h₂ ho₁ ho₂
  refine related_iff.mpr ⟨_, hac, ?_⟩
  cases o₁ with
  | lt => rfl
  | eq => exact h₂
  | gt => contradiction

end Value

namespace Operator
open Value

def Holds (op : Operator) (args : List Value) : Prop := op.result? args = some (.bool true)

variable {op : Operator} {accepts : Ordering → Bool} {a b c : Value} {o : Ordering}

theorem holds_equal_iff : equal.Holds [a, b] ↔ (a == b) = true := by
  simp [Holds, result?, operand]

/-- The operators that relate two operands, with the orders that they accept. -/
inductive Relates : Operator → (Ordering → Bool) → Prop
  | less : Relates .less Ordering.isLT
  | lessOrEqual : Relates .lessOrEqual Ordering.isLE
  | greater : Relates .greater Ordering.isGT
  | greaterOrEqual : Relates .greaterOrEqual Ordering.isGE

theorem Relates.result?_pair (h : op.Relates accepts) (a b : Value) :
    op.result? [a, b] = some (.bool (a.related b accepts)) := by
  cases h <;> simp [result?, operand, isNull]

theorem Relates.holds_iff (h : op.Relates accepts) :
    op.Holds [a, b] ↔ a.related b accepts = true := by
  rw [Holds, h.result?_pair, Option.some.injEq, bool.injEq]

theorem Relates.holds_iff_of_order? (h : op.Relates accepts) (ho : a.order? b = some o) :
    op.Holds [a, b] ↔ accepts o = true := by
  rw [h.holds_iff, related_iff]
  simp [ho]

theorem Relates.not_holds_of_none (h : op.Relates accepts) (ho : a.order? b = none) :
    ¬ op.Holds [a, b] := by
  rw [h.holds_iff, related_iff]
  simp [ho]

theorem holds_lessOrEqual_pair :
    lessOrEqual.Holds [a, b] ↔ a.related b Ordering.isLE = true :=
  Relates.lessOrEqual.holds_iff

theorem holds_lessOrEqual_range (hc : c ≠ .null) :
    lessOrEqual.Holds [a, b, c] ↔
      a.related b Ordering.isLE = true ∧ b.related c Ordering.isLE = true := by
  have hbound : c.isNull = false := by
    cases c with
    | null => contradiction
    | _ => rfl
  simp [Holds, result?, operand, hbound]

/-- A range check holds if and only if its two halves do, and then its bounds are in order. With null
for its upper bound it is the check of the lower one. -/
theorem range_check (a b c : Value) :
    (c ≠ .null →
      (lessOrEqual.Holds [a, b, c] ↔ lessOrEqual.Holds [a, b] ∧ lessOrEqual.Holds [b, c]) ∧
        (lessOrEqual.Holds [a, b, c] → lessOrEqual.Holds [a, c])) ∧
      (c = .null → lessOrEqual.result? [a, b, c] = lessOrEqual.result? [a, b]) := by
  refine ⟨fun hc => ⟨?_, fun h => ?_⟩, ?_⟩
  · rw [holds_lessOrEqual_range hc, holds_lessOrEqual_pair, holds_lessOrEqual_pair]
  · obtain ⟨hab, hbc⟩ := (holds_lessOrEqual_range hc).mp h
    exact holds_lessOrEqual_pair.mpr (related_isLE_trans hab hbc)
  · rintro rfl
    rfl

theorem range_check_nested :
    let a := Value.array [.bool false]
    let b := Value.array [.null, .string "m"]
    let c := Value.array [.int 0, .string "n"]
    c ≠ .null ∧ lessOrEqual.Holds [a, b] ∧ lessOrEqual.Holds [b, c] ∧
      lessOrEqual.Holds [a, b, c] ∧ lessOrEqual.Holds [a, c] := by
  intro a b c
  have hc : c ≠ .null := nofun
  have hab : lessOrEqual.Holds [a, b] := holds_lessOrEqual_pair.mpr (by decide +kernel)
  have hbc : lessOrEqual.Holds [b, c] := holds_lessOrEqual_pair.mpr (by decide +kernel)
  obtain ⟨hhalves, hends⟩ := (range_check a b c).1 hc
  exact ⟨hc, hab, hbc, hhalves.mpr ⟨hab, hbc⟩, hends (hhalves.mpr ⟨hab, hbc⟩)⟩

/-- An upper bound that comes from an absent variable bounds nothing, though 2 is not at most null. -/
theorem range_check_null_bound :
    lessOrEqual.Holds [.int 1, .int 2, .null] ∧ ¬ lessOrEqual.Holds [.int 2, .null] ∧
      ¬ lessOrEqual.Holds [.int 1, .null] := by
  refine ⟨?_, ?_, ?_⟩
  · exact holds_lessOrEqual_pair.mpr (by decide +kernel)
  · exact mt holds_lessOrEqual_pair.mp (by decide +kernel)
  · exact mt holds_lessOrEqual_pair.mp (by decide +kernel)

end Operator
end JsonRules
