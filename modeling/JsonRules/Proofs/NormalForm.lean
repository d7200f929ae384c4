import JsonRules.Proofs.Agreement
import JsonRules.Proofs.Rounding

/-!
The comparable form as a normal form. It is its own comparable form, and it is truthy where the value is:
no integer is rounded to zero (`isZero_ofInt`), and containers keep their length. It ties with itself
unless there is an object or NaN in the value, and then it has no order to itself.
-/
namespace JsonRules

theorem Binary64.isZero_ofInt (i : Int) : (ofInt i).isZero = (i == 0) := by
  have hzero : placeOf 0 = 0 := (placeOf_eq (by decide)).trans (Int.zero_mul _)
  rw [Bool.eq_iff_iff, isZero, position?_ofInt_eq, beq_iff_eq, beq_iff_eq, Option.some.injEq]
  rcases Int.lt_trichotomy i 0 with hneg | rfl | hpos
  · have hlt := placeOf_lt (show i ≤ -1 by omega) (show (-1 : Int) < 0 by omega) (by omega) (by omega)
    omega
  · exact iff_of_true hzero rfl
  · have hlt := placeOf_lt (Int.le_refl 0) hpos (by omega) (by omega)
    omega

namespace Value

theorem comparableLeaf_comparableLeaf (v : Value) :
    comparableLeaf (comparableLeaf v) = comparableLeaf v := by
  cases v <;> rfl

theorem isLeaf_comparableLeaf {v : Value} (h : v.isLeaf = true) :
    (comparableLeaf v).isLeaf = true := by
  cases v with
  | array => contradiction
  | object => contradiction
  | _ => rfl

theorem comparable_comparable (v : Value) : v.comparable.comparable = v.comparable := by
  have hleaf (v : Value) : v.isLeaf = true → (comparableLeaf v).isLeaf = true :=
    isLeaf_comparableLeaf
  have hcomp : comparableLeaf ∘ comparableLeaf = comparableLeaf :=
    funext comparableLeaf_comparableLeaf
  rw [comparable, comparable, mapLeaves_mapLeaves comparableLeaf hleaf, hcomp]

theorem isFalsey_comparable (v : Value) : v.comparable.isFalsey = v.isFalsey := by
  cases v with
  | null => exact Binary64.isZero_ofInt 0
  | bool b =>
    have hform : (Value.bool b).comparable = .float (if b then 1 else 0) := rfl
    rw [hform, isFalsey]
    cases b with
    | false =>
      rw [if_neg Bool.false_ne_true]
      exact Binary64.isZero_ofInt 0
    | true =>
      rw [if_pos rfl]
      exact Binary64.isZero_ofInt 1
  | int n =>
    refine (Binary64.isZero_ofInt n.toInt).trans ?_
    rw [Bool.eq_iff_iff, beq_iff_eq, isFalsey, beq_iff_eq, ← Int64.toInt_inj, Int64.toInt_zero]
  | array items =>
    rw [comparable_array]
    exact List.isEmpty_map
  | object fields =>
    rw [comparable_object]
    exact List.isEmpty_map
  | _ => rfl

section Ties

theorem compareItems?_self_iff {items : List Value} :
    compareItems? items items = some .eq ↔ ∀ item ∈ items, item.compare? item = some .eq := by
  induction items with
  | nil => simp [compareItems?]
  | cons item rest ih =>
    rw [compareItems?_cons_iff, ih, List.forall_mem_cons]
    exact or_iff_left fun h => h.1 rfl

theorem order?_self_iff_of_number {v : Value} {x : Binary64} (h : v.number? = some x) :
    v.order? v = some .eq ↔ .float .nan ≠ v := by
  rw [Ne, eq_nan_iff_of_number h, order?, comparable_of_number h]
  exact Binary64.beq_iff.symm.trans (Binary64.beq_self_iff x)

theorem order?_self_iff (v : Value) :
    v.order? v = some .eq ↔ v.HasNoObject ∧ .float .nan ∉ v.parts := by
  induction v using structural_induction with
  | leaf v hleaf =>
    rw [and_iff_right (hasNoObject_of_isLeaf hleaf), parts_of_isLeaf hleaf, List.mem_singleton]
    cases hnumber : v.number? with
    | some x => exact order?_self_iff_of_number hnumber
    | none =>
      refine iff_of_true (order?_self_of_isLeaf hleaf hnumber) ?_
      rintro rfl
      contradiction
  | array items ih =>
    rw [order?, comparable_array, compare?, compareItems?_self_iff, List.forall_mem_map,
      hasNoObject_array_iff, parts, partsOfItems_eq]
    simp only [List.mem_cons, List.mem_flatMap, reduceCtorEq, false_or, not_exists, not_and,
      ← forall₂_and]
    exact forall₂_congr ih
  | object fields ih =>
    have hnone : (Value.object fields).order? (.object fields) = none := rfl
    rw [hnone]
    exact iff_of_false (Option.some_ne_none _).symm fun h => not_hasNoObject_object fields h.1

end Ties

/-- The comparable form is its own, has the truth of the value, and ties with itself just when there is
neither an object nor NaN in the value, at any depth; else it has no order to itself. -/
theorem comparable_normal_form (v : Value) :
    v.comparable.comparable = v.comparable ∧ v.comparable.isFalsey = v.isFalsey ∧
      (v.comparable.compare? v.comparable = some .eq ↔ v.HasNoObject ∧ .float .nan ∉ v.parts) ∧
      (v.comparable.compare? v.comparable = none ↔ ¬ (v.HasNoObject ∧ .float .nan ∉ v.parts)) := by
  refine ⟨comparable_comparable v, isFalsey_comparable v, order?_self_iff v, ?_⟩
  rw [← order?_self_iff v, ← order?]
  cases h : v.order? v with
  | none => exact iff_of_true rfl (Option.some_ne_none _).symm
  | some o =>
    obtain rfl := eq_of_order?_self h
    exact iff_of_false (Option.some_ne_none _) fun hne => hne rfl

end Value
end JsonRules
