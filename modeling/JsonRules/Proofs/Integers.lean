import JsonRules.Proofs.Agreement
import JsonRules.Proofs.Rounding

/-!
The order of integers. Integers are equal by their own value and ordered by the binary numbers that they
round to. Rounding never turns two integers around, so the operators disagree with the integers only where
two of them round to one number (`Blurred`), and then the two tie. Such integers need more than 53 bits
and are close together.
-/
namespace JsonRules

namespace Value

variable {i j : Int64}

theorem order?_int (i j : Int64) :
    (Value.int i).order? (.int j) =
      some (compare (Binary64.placeOf i.toInt) (Binary64.placeOf j.toInt)) :=
  Binary64.compare?_ofInt i.toInt j.toInt

theorem blurred_int_iff :
    Blurred (.int i) (.int j) ↔
      i ≠ j ∧ Binary64.placeOf i.toInt = Binary64.placeOf j.toInt := by
  have hround : (ofInt64 i == ofInt64 j) = true ↔
      Binary64.placeOf i.toInt = Binary64.placeOf j.toInt := by
    rw [Binary64.beq_iff, ofInt64, ofInt64, Binary64.compare?_ofInt, Option.some.injEq,
      Int.compare_eq_eq]
  constructor
  · rintro ⟨hne, h⟩
    exact ⟨hne, hround.mp h⟩
  · rintro ⟨hne, h⟩
    exact .integers hne (hround.mpr h)

theorem order?_int_of_blurred (h : Blurred (.int i) (.int j)) :
    (Value.int i).order? (.int j) = some .eq := by
  rw [order?_int, (blurred_int_iff.mp h).2]
  exact congrArg some (Int.compare_eq_eq.mpr rfl)

theorem order?_int_of_not_blurred (h : ¬ Blurred (.int i) (.int j)) :
    (Value.int i).order? (.int j) = some (compare i.toInt j.toInt) := by
  have hplaces : Binary64.placeOf i.toInt = Binary64.placeOf j.toInt → i = j := fun heq =>
    not_not.mp fun hne => h (blurred_int_iff.mpr ⟨hne, heq⟩)
  rw [order?_int, Option.some.injEq]
  cases hij : compare i.toInt j.toInt with
  | lt =>
    have hlt := Int.compare_eq_lt.mp hij
    have hle := Binary64.placeOf_mono (Int.le_of_lt hlt)
    have hne : Binary64.placeOf i.toInt ≠ Binary64.placeOf j.toInt := fun heq => by
      rw [hplaces heq] at hlt
      omega
    exact Int.compare_eq_lt.mpr (by omega)
  | eq =>
    rw [Int.compare_eq_eq.mp hij]
    exact Int.compare_eq_eq.mpr rfl
  | gt =>
    have hlt := Int.compare_eq_gt.mp hij
    have hle := Binary64.placeOf_mono (Int.le_of_lt hlt)
    have hne : Binary64.placeOf i.toInt ≠ Binary64.placeOf j.toInt := fun heq => by
      rw [hplaces heq] at hlt
      omega
    exact Int.compare_eq_gt.mpr (by omega)

theorem range_of_blurred (h : Blurred (.int i) (.int j)) :
    (2 ^ 53 ≤ i.toInt ∧ 2 ^ 53 ≤ j.toInt ∨ i.toInt ≤ -2 ^ 53 ∧ j.toInt ≤ -2 ^ 53) ∧
      (i.toInt - j.toInt).natAbs ≤ 1024 := by
  obtain ⟨hne, hplace⟩ := blurred_int_iff.mp h
  have hne : i.toInt ≠ j.toInt := fun heq => hne (Int64.toInt_inj.mp heq)
  have hi : i.toInt.natAbs ≤ 2 ^ 63 := by
    have := i.le_toInt
    have := i.toInt_lt
    omega
  have hj : j.toInt.natAbs ≤ 2 ^ 63 := by
    have := j.le_toInt
    have := j.toInt_lt
    omega
  have hij := Binary64.close_of_placeOf_eq hi hj hplace
  have hji := Binary64.close_of_placeOf_eq hj hi hplace.symm
  refine ⟨?_, by omega⟩
  by_cases hlt : i.toInt < j.toInt
  · have := Binary64.far_of_placeOf_eq hlt hplace
    omega
  · have := Binary64.far_of_placeOf_eq (by omega : j.toInt < i.toInt) hplace.symm
    omega

end Value

namespace Operator
open Value

variable {i j : Int64}

/-- The operator that asks for an order of its operands. -/
def asking : Ordering → Operator
  | .lt => less
  | .eq => equal
  | .gt => greater

theorem mem_asking_iff {op : Operator} : op ∈ [less, equal, greater] ↔ ∃ o, op = asking o := by
  constructor
  · intro hop
    simp only [List.mem_cons, List.not_mem_nil, or_false] at hop
    obtain rfl | rfl | rfl := hop
    · exact ⟨.lt, rfl⟩
    · exact ⟨.eq, rfl⟩
    · exact ⟨.gt, rfl⟩
  · rintro ⟨o, rfl⟩
    cases o <;> decide

theorem holds_equal_int_iff : equal.Holds [.int i, .int j] ↔ i.toInt = j.toInt := by
  have hequal : (Value.int i == .int j) = (i == j) := rfl
  rw [holds_equal_iff, hequal, beq_iff_eq, Int64.toInt_inj]

section Apart

variable (h : ¬ Blurred (.int i) (.int j))
include h

theorem holds_less_int_iff : less.Holds [.int i, .int j] ↔ i.toInt < j.toInt := by
  rw [Relates.less.holds_iff_of_order? (order?_int_of_not_blurred h), Ordering.isLT_iff_eq_lt,
    Int.compare_eq_lt]

theorem holds_greater_int_iff : greater.Holds [.int i, .int j] ↔ i.toInt > j.toInt := by
  rw [Relates.greater.holds_iff_of_order? (order?_int_of_not_blurred h), Ordering.isGT_iff_eq_gt,
    Int.compare_eq_gt]

theorem holds_lessOrEqual_int_iff : lessOrEqual.Holds [.int i, .int j] ↔ i.toInt ≤ j.toInt := by
  rw [Relates.lessOrEqual.holds_iff_of_order? (order?_int_of_not_blurred h), Int.isLE_compare]

theorem holds_greaterOrEqual_int_iff :
    greaterOrEqual.Holds [.int i, .int j] ↔ i.toInt ≥ j.toInt := by
  rw [Relates.greaterOrEqual.holds_iff_of_order? (order?_int_of_not_blurred h), Int.isGE_compare]

theorem holds_asking_int_iff (o : Ordering) :
    (asking o).Holds [.int i, .int j] ↔ compare i.toInt j.toInt = o := by
  cases o with
  | lt => exact (holds_less_int_iff h).trans Int.compare_eq_lt.symm
  | eq => exact holds_equal_int_iff.trans Int.compare_eq_eq.symm
  | gt => exact (holds_greater_int_iff h).trans Int.compare_eq_gt.symm

theorem existsUnique_holds_int :
    ∃! op, op ∈ [less, equal, greater] ∧ op.Holds [.int i, .int j] := by
  refine ⟨asking (compare i.toInt j.toInt), ⟨mem_asking_iff.mpr ⟨_, rfl⟩, ?_⟩, ?_⟩
  · exact (holds_asking_int_iff h _).mpr rfl
  · rintro op ⟨hop, hholds⟩
    obtain ⟨o, rfl⟩ := mem_asking_iff.mp hop
    rw [(holds_asking_int_iff h o).mp hholds]

end Apart

/-- The relational operators order integers as integers, unless these are different and round to one
number: then they tie, and none of the three operators that tell values apart holds. -/
theorem integers_ordered (i j : Int64) :
    (¬ Blurred (.int i) (.int j) →
      (less.Holds [.int i, .int j] ↔ i.toInt < j.toInt) ∧
        (lessOrEqual.Holds [.int i, .int j] ↔ i.toInt ≤ j.toInt) ∧
        (greater.Holds [.int i, .int j] ↔ i.toInt > j.toInt) ∧
        (greaterOrEqual.Holds [.int i, .int j] ↔ i.toInt ≥ j.toInt) ∧
        ∃! op, op ∈ [less, equal, greater] ∧ op.Holds [.int i, .int j]) ∧
      (Blurred (.int i) (.int j) →
        ((2 ^ 53 ≤ i.toInt ∧ 2 ^ 53 ≤ j.toInt ∨ i.toInt ≤ -2 ^ 53 ∧ j.toInt ≤ -2 ^ 53) ∧
          (i.toInt - j.toInt).natAbs ≤ 1024) ∧
        (∀ op ∈ [less, equal, greater], ¬ op.Holds [.int i, .int j]) ∧
        lessOrEqual.Holds [.int i, .int j] ∧ greaterOrEqual.Holds [.int i, .int j]) := by
  refine ⟨fun h => ⟨holds_less_int_iff h, holds_lessOrEqual_int_iff h, holds_greater_int_iff h,
    holds_greaterOrEqual_int_iff h, existsUnique_holds_int h⟩, fun h => ?_⟩
  have htie := order?_int_of_blurred h
  refine ⟨range_of_blurred h, ?_, (Relates.lessOrEqual.holds_iff_of_order? htie).mpr rfl,
    (Relates.greaterOrEqual.holds_iff_of_order? htie).mpr rfl⟩
  have hne : i.toInt ≠ j.toInt := mt Int64.toInt_inj.mp (blurred_int_iff.mp h).1
  simp [Relates.less.holds_iff_of_order? htie, Relates.greater.holds_iff_of_order? htie,
    holds_equal_int_iff, hne]

theorem integers_ordered_times :
    let i : Int64 := 1700000000000000000
    let j : Int64 := 1700000000000000100
    let k : Int64 := 1700000000000000300
    (¬ Blurred (.int i) (.int k) ∧ less.Holds [.int i, .int k] ∧
      ¬ greaterOrEqual.Holds [.int i, .int k]) ∧
      (Blurred (.int i) (.int j) ∧ ¬ less.Holds [.int i, .int j] ∧
        greaterOrEqual.Holds [.int i, .int j]) := by
  intro i j k
  have hik : ¬ Blurred (.int i) (.int k) := by
    rw [blurred_int_iff]
    decide +kernel
  have hij : Blurred (.int i) (.int j) := .integers (by decide) (by decide +kernel)
  obtain ⟨hless, -, -, hatLeast, -⟩ := (integers_ordered i k).1 hik
  obtain ⟨-, hnone, -, htie⟩ := (integers_ordered i j).2 hij
  exact ⟨⟨hik, hless.mpr (by decide), mt hatLeast.mp (by decide)⟩,
    ⟨hij, hnone less List.mem_cons_self, htie⟩⟩

/-- The first two integers above zero that are not ordered. -/
theorem integers_not_ordered :
    let i : Int64 := 9007199254740992
    let j : Int64 := 9007199254740993
    i < j ∧ ¬ less.Holds [.int i, .int j] ∧ ¬ equal.Holds [.int i, .int j] ∧
      ¬ greater.Holds [.int i, .int j] ∧ greaterOrEqual.Holds [.int i, .int j] := by
  intro i j
  have hij : Blurred (.int i) (.int j) := .integers (by decide) (by decide +kernel)
  have htie := order?_int_of_blurred hij
  refine ⟨by decide, ?_, ?_, ?_, ?_⟩
  · exact mt (Relates.less.holds_iff_of_order? htie).mp (by decide)
  · exact mt holds_equal_int_iff.mp (by decide)
  · exact mt (Relates.greater.holds_iff_of_order? htie).mp (by decide)
  · exact (Relates.greaterOrEqual.holds_iff_of_order? htie).mpr rfl

end Operator

end JsonRules
