import JsonRules.Operator.Table
import Mathlib.Algebra.Order.Field.Basic
import Mathlib.Data.Rat.Floor

/-!
Remainders of integers. The remainder that goes with a quotient rounded down lies between zero and the
divisor (`fmod_between`). Machine words divide toward zero instead, and a remainder that has the other
sign than the divisor is moved by it (`fmod_eq_moved`). Numbers of opposite signs never add up to more
than a word, so the remainder can be computed in words alone (`toInt_wordRemainder`).
-/
namespace JsonRules

section Whole

variable {b : Int}

theorem fmod_between (a : Int) (hb : b ≠ 0) :
    0 ≤ a.fmod b ∧ a.fmod b < b ∨ b < a.fmod b ∧ a.fmod b ≤ 0 := by
  have hlo := Int.emod_nonneg a hb
  have hhi := Int.emod_lt a hb
  simp only [Int.fmod_eq_emod, Int.dvd_iff_emod_eq_zero]
  split <;> omega

theorem floor_div_eq_fdiv (a : Int) (hb : b ≠ 0) : ⌊(a : ℚ) / b⌋ = a.fdiv b := by
  have hquotient : (a : ℚ) / b = a.fdiv b + a.fmod b / b := by
    have hsum : (a : ℚ) = a.fmod b + b * a.fdiv b := by
      exact_mod_cast (Int.fmod_add_mul_fdiv a b).symm
    have hb' : (b : ℚ) ≠ 0 := by exact_mod_cast hb
    rw [hsum]
    field_simp
    ring
  have hfraction : (0 : ℚ) ≤ a.fmod b / b ∧ (a.fmod b : ℚ) / b < 1 := by
    rcases fmod_between a hb with ⟨hlo, hhi⟩ | ⟨hhi, hlo⟩
    · have hpos : (0 : ℚ) < b := by exact_mod_cast lt_of_le_of_lt hlo hhi
      exact ⟨div_nonneg (by exact_mod_cast hlo) hpos.le,
        (div_lt_one hpos).mpr (by exact_mod_cast hhi)⟩
    · have hneg : (b : ℚ) < 0 := by exact_mod_cast lt_of_lt_of_le hhi hlo
      exact ⟨div_nonneg_of_nonpos (by exact_mod_cast hlo) hneg.le,
        (div_lt_one_of_neg hneg).mpr (by exact_mod_cast hhi)⟩
  rw [Int.floor_eq_iff, hquotient]
  constructor <;> linarith

theorem fmod_eq_moved (a b : Int) :
    a.fmod b = if Operator.HasSignOf (a.tmod b) b then a.tmod b else a.tmod b + b := by
  unfold Operator.HasSignOf
  simp only [Int.fmod_eq_tmod, Int.dvd_iff_tmod_eq_zero]
  by_cases ha : 0 ≤ a
  · have hsign := Int.tmod_nonneg b ha
    split_ifs <;> omega
  · have hsign := Int.tmod_nonneg b (show 0 ≤ -a by omega)
    rw [Int.neg_tmod] at hsign
    split_ifs <;> omega

end Whole

namespace Operator

section Words

variable {x y : Int64}

theorem toInt_ne_zero (hy : y ≠ 0) : y.toInt ≠ 0 := fun h => hy (Int64.toInt_inj.mp h)

theorem fmod_range (x : Int64) (hy : y ≠ 0) :
    -2 ^ 63 ≤ x.toInt.fmod y.toInt ∧ x.toInt.fmod y.toInt < 2 ^ 63 := by
  have hbetween := fmod_between x.toInt (toInt_ne_zero hy)
  have hlo := y.le_toInt
  have hhi := y.toInt_lt
  omega

theorem toInt_moved (hy : y ≠ 0) (h : ¬ HasSignOf (x % y).toInt y.toInt) :
    (x % y + y).toInt = (x % y).toInt + y.toInt := by
  have hfmod := fmod_eq_moved x.toInt y.toInt
  rw [← Int64.toInt_mod, if_neg h] at hfmod
  have hrange := fmod_range x hy
  rw [Int64.toInt_add, ← hfmod]
  apply Int.bmod_eq_of_le <;> omega

theorem toInt_wordRemainder (x : Int64) (hy : y ≠ 0) :
    (wordRemainder x y).toInt = x.toInt.fmod y.toInt := by
  rw [fmod_eq_moved, ← Int64.toInt_mod, wordRemainder, apply_ite Int64.toInt]
  split
  next => rfl
  next h => exact toInt_moved hy h

end Words

/-- The remainder of integers is the floored one, and where it is moved by the divisor the sum of the
words is that of the integers. Without a quotient of 64 bits it is NaN. -/
theorem modulo_floored (x y : Int64) :
    (y ≠ 0 → ¬ (x = Int64.minValue ∧ y = -1) →
      ∃ r : Int64, modulo.result? [.int x, .int y] = some (.int r) ∧
        r.toInt = x.toInt - y.toInt * ⌊(x.toInt : ℚ) / y.toInt⌋ ∧
        HasSignOf r.toInt y.toInt ∧ r.toInt.natAbs < y.toInt.natAbs ∧
        r = wordRemainder x y ∧
        (¬ HasSignOf (x % y).toInt y.toInt →
          (x % y + y).toInt = (x % y).toInt + y.toInt)) ∧
      (y = 0 ∨ x = Int64.minValue ∧ y = -1 →
        modulo.result? [.int x, .int y] = some (.float .nan)) := by
  have hresult : modulo.result? [.int x, .int y] = some (remainder (.int x) (.int y)) := rfl
  refine ⟨fun hy hquotient => ?_, fun h => by rw [hresult, remainder, if_pos h]⟩
  have hne := toInt_ne_zero hy
  have hr := toInt_wordRemainder x hy
  have hbetween := fmod_between x.toInt hne
  refine ⟨wordRemainder x y, ?_, ?_, ?_, ?_, rfl, toInt_moved hy⟩
  · rw [hresult, remainder, if_neg (not_or.mpr ⟨hy, hquotient⟩)]
  · rw [hr, floor_div_eq_fdiv _ hne, Int.fmod_def]
  · rw [hr, HasSignOf]
    omega
  · rw [hr]
    omega

theorem modulo_floored_min :
    let x := Int64.minValue
    (∃ r : Int64, modulo.result? [.int x, .int Int64.maxValue] = some (.int r) ∧
      r = 9223372036854775806 ∧ HasSignOf r.toInt Int64.maxValue.toInt ∧
      (x % Int64.maxValue + Int64.maxValue).toInt =
        (x % Int64.maxValue).toInt + Int64.maxValue.toInt) ∧
      modulo.result? [.int x, .int (-1)] = some (.float .nan) := by
  intro x
  obtain ⟨r, hr, -, hsign, -, hword, hsum⟩ :=
    (modulo_floored x Int64.maxValue).1 (by decide) (by decide)
  refine ⟨⟨r, hr, ?_, hsign, hsum (by decide)⟩, (modulo_floored x (-1)).2 (.inr ⟨rfl, rfl⟩)⟩
  rw [hword]
  decide

end Operator
end JsonRules
