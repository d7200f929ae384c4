import JsonRules.Binary64.Decimal
import JsonRules.Proofs.Rounding
import Mathlib.Algebra.Order.Field.Rat
import Mathlib.Tactic.NormNum
import Mathlib.Tactic.Ring

/-!
Decimals as binary numbers. Reading a decimal rounds its value to nearest, also where the answer is known
without computing it (`ofDecimal_eq_rounded`), so that two spellings of one value read as one number
(`rounded_congr`). The digits that a number is written in read back as that number (`rounded_shortest`).
-/
namespace JsonRules.Binary64

section Quotients

variable {num den num' den' k : Nat}

theorem nearest_scale (hk : 0 < k) (num den : Nat) : nearest (k * num) (k * den) = nearest num den := by
  have hscale (s : Nat) : halfEven (k * num) (k * den * s) = halfEven num (den * s) := by
    unfold halfEven
    dsimp only
    rw [Nat.mul_assoc, Nat.mul_div_mul_left _ _ hk, Nat.mul_mod_mul_left]
    have hbelow : 2 * (k * (num % (den * s))) < k * (den * s) ↔ 2 * (num % (den * s)) < den * s := by
      rw [Nat.mul_left_comm]
      exact Nat.mul_lt_mul_left hk
    have htie : 2 * (k * (num % (den * s))) = k * (den * s) ↔ 2 * (num % (den * s)) = den * s := by
      rw [Nat.mul_left_comm]
      exact Nat.mul_right_inj (Nat.ne_of_gt hk)
    simp only [hbelow, htie]
  unfold nearest
  rw [Nat.mul_div_mul_left _ _ hk]
  exact congrArg (· * _) (hscale _)

theorem nearest_congr (hden : 0 < den) (hden' : 0 < den') (h : num * den' = num' * den) :
    nearest num den = nearest num' den' :=
  calc nearest num den = nearest (den' * num) (den' * den) := (nearest_scale hden' num den).symm
    _ = nearest (den * num') (den * den') := by
        rw [Nat.mul_comm den' num, h, Nat.mul_comm num' den, Nat.mul_comm den' den]
    _ = nearest num' den' := nearest_scale hden num' den'

theorem nearest_zero (den : Nat) : nearest 0 den = 0 := by
  have hhalf (m : Nat) : halfEven 0 m = 0 := by
    unfold halfEven
    dsimp only
    rw [Nat.zero_div, Nat.zero_mod, Nat.mul_zero, if_pos]
    omega
  rw [nearest, hhalf, Nat.zero_mul]

theorem nearest_eq_zero (h : 2 * num < den) : nearest num den = 0 := by
  have hquotient : num / den = 0 := Nat.div_eq_of_lt (by omega)
  have hspacing : spacing 0 = 1 := rfl
  unfold nearest halfEven
  dsimp only
  rw [hquotient, hspacing, Nat.mul_one, Nat.mul_one, hquotient, Nat.mod_eq_of_lt (by omega),
    if_pos (.inl h)]

theorem onGrid_limit : OnGrid limit := by decide +kernel

theorem limit_le_nearest (h : limit ≤ num) : limit ≤ nearest num 1 := by
  have hmono := nearest_mono h 1
  rwa [nearest_of_onGrid onGrid_limit] at hmono

theorem ofQuotient_of_nearest_eq (negative : Bool) (h : nearest num den = nearest num' den') :
    ofQuotient negative num den = ofQuotient negative num' den' := by
  unfold ofQuotient
  simp only [h]

end Quotients

namespace Decimal

variable {d d' : Decimal}

/-- The rational number that a decimal is. -/
def value (d : Decimal) : Rat := d.coefficient * 10 ^ d.exponent

def rounded (negative : Bool) (d : Decimal) : Binary64 := ofQuotient negative d.numerator d.denominator

theorem denominator_pos (d : Decimal) : 0 < d.denominator := Nat.pow_pos (by decide)

theorem numerator_eq (d : Decimal) : (d.numerator : Rat) = d.value * one * d.denominator := by
  have hnumerator : (d.numerator : Rat) = d.coefficient * 10 ^ d.exponent.toNat * one := by
    rw [numerator, Nat.pow_eq, Nat.cast_mul, Nat.cast_mul, Nat.cast_pow, Nat.cast_ofNat]
  have hdenominator : (d.denominator : Rat) = 10 ^ (-d.exponent).toNat := by
    rw [denominator, Nat.pow_eq, Nat.cast_pow, Nat.cast_ofNat]
  rw [hnumerator, hdenominator, value]
  obtain ⟨n, hn | hn⟩ := Int.eq_nat_or_neg d.exponent
  · rw [hn, Int.toNat_natCast, Int.toNat_neg_natCast, zpow_natCast, pow_zero, mul_one]
  · have hpow : (10 : Rat) ^ n ≠ 0 := pow_ne_zero n (by decide)
    rw [hn, Int.neg_neg, Int.toNat_natCast, Int.toNat_neg_natCast, zpow_neg, zpow_natCast, pow_zero,
      mul_one, mul_right_comm, inv_mul_cancel_right₀ hpow]

theorem cross_eq_of_value_eq (h : d.value = d'.value) :
    d.numerator * d'.denominator = d'.numerator * d.denominator := by
  have hcross : (d.numerator : Rat) * d'.denominator = d'.numerator * d.denominator := by
    rw [numerator_eq d, numerator_eq d', h]
    ring
  exact_mod_cast hcross

theorem rounded_congr (negative : Bool) (h : d.value = d'.value) :
    d.rounded negative = d'.rounded negative :=
  ofQuotient_of_nearest_eq negative
    (nearest_congr d.denominator_pos d'.denominator_pos (cross_eq_of_value_eq h))

end Decimal

theorem two_mul_numerator_lt {d : Decimal} (h : d.exponent + d.coefficient.log2 + 1 < -400) :
    2 * d.numerator < d.denominator := by
  obtain ⟨n, hn⟩ := Int.eq_ofNat_of_zero_le (show 0 ≤ -d.exponent - d.coefficient.log2 - 402 by omega)
  have hexponent : (-d.exponent).toNat = n + (d.coefficient.log2 + 1) + 401 := by omega
  have hpositive : d.exponent.toNat = 0 := by omega
  have hcoefficient : d.coefficient < 10 ^ (d.coefficient.log2 + 1) :=
    calc d.coefficient < 2 ^ (d.coefficient.log2 + 1) := Nat.lt_log2_self
      _ ≤ 10 ^ (d.coefficient.log2 + 1) := Nat.pow_le_pow_left (by decide) _
  have hunit : 2 * one ≤ 10 ^ 401 := by decide +kernel
  calc 2 * d.numerator = d.coefficient * (2 * one) := by
        simp only [Decimal.numerator, hpositive, Nat.pow_eq, Nat.pow_zero]
        ring
    _ ≤ d.coefficient * 10 ^ 401 := Nat.mul_le_mul_left _ hunit
    _ < 10 ^ (d.coefficient.log2 + 1) * 10 ^ 401 :=
        Nat.mul_lt_mul_of_pos_right hcoefficient (by decide +kernel)
    _ ≤ 10 ^ n * (10 ^ (d.coefficient.log2 + 1) * 10 ^ 401) :=
        Nat.le_mul_of_pos_left _ (Nat.pow_pos (by decide))
    _ = d.denominator := by
        rw [Decimal.denominator, hexponent, Nat.pow_eq, Nat.pow_add 10 (n + _) 401,
          Nat.pow_add 10 n, Nat.mul_assoc]

theorem limit_le_numerator {d : Decimal} (hne : d.coefficient ≠ 0) (h : 400 < d.exponent) :
    limit ≤ d.numerator := by
  have hpow (n m : Nat) (hnm : n ≤ m) : 10 ^ n ≤ d.coefficient * 10 ^ m :=
    calc 10 ^ n ≤ 10 ^ m := Nat.pow_le_pow_right (by decide) hnm
      _ ≤ d.coefficient * 10 ^ m := Nat.le_mul_of_pos_left _ (Nat.pos_of_ne_zero hne)
  calc limit ≤ 10 ^ 401 * one := by decide +kernel
    _ ≤ d.numerator := Nat.mul_le_mul_right one (hpow 401 d.exponent.toNat (by omega))

theorem ofDecimal_eq_rounded (negative : Bool) (d : Decimal) :
    ofDecimal negative d = d.rounded negative := by
  unfold ofDecimal
  split
  next hsmall =>
    refine ofQuotient_of_nearest_eq negative ?_
    rw [nearest_zero]
    rcases hsmall with hzero | hsmall
    · rw [Decimal.numerator, hzero, Nat.zero_mul, Nat.zero_mul, nearest_zero]
    · exact (nearest_eq_zero (two_mul_numerator_lt hsmall)).symm
  next hsmall =>
    split
    next hlarge =>
      have hdenominator : d.denominator = 1 := by
        rw [Decimal.denominator, Int.toNat_of_nonpos (by omega), Nat.pow_eq, Nat.pow_zero]
      have hlimit := limit_le_nearest (limit_le_numerator (mt Or.inl hsmall) hlarge)
      rw [Decimal.rounded, ofQuotient, hdenominator, dif_neg (Nat.not_lt.mpr hlimit)]
    next hlarge => rfl

section Shortest

variable {tie : Tie} {x : Finite} {d : Decimal}

theorem nearest_of_readingBack {n : Nat} {place : Int} (h : readingBack tie n place = some d) :
    nearest d.numerator d.denominator = n := by
  simpa using List.find?_some h

theorem nearest_of_scaled {n p : Nat} (hcoefficient : d.coefficient = x.units * p)
    (hexponent : d.exponent = -n) (hp : p * one = Nat.pow 10 n) :
    nearest d.numerator d.denominator = x.units := by
  have hcross : d.numerator * 1 = x.units * d.denominator := by
    rw [Decimal.numerator, Decimal.denominator, hcoefficient, hexponent, Int.neg_neg,
      Int.toNat_natCast, Int.toNat_neg_natCast, ← hp]
    change x.units * p * 1 * one * 1 = x.units * (p * one)
    rw [Nat.mul_one, Nat.mul_one, Nat.mul_assoc]
  rw [nearest_congr d.denominator_pos Nat.one_pos hcross, nearest_of_onGrid x.onGrid]

theorem nearest_exactDecimal (x : Finite) :
    nearest x.exactDecimal.numerator x.exactDecimal.denominator = x.units :=
  nearest_of_scaled (n := 1074) rfl rfl (by decide +kernel)

theorem nearest_shortest (tie : Tie) (x : Finite) :
    nearest (x.shortest tie).numerator (x.shortest tie).denominator = x.units := by
  unfold Finite.shortest
  dsimp only
  cases hfound : (List.range 17).findSome? fun (i : Nat) =>
      readingBack tie x.units (leadingExponent x.units - i) with
  | none => exact nearest_exactDecimal x
  | some d =>
    obtain ⟨i, -, hi⟩ := List.exists_of_findSome?_eq_some hfound
    exact nearest_of_readingBack hi

theorem ofQuotient_of_nearest {num den : Nat} (h : nearest num den = x.units) :
    ofQuotient x.negative num den = .finite x := by
  unfold ofQuotient
  rw [dif_pos (h.symm ▸ x.units_lt)]
  simp only [h]

theorem rounded_shortest (tie : Tie) (x : Finite) :
    (x.shortest tie).rounded x.negative = .finite x :=
  ofQuotient_of_nearest (nearest_shortest tie x)

end Shortest

end JsonRules.Binary64
