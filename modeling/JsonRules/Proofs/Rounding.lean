import JsonRules.Proofs.NumberLine
import Mathlib.Algebra.Ring.Int.Defs
import Mathlib.Algebra.Ring.Nat

/-!
Rounding keeps order. A quotient never leaves the stretch between two powers of two in which it lies, and
within one stretch the grid is uniform, so of two quotients the larger is not rounded to less
(`nearest_mono`). The whole numbers are placed on the number line in their order (`placeOf_mono`), and up
to 53 bits no two of them share a place (`placeOf_lt`).
-/
namespace JsonRules.Binary64

variable {m n num den : Nat}

section Nearest

theorem halfEven_mono (h : m ≤ n) : halfEven m den ≤ halfEven n den := by
  have hm := halfEven_cases m den
  have hn := halfEven_cases n den
  have hquotient : m / den ≤ n / den := Nat.div_le_div_right h
  by_cases hsame : m / den = n / den
  · have hremainder : m % den ≤ n % den := by
      have hm := Nat.div_add_mod m den
      have hn := Nat.div_add_mod n den
      rw [hsame] at hm
      omega
    unfold halfEven
    dsimp only
    rw [hsame]
    split <;> split <;> omega
  · omega

theorem log2_mono (h : m ≤ n) : m.log2 ≤ n.log2 := by
  by_cases hm : m = 0
  · subst hm
    exact Nat.zero_le _
  · have hn : n ≠ 0 := by omega
    exact (Nat.le_log2 hn).mpr (Nat.le_trans (Nat.log2_self_le hm) h)

theorem spacing_pos (n : Nat) : 0 < spacing n := Nat.two_pow_pos _

theorem spacing_dvd {e : Nat} (h : n.log2 ≤ e) : spacing n ∣ 2 ^ e :=
  Nat.pow_dvd_pow 2 (by omega)

theorem pow_log2_le_nearest (h : num / den ≠ 0) : 2 ^ (num / den).log2 ≤ nearest num den := by
  obtain ⟨k, hk⟩ := spacing_dvd (n := num / den) (Nat.le_refl _)
  have hspacing := spacing_pos (num / den)
  have hquotient : k ≤ num / (den * spacing (num / den)) := by
    rw [← Nat.div_div_eq_div_mul, Nat.le_div_iff_mul_le hspacing, Nat.mul_comm, ← hk]
    exact Nat.log2_self_le h
  have hcases := halfEven_cases num (den * spacing (num / den))
  rw [hk, Nat.mul_comm]
  exact Nat.mul_le_mul_right _ (by omega)

theorem nearest_le_pow_log2 (num den : Nat) : nearest num den ≤ 2 ^ ((num / den).log2 + 1) := by
  obtain ⟨k, hk⟩ := spacing_dvd (n := num / den) (Nat.le_succ _)
  have hspacing := spacing_pos (num / den)
  have hquotient : num / (den * spacing (num / den)) < k := by
    rw [← Nat.div_div_eq_div_mul, Nat.div_lt_iff_lt_mul hspacing, Nat.mul_comm, ← hk]
    exact Nat.lt_log2_self
  have hcases := halfEven_cases num (den * spacing (num / den))
  rw [hk, Nat.mul_comm]
  exact Nat.mul_le_mul_right _ (by omega)

theorem nearest_mono (h : m ≤ n) (den : Nat) : nearest m den ≤ nearest n den := by
  have hquotient : m / den ≤ n / den := Nat.div_le_div_right h
  by_cases hsame : (m / den).log2 = (n / den).log2
  · have hspacing : spacing (m / den) = spacing (n / den) := by rw [spacing, spacing, hsame]
    unfold nearest
    dsimp only
    rw [hspacing]
    exact Nat.mul_le_mul_right _ (halfEven_mono h)
  · have hlog : (m / den).log2 < (n / den).log2 := by
      have := log2_mono hquotient
      omega
    have hne : n / den ≠ 0 := by
      intro hzero
      simp [hzero] at hlog
    calc nearest m den ≤ 2 ^ ((m / den).log2 + 1) := nearest_le_pow_log2 m den
      _ ≤ 2 ^ (n / den).log2 := Nat.pow_le_pow_right (by decide) hlog
      _ ≤ nearest n den := pow_log2_le_nearest hne

theorem nearest_error (n : Nat) :
    2 * n ≤ 2 * nearest n 1 + spacing n ∧ 2 * nearest n 1 ≤ 2 * n + spacing n := by
  have hsum := Nat.div_add_mod n (spacing n)
  have hlt := Nat.mod_lt n (spacing_pos n)
  unfold nearest halfEven
  dsimp only
  rw [Nat.div_one, Nat.one_mul]
  split
  · rw [Nat.mul_comm (n / spacing n)]
    omega
  · rw [Nat.add_mul, Nat.one_mul, Nat.mul_comm (n / spacing n)]
    omega

end Nearest

section Whole

variable {i j k : Int}

/-- The magnitude of a whole number in units, rounded. What is too large stands at the limit. -/
def magnitudeOf (n : Nat) : Nat := min (nearest (n * one) 1) limit

def placeOf (i : Int) : Int := if i < 0 then -(magnitudeOf i.natAbs : Int) else magnitudeOf i.natAbs

theorem position?_ofQuotient (negative : Bool) (num den : Nat) :
    (ofQuotient negative num den).position? =
      some (if negative then -((min (nearest num den) limit : Nat) : Int)
        else (min (nearest num den) limit : Nat)) := by
  unfold ofQuotient
  split
  next hlt =>
    rw [Nat.min_eq_left (Nat.le_of_lt hlt)]
    rfl
  next hlt =>
    rw [Nat.min_eq_right (Nat.le_of_not_lt hlt)]
    rfl

theorem position?_ofInt_eq (i : Int) : (ofInt i).position? = some (placeOf i) := by
  rw [ofInt, position?_ofQuotient, placeOf, magnitudeOf]
  simp only [decide_eq_true_eq]

theorem compare?_ofInt (i j : Int) :
    (ofInt i).compare? (ofInt j) = some (compare (placeOf i) (placeOf j)) :=
  compare?_eq_some_iff.mpr ⟨_, _, position?_ofInt_eq i, position?_ofInt_eq j, rfl⟩

theorem magnitudeOf_mono (h : m ≤ n) : magnitudeOf m ≤ magnitudeOf n := by
  have hnearest := nearest_mono (Nat.mul_le_mul_right one h) 1
  unfold magnitudeOf
  omega

theorem placeOf_mono (h : i ≤ j) : placeOf i ≤ placeOf j := by
  unfold placeOf
  by_cases hi : i < 0
  · by_cases hj : j < 0
    · have := magnitudeOf_mono (show j.natAbs ≤ i.natAbs by omega)
      rw [if_pos hi, if_pos hj]
      omega
    · rw [if_pos hi, if_neg hj]
      omega
  · have := magnitudeOf_mono (show i.natAbs ≤ j.natAbs by omega)
    rw [if_neg hi, if_neg (show ¬ j < 0 by omega)]
    omega

theorem placeOf_eq (h : i.natAbs ≤ Nat.pow 2 53) : placeOf i = i * one :=
  Option.some.inj ((position?_ofInt_eq i).symm.trans (position?_ofInt h))

/-- Two neighbours that 53 bits hold keep apart all that is on either side of them. -/
theorem placeOf_lt (hik : i ≤ k) (hkj : k < j) (hlo : -(2 ^ 53) ≤ k) (hhi : k < 2 ^ 53) :
    placeOf i < placeOf j := by
  have hk : placeOf k = k * one := placeOf_eq (by rw [Nat.pow_eq]; omega)
  have hnext : placeOf (k + 1) = (k + 1) * one := placeOf_eq (by rw [Nat.pow_eq]; omega)
  have hone : (0 : Int) < one := by decide +kernel
  calc placeOf i ≤ placeOf k := placeOf_mono hik
    _ < placeOf (k + 1) := by rw [hk, hnext, Int.add_mul]; omega
    _ ≤ placeOf j := placeOf_mono hkj

theorem spacing_mul_one_le (h : n < 2 ^ 63) : spacing (n * one) ≤ 1024 * one := by
  have hlt : n * one < 2 ^ 1137 :=
    calc n * one < 2 ^ 63 * one := Nat.mul_lt_mul_of_pos_right h (by decide +kernel)
      _ = 2 ^ 1137 := by decide +kernel
  have hlog : (n * one).log2 ≤ 1136 := by
    by_cases hzero : n * one = 0
    · rw [hzero]
      decide
    · have := (Nat.log2_lt hzero).mpr hlt
      omega
  calc spacing (n * one) ≤ 2 ^ 1084 := Nat.pow_le_pow_right (by decide) (by omega)
    _ = 1024 * one := by decide +kernel

theorem magnitudeOf_error (h : n ≤ 2 ^ 63) :
    n * one ≤ magnitudeOf n + 512 * one ∧ magnitudeOf n ≤ n * one + 512 * one := by
  have hlimit : n * one ≤ limit :=
    calc n * one ≤ 2 ^ 63 * one := Nat.mul_le_mul_right _ h
      _ ≤ limit := by decide +kernel
  have hnearest : 2 * (n * one) ≤ 2 * nearest (n * one) 1 + 1024 * one ∧
      2 * nearest (n * one) 1 ≤ 2 * (n * one) + 1024 * one := by
    by_cases htop : n = 2 ^ 63
    · have hgrid : OnGrid (2 ^ 63 * one) := by decide +kernel
      rw [htop, nearest_of_onGrid hgrid]
      omega
    · have herror := nearest_error (n * one)
      have hspacing := spacing_mul_one_le (n := n) (by omega)
      omega
  unfold magnitudeOf
  omega

theorem placeOf_error (h : i.natAbs ≤ 2 ^ 63) :
    i * one ≤ placeOf i + 512 * one ∧ placeOf i ≤ i * one + 512 * one := by
  have herror := magnitudeOf_error h
  have hcast : ((i.natAbs * one : Nat) : Int) = i.natAbs * one := Int.natCast_mul _ _
  unfold placeOf
  split
  next hneg =>
    rw [show i = -(i.natAbs : Int) by omega, Int.neg_mul, Int.natAbs_neg, Int.natAbs_natCast]
    omega
  next hnonneg =>
    rw [show i = (i.natAbs : Int) by omega, Int.natAbs_natCast]
    omega

theorem far_of_placeOf_eq (hij : i < j) (h : placeOf i = placeOf j) : 2 ^ 53 ≤ i ∨ j ≤ -2 ^ 53 := by
  by_cases hi : 2 ^ 53 ≤ i
  · exact .inl hi
  · by_cases hj : j ≤ -2 ^ 53
    · exact .inr hj
    · have hik : i ≤ max i (-2 ^ 53) := by omega
      have hlt := placeOf_lt hik (by omega : max i (-2 ^ 53) < j) (by omega) (by omega)
      omega

theorem close_of_placeOf_eq (hi : i.natAbs ≤ 2 ^ 63) (hj : j.natAbs ≤ 2 ^ 63)
    (h : placeOf i = placeOf j) : i ≤ j + 1024 := by
  have hone : (0 : Int) < one := by decide +kernel
  have hi' := placeOf_error hi
  have hj' := placeOf_error hj
  have hle : i * one ≤ (j + 1024) * one := by
    rw [Int.add_mul]
    omega
  exact Int.le_of_mul_le_mul_right hle hone

end Whole

end JsonRules.Binary64
