/-!
Magnitudes of the 64-bit binary format. A magnitude is counted in units of the smallest positive
number, 2^-1074, so it is a natural number. `spacing` is the distance to the next magnitude and
`nearest` rounds a quotient, which lands on the grid again (`onGrid_nearest`).
-/
namespace JsonRules.Binary64

/-- 53 significant bits are kept, so the grid is uniform below 2^53 units and doubles its step
at every further power of two. -/
def spacing (n : Nat) : Nat := Nat.pow 2 (n.log2 - 52)

def OnGrid (n : Nat) : Prop := spacing n ∣ n

instance (n : Nat) : Decidable (OnGrid n) := inferInstanceAs (Decidable (spacing n ∣ n))

/-- The integer nearest to `num / den`, a half going to the even neighbour. -/
def halfEven (num den : Nat) : Nat :=
  let q := num / den
  let r := num % den
  if 2 * r < den ∨ (2 * r = den ∧ q % 2 = 0) then q else q + 1

/-- The grid point nearest to `num / den` units, a tie going to the even multiple of the spacing. -/
def nearest (num den : Nat) : Nat :=
  let s := spacing (num / den)
  halfEven num (den * s) * s

/-- 2^1024 in units: the first magnitude too large for the format. -/
def limit : Nat := Nat.pow 2 2098

def one : Nat := Nat.pow 2 1074

theorem halfEven_cases (num den : Nat) :
    halfEven num den = num / den ∨ halfEven num den = num / den + 1 := by
  unfold halfEven
  dsimp only
  split
  · exact .inl rfl
  · exact .inr rfl

theorem spacing_eq_one {n : Nat} (h : n < Nat.pow 2 53) : spacing n = 1 := by
  by_cases hn : n = 0
  · subst hn; simp [spacing]
  · have := (Nat.log2_lt hn).2 h
    have h0 : n.log2 - 52 = 0 := by omega
    simp [spacing, h0]

theorem spacing_of_bounds {n e : Nat} (lo : Nat.pow 2 (52 + e) ≤ n)
    (hi : n < Nat.pow 2 (53 + e)) : spacing n = Nat.pow 2 e := by
  rw [Nat.pow_eq] at lo hi ⊢
  have hn : n ≠ 0 := by have := Nat.two_pow_pos (52 + e); omega
  have h : n.log2 = 52 + e :=
    (Nat.log2_eq_iff hn).2 ⟨lo, by rw [show 52 + e + 1 = 53 + e by omega]; exact hi⟩
  rw [spacing, h, Nat.add_sub_cancel_left, Nat.pow_eq]

theorem onGrid_mul {k e : Nat} (hk : k ≤ Nat.pow 2 53) (he : e = 0 ∨ Nat.pow 2 52 ≤ k) :
    OnGrid (k * Nat.pow 2 e) := by
  simp only [Nat.pow_eq] at hk he ⊢
  unfold OnGrid
  by_cases htop : k = 2 ^ 53
  · subst htop
    rw [spacing_of_bounds (e := e + 1)]
    · exact ⟨2 ^ 52, by rw [Nat.pow_eq, ← Nat.pow_add, ← Nat.pow_add]; congr 1; omega⟩
    · rw [Nat.pow_eq, ← Nat.pow_add]; exact Nat.pow_le_pow_right (by omega) (by omega)
    · rw [Nat.pow_eq, ← Nat.pow_add]; exact Nat.pow_lt_pow_right (by omega) (by omega)
  · have hlt : k < 2 ^ 53 := by omega
    rcases he with rfl | he
    · rw [Nat.pow_zero, Nat.mul_one, spacing_eq_one hlt]
      exact Nat.one_dvd k
    · rw [spacing_of_bounds (e := e)]
      · exact Nat.dvd_mul_left _ _
      · rw [Nat.pow_eq, Nat.pow_add]; exact Nat.mul_le_mul_right _ he
      · rw [Nat.pow_eq, Nat.pow_add]; exact Nat.mul_lt_mul_of_pos_right hlt (Nat.two_pow_pos e)

theorem onGrid_nearest (num den : Nat) : OnGrid (nearest num den) := by
  unfold nearest
  dsimp only
  by_cases h : num / den < 2 ^ 53
  · rw [spacing_eq_one h, Nat.mul_one]
    have hk : halfEven num den ≤ 2 ^ 53 := by
      rcases halfEven_cases num den with e | e <;> omega
    simpa using onGrid_mul (e := 0) hk (.inl rfl)
  · have h0 : num / den ≠ 0 := by omega
    have hl : 53 ≤ (num / den).log2 := (Nat.le_log2 h0).2 (by omega)
    have lo := Nat.log2_self_le h0
    have hi := Nat.lt_log2_self (n := num / den)
    rw [spacing, Nat.pow_eq]
    generalize he : (num / den).log2 - 52 = e
    have hL : (num / den).log2 = 52 + e := by omega
    rw [hL] at lo hi
    have hq : num / (den * 2 ^ e) = num / den / 2 ^ e := (Nat.div_div_eq_div_mul ..).symm
    have lo' : 2 ^ 52 ≤ num / den / 2 ^ e := by
      rw [Nat.le_div_iff_mul_le (Nat.two_pow_pos e), ← Nat.pow_add]; exact lo
    have hi' : num / den / 2 ^ e < 2 ^ 53 := by
      rw [Nat.div_lt_iff_lt_mul (Nat.two_pow_pos e), ← Nat.pow_add]
      rw [show 52 + e + 1 = 53 + e by omega] at hi
      exact hi
    rcases halfEven_cases num (den * 2 ^ e) with e' | e' <;> rw [e', hq]
    · exact onGrid_mul (Nat.le_of_lt hi') (.inr lo')
    · exact onGrid_mul hi' (.inr (Nat.le_succ_of_le lo'))

end JsonRules.Binary64
