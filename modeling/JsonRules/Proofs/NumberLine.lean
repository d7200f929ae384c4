import JsonRules.Binary64

/-!
Order and equality of binary numbers. Both are those of places on the number line, where NaN has
none: numbers that have a place are ordered in full, and NaN is ordered with nothing. A whole number
has its own place as long as 53 bits hold it (`position?_ofInt`).
-/
namespace JsonRules

/-- How two comparisons chain: equal on the way is neutral and less prevails. -/
theorem compare_then {α : Type} [Ord α] [Std.TransOrd α] {a b c : α}
    (hab : (compare a b).isLE) (hbc : (compare b c).isLE) :
    compare a c = (compare a b).then (compare b c) := by
  cases hab' : compare a b with
  | lt => exact Std.TransCmp.lt_of_lt_of_isLE hab' hbc
  | eq => exact Std.TransCmp.congr_left hab'
  | gt => simp [hab'] at hab

namespace Binary64

theorem compare?_eq_some_iff {x y : Binary64} {o : Ordering} :
    x.compare? y = some o ↔
      ∃ i j, x.position? = some i ∧ y.position? = some j ∧ compare i j = o := by
  simp [compare?, Option.bind_eq_some_iff]

theorem compare?_swap (x y : Binary64) : y.compare? x = (x.compare? y).map Ordering.swap := by
  unfold compare?
  cases x.position? <;> cases y.position? <;> simp [Int.compare_swap]

theorem compare?_trans {x y z : Binary64} {o₁ o₂ : Ordering} (h₁ : o₁.isLE) (h₂ : o₂.isLE)
    (hxy : x.compare? y = some o₁) (hyz : y.compare? z = some o₂) :
    x.compare? z = some (o₁.then o₂) := by
  obtain ⟨i, j, hi, hj, rfl⟩ := compare?_eq_some_iff.mp hxy
  obtain ⟨j', k, hj', hk, rfl⟩ := compare?_eq_some_iff.mp hyz
  obtain rfl := Option.some.inj (hj.symm.trans hj')
  exact compare?_eq_some_iff.mpr ⟨i, k, hi, hk, compare_then h₁ h₂⟩

theorem beq_iff {x y : Binary64} : (x == y) = true ↔ x.compare? y = some .eq := by
  change (x.compare? y == some .eq) = true ↔ _
  exact beq_iff_eq

theorem beq_comm (x y : Binary64) : (x == y) = (y == x) := by
  rw [Bool.eq_iff_iff, beq_iff, beq_iff, compare?_swap x y]
  cases h : x.compare? y with
  | none => simp
  | some o => cases o <;> simp

theorem beq_trans {x y z : Binary64} (hxy : (x == y) = true) (hyz : (y == z) = true) :
    (x == z) = true :=
  beq_iff.mpr (compare?_trans rfl rfl (beq_iff.mp hxy) (beq_iff.mp hyz))

theorem beq_self_iff (x : Binary64) : (x == x) = true ↔ x ≠ .nan := by
  rw [beq_iff, compare?_eq_some_iff]
  cases x with
  | nan => exact iff_of_false (fun ⟨_, _, h, _⟩ => nomatch h) (not_not_intro rfl)
  | infinity negative => exact iff_of_true ⟨_, _, rfl, rfl, Int.compare_eq_eq.mpr rfl⟩ nofun
  | finite x => exact iff_of_true ⟨_, _, rfl, rfl, Int.compare_eq_eq.mpr rfl⟩ nofun

theorem ofInt_ne_nan (i : Int) : ofInt i ≠ .nan := by
  unfold ofInt ofQuotient
  split <;> simp

section Exact

theorem nearest_of_onGrid {n : Nat} (h : OnGrid n) : nearest n 1 = n := by
  have hmod : n % spacing n = 0 := Nat.mod_eq_zero_of_dvd h
  have hpos : 0 < spacing n := Nat.two_pow_pos _
  unfold nearest halfEven
  dsimp only
  rw [Nat.div_one, Nat.one_mul, hmod, if_pos (.inl hpos)]
  exact Nat.div_mul_cancel h

theorem onGrid_mul_pow {k e : Nat} (hk : k ≤ Nat.pow 2 53) (he : 52 ≤ e) :
    OnGrid (k * Nat.pow 2 e) := by
  rw [Nat.pow_eq] at hk
  by_cases hlarge : 2 ^ 52 ≤ k
  · exact onGrid_mul hk (.inr hlarge)
  · rcases Nat.eq_zero_or_pos k with rfl | hpos
    · exact (Nat.zero_mul (Nat.pow 2 e)).symm ▸ Nat.dvd_zero _
    · -- With the leading bit moved up to its place all 53 bits are there.
      have hne : k ≠ 0 := by omega
      have hlog : k.log2 < 52 := (Nat.log2_lt hne).mpr (by omega)
      obtain ⟨shift, hshift⟩ := Nat.le.dest (Nat.le_of_lt hlog)
      obtain ⟨rest, rfl⟩ := Nat.le.dest (show shift ≤ e by omega)
      have hlo : 2 ^ 52 ≤ k * 2 ^ shift := by
        have := Nat.mul_le_mul_right (2 ^ shift) (Nat.log2_self_le hne)
        rwa [← Nat.pow_add, hshift] at this
      have hhi : k * 2 ^ shift ≤ 2 ^ 53 := by
        have := Nat.mul_le_mul_right (2 ^ shift) (Nat.le_of_lt (Nat.lt_log2_self (n := k)))
        rwa [← Nat.pow_add, show k.log2 + 1 + shift = 53 by omega] at this
      have hsplit : k * Nat.pow 2 (shift + rest) = k * 2 ^ shift * Nat.pow 2 rest := by
        rw [Nat.pow_eq, Nat.pow_eq, Nat.pow_add, Nat.mul_assoc]
      rw [hsplit]
      exact onGrid_mul hhi (.inr hlo)

theorem position?_ofInt {i : Int} (h : i.natAbs ≤ Nat.pow 2 53) :
    (ofInt i).position? = some (i * one) := by
  have hgrid : OnGrid (i.natAbs * one) := by
    obtain ⟨e, he, hone⟩ : ∃ e, 52 ≤ e ∧ one = Nat.pow 2 e :=
      ⟨1074, by decide, by unfold one; rfl⟩
    rw [hone]
    exact onGrid_mul_pow h he
  have hlt : i.natAbs * one < limit :=
    calc i.natAbs * one ≤ Nat.pow 2 53 * one := Nat.mul_le_mul_right _ h
      _ < limit := by decide +kernel
  have hsign : (if i < 0 then -((i.natAbs * one : Nat) : Int) else (i.natAbs * one : Nat)) =
      i * one := by
    rw [Int.natCast_mul]
    split
    · rw [← Int.neg_mul, show -(i.natAbs : Int) = i by omega]
    · rw [show (i.natAbs : Int) = i by omega]
  have hnearest := nearest_of_onGrid hgrid
  unfold ofInt ofQuotient
  rw [dif_pos (hnearest.symm ▸ hlt)]
  simp only [position?, Finite.toInt, hnearest, decide_eq_true_eq]
  exact congrArg some hsign

end Exact

end Binary64
end JsonRules
