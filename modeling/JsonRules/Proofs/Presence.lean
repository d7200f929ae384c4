import JsonRules.Evaluation
import JsonRules.Proofs.Rounding

/-!
Present and missing variables. A name is missing if the value of its variable is null, and the two
operators that list missing names list just these, in the order and as often as they are given. With a
threshold they list all of them or none (`missingSome_eq`), and all of them if they do for a lower one.
-/
namespace JsonRules

namespace Binary64

variable {x y z : Binary64}

theorem le_iff : x.le y = true ↔ ∃ i j, x.position? = some i ∧ y.position? = some j ∧ i ≤ j := by
  unfold le compare?
  cases x.position? <;> cases y.position? <;> simp [Int.isLE_compare]

theorem lt_iff : x.lt y = true ↔ ∃ i j, x.position? = some i ∧ y.position? = some j ∧ i < j := by
  unfold lt compare?
  cases x.position? <;> cases y.position? <;> simp [Int.compare_eq_lt]

theorem le_trans (hxy : x.le y = true) (hyz : y.le z = true) : x.le z = true := by
  obtain ⟨i, j, hi, hj, hij⟩ := le_iff.mp hxy
  obtain ⟨j', k, hj', hk, hjk⟩ := le_iff.mp hyz
  obtain rfl := Option.some.inj (hj.symm.trans hj')
  exact le_iff.mpr ⟨i, k, hi, hk, Int.le_trans hij hjk⟩

theorem lt_of_le_of_lt (hxy : x.le y = true) (hyz : y.lt z = true) : x.lt z = true := by
  obtain ⟨i, j, hi, hj, hij⟩ := le_iff.mp hxy
  obtain ⟨j', k, hj', hk, hjk⟩ := lt_iff.mp hyz
  obtain rfl := Option.some.inj (hj.symm.trans hj')
  exact lt_iff.mpr ⟨i, k, hi, hk, Int.lt_of_le_of_lt hij hjk⟩

theorem le_ofInt_iff {n : Nat} (h : n ≤ Nat.pow 2 53) :
    x.le (ofInt n) = true ↔ ∃ place, x.position? = some place ∧ place ≤ n * one := by
  have hcount : (ofInt n).position? = some (n * one) := position?_ofInt (Int.natAbs_natCast n ▸ h)
  rw [le_iff, hcount]
  constructor
  · rintro ⟨i, j, hi, hj, hij⟩
    obtain rfl := Option.some.inj hj
    exact ⟨i, hi, hij⟩
  · rintro ⟨i, hi, hij⟩
    exact ⟨i, _, hi, rfl, hij⟩

end Binary64

namespace Value

variable {data : Value}

theorem isNull_variableValue (data name : Value) :
    (data.variableValue name none).isNull = data.isMissing name := by
  unfold variableValue isMissing
  cases data.lookup? name with
  | none => rfl
  | some v => cases v <;> rfl

theorem missing_eq_filter (data : Value) (names : List Value) :
    data.missing names = names.filter fun name => (data.variableValue name none).isNull := by
  simp only [isNull_variableValue]
  rfl

theorem countP_not_isMissing (data : Value) (names : List Value) :
    names.countP (fun name => !data.isMissing name) = names.length - (data.missing names).length := by
  have hall := List.length_eq_countP_add_countP data.isMissing (l := names)
  have hmissing : (data.missing names).length = names.countP data.isMissing :=
    List.countP_eq_length_filter.symm
  simp only [Bool.not_eq_true, Bool.decide_eq_false] at hall
  omega

/-- The threshold asks for nothing, or enough names are present. -/
def IsMet (threshold : Value) (present : Nat) : Prop :=
  threshold.toNumber.lt 1 = true ∨ threshold.toNumber.le (Binary64.ofInt present) = true

instance (threshold : Value) (present : Nat) : Decidable (threshold.IsMet present) :=
  inferInstanceAs (Decidable (_ ∨ _))

theorem missingSome_eq (data threshold : Value) (names : List Value) :
    data.missingSome threshold names =
      if threshold.IsMet (names.length - (data.missing names).length) then []
      else data.missing names := by
  unfold missingSome
  rw [countP_not_isMissing]
  exact if_congr Bool.or_eq_true_iff rfl rfl

theorem IsMet.mono {lower higher : Value} {present : Nat}
    (h : lower.toNumber.le higher.toNumber = true) (hmet : higher.IsMet present) :
    lower.IsMet present := by
  rcases hmet with hone | hpresent
  · exact .inl (Binary64.lt_of_le_of_lt h hone)
  · exact .inr (Binary64.le_trans h hpresent)

end Value

open Value Eval

/-- The names that are listed as missing are those whose variables are null. A threshold suppresses them
if it is below one or if the other names are as many. A count of more than 53 bits is rounded before it is
compared. -/
theorem presence_agrees (data : Value) (names : List Value) :
    let absent := names.filter fun name => (readData .var data [name]).isNull
    let present := names.length - absent.length
    readData .missing data names = .array absent ∧
      (∀ threshold : Value, readData .missingSome data [threshold, .array names] =
        if threshold.toNumber.lt 1 = true ∨ threshold.toNumber.le (Binary64.ofInt present) = true then
          .array []
        else
          .array absent) ∧
      (present ≤ Nat.pow 2 53 → ∀ x : Binary64, x.le (Binary64.ofInt present) = true ↔
        ∃ place, x.position? = some place ∧ place ≤ present * Binary64.one) ∧
      ∀ lower higher : Value, lower.toNumber.le higher.toNumber = true →
        readData .missingSome data [lower, .array names] = .array [] ∨
          readData .missingSome data [lower, .array names] =
            readData .missingSome data [higher, .array names] := by
  intro absent present
  have habsent : data.missing names = absent := missing_eq_filter data names
  have hsome (threshold : Value) : readData .missingSome data [threshold, .array names] =
      if threshold.IsMet present then .array [] else .array absent := by
    change Value.array (data.missingSome threshold names) = _
    rw [missingSome_eq, habsent, apply_ite Value.array]
  refine ⟨congrArg Value.array habsent, hsome, fun h x => Binary64.le_ofInt_iff h, ?_⟩
  intro lower higher h
  rw [hsome lower, hsome higher]
  by_cases hlower : lower.IsMet present
  · exact .inl (if_pos hlower)
  · have hhigher : ¬ higher.IsMet present := mt (IsMet.mono h) hlower
    rw [if_neg hlower, if_neg hhigher]
    exact .inr rfl

theorem presence_agrees_order :
    let data := Value.object [("id", .int 7), ("paid", .null)]
    let names : List Value := [.string "id", .string "paid", .string "note", .string "note"]
    let absent : List Value := [.string "paid", .string "note", .string "note"]
    1 ≤ Nat.pow 2 53 ∧
      (Value.int 2).toNumber.le (Value.string "3.5 names").toNumber = true ∧
      (Value.string "1 name").toNumber.le (Binary64.ofInt 1) = true ∧
      readData .missing data names = .array absent ∧
      readData .missingSome data [.string "1 name", .array names] = .array [] ∧
      readData .missingSome data [.int 2, .array names] = .array absent ∧
      readData .missingSome data [.int 2, .array names] =
        readData .missingSome data [.string "3.5 names", .array names] := by
  intro data names absent
  have hbits : 1 ≤ Nat.pow 2 53 := by decide
  have hthresholds : (Value.int 2).toNumber.le (Value.string "3.5 names").toNumber = true := by
    decide +kernel
  obtain ⟨hmissing, hsome, hcount, hmono⟩ := presence_agrees data names
  have habsent : (names.filter fun name => (readData .var data [name]).isNull) = absent := rfl
  rw [habsent] at hmissing hsome hcount
  have hone : (Value.string "1 name").toNumber.le (Binary64.ofInt 1) = true :=
    (hcount hbits _).mpr ⟨Binary64.one, by decide +kernel, by decide +kernel⟩
  have hall : readData .missingSome data [.int 2, .array names] = .array absent := by
    rw [hsome, if_neg (by decide +kernel)]
  refine ⟨hbits, hthresholds, hone, hmissing, ?_, hall, ?_⟩
  · rw [hsome, if_pos (.inr hone)]
  · refine (hmono _ _ hthresholds).resolve_left ?_
    rw [hall]
    exact fun h => List.cons_ne_nil _ _ (Value.array.inj h)

end JsonRules
