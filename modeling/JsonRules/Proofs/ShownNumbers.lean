import JsonRules.Proofs.LeadingNumbers
import JsonRules.Proofs.Summaries

/-!
Numbers through text. The form in which a finite number is shown is a number as a whole
(`writes_shownNumber`), and it counts as the same number again: a whole number is shown exactly, and any
other in digits that read back.
-/
namespace JsonRules

namespace Text

theorem digitsValue_append (cs cs' : List Char) :
    digitsValue (cs ++ cs') = 10 ^ cs'.length * digitsValue cs + digitsValue cs' := by
  rw [digitsValue, Nat.ofDigitChars_append, Nat.ofDigitChars_eq_ofDigitChars_zero]
  rfl

theorem digitsValue_zeros (n : Nat) : digitsValue (List.replicate n '0') = 0 := by
  rw [digitsValue, Nat.ofDigitChars_replicate_zero, Nat.mul_zero]

theorem digitsValue_zeros_append (n : Nat) (cs : List Char) :
    digitsValue (List.replicate n '0' ++ cs) = digitsValue cs := by
  rw [digitsValue_append, digitsValue_zeros, Nat.mul_zero, Nat.zero_add]

theorem digitsValue_append_zeros (cs : List Char) (n : Nat) :
    digitsValue (cs ++ List.replicate n '0') = 10 ^ n * digitsValue cs := by
  rw [digitsValue_append, digitsValue_zeros, List.length_replicate, Nat.add_zero]

theorem isDigit_of_mem_zeros {n : Nat} {c : Char} (h : c ∈ List.replicate n '0') :
    c.isDigit = true := by
  rw [List.eq_of_mem_replicate h]
  rfl

theorem isDigits_decimalDigits (n : Nat) : IsDigits (decimalDigits n) :=
  ⟨decimalDigits_ne_nil n, fun _ => isDigit_of_mem_decimalDigits⟩

theorem isDigits_zero : IsDigits ['0'] := isDigits_decimalDigits 0

theorem writes_integer (i : Int) : Writes (integer i) (i < 0) ⟨decimalDigits i.natAbs, [], 0⟩ := by
  have hdigits := WritesDigits.whole (isDigits_decimalDigits i.natAbs)
  unfold integer
  split
  next h =>
    rw [decide_eq_true h, ← List.append_nil (decimalDigits i.natAbs)]
    exact .number .minus (by rwa [List.append_nil]) .absent
  next h =>
    rw [decide_eq_false h, ← List.append_nil (decimalDigits i.natAbs)]
    exact .number .absent (by rwa [List.append_nil]) .absent

end Text

namespace Binary64

open Text

variable {d : Decimal} {m : Nat} {x : Finite}

theorem Decimal.exists_zeros (d : Decimal) :
    ∃ n, decimalDigits d.coefficient = d.significant ++ List.replicate n '0' := by
  let digits := (decimalDigits d.coefficient).reverse
  have hzeros : digits.takeWhile (· == '0') =
      List.replicate (digits.takeWhile (· == '0')).length '0' := by
    refine List.eq_replicate_iff.mpr ⟨rfl, fun c hc => ?_⟩
    exact beq_iff_eq.mp (List.all_eq_true.mp List.all_takeWhile c hc)
  refine ⟨(digits.takeWhile (· == '0')).length, ?_⟩
  calc decimalDigits d.coefficient = digits.reverse := (List.reverse_reverse _).symm
    _ = (digits.takeWhile (· == '0') ++ digits.dropWhile (· == '0')).reverse := by
        rw [List.takeWhile_append_dropWhile]
    _ = d.significant ++ List.replicate (digits.takeWhile (· == '0')).length '0' := by
        rw [List.reverse_append, hzeros, List.reverse_replicate, List.length_replicate]
        rfl

theorem Decimal.isDigits_significant (h : d.coefficient ≠ 0) : IsDigits d.significant := by
  obtain ⟨n, hn⟩ := d.exists_zeros
  constructor
  · intro hnil
    rw [hnil, List.nil_append] at hn
    refine h ?_
    rw [← digitsValue_decimalDigits d.coefficient, hn, digitsValue_zeros]
  · intro c hc
    refine isDigit_of_mem_decimalDigits (n := d.coefficient) ?_
    rw [hn]
    exact List.mem_append_left _ hc

theorem Decimal.value_eq (d : Decimal) :
    d.value = digitsValue d.significant * 10 ^ (d.point - d.significant.length) := by
  obtain ⟨n, hn⟩ := d.exists_zeros
  have hcoefficient : d.coefficient = 10 ^ n * digitsValue d.significant := by
    rw [← digitsValue_append_zeros, ← hn, digitsValue_decimalDigits]
  have hpoint : d.point - d.significant.length = n + d.exponent := by
    have hlength := congrArg List.length hn
    rw [List.length_append, List.length_replicate] at hlength
    have hunfold : d.point = (decimalDigits d.coefficient).length + d.exponent := rfl
    omega
  rw [hpoint, value, hcoefficient, zpow_add₀ (by decide), zpow_natCast]
  push_cast
  ring

theorem value_decimal (whole fraction : List Char) :
    (⟨whole, fraction, 0⟩ : Numeral).decimal.value =
      digitsValue (whole ++ fraction) * 10 ^ (-(fraction.length : Int)) := by
  rw [Numeral.decimal, Decimal.value, Int.zero_sub]

theorem writesDigits_positional (h : d.coefficient ≠ 0) :
    ∃ whole fraction, WritesDigits d.positional whole fraction ∧
      (⟨whole, fraction, 0⟩ : Numeral).decimal.value = d.value := by
  obtain ⟨hne, hdigit⟩ := Decimal.isDigits_significant h
  rw [Decimal.value_eq]
  unfold Decimal.positional
  split
  next hpoint =>
    let zeros := List.replicate (-d.point).toNat '0'
    have hfraction : IsDigits (zeros ++ d.significant) :=
      ⟨List.append_ne_nil_of_right_ne_nil _ hne,
        List.forall_mem_append.mpr ⟨fun _ => isDigit_of_mem_zeros, hdigit⟩⟩
    refine ⟨['0'], zeros ++ d.significant, .both isDigits_zero hfraction, ?_⟩
    have hvalue : digitsValue (['0'] ++ (zeros ++ d.significant)) = digitsValue d.significant := by
      rw [← List.append_assoc]
      exact digitsValue_zeros_append ((-d.point).toNat + 1) d.significant
    rw [value_decimal, hvalue, List.length_append, List.length_replicate]
    congr 2
    omega
  next hpoint =>
    split
    next hwhole =>
      have hle : (d.significant.length : Int) ≤ d.point := of_decide_eq_true hwhole
      refine ⟨_, [], .whole ⟨List.append_ne_nil_of_left_ne_nil hne _,
        List.forall_mem_append.mpr ⟨hdigit, fun _ => isDigit_of_mem_zeros⟩⟩, ?_⟩
      obtain ⟨n, hn⟩ := Int.eq_ofNat_of_zero_le (Int.sub_nonneg.mpr hle)
      have hzeros : d.point.toNat - d.significant.length = n := by omega
      rw [value_decimal, List.append_nil, hzeros, digitsValue_append_zeros, hn, List.length_nil]
      push_cast
      rw [zpow_natCast, mul_one, mul_comm]
    next hwhole =>
      have hlt : d.point < d.significant.length := by
        rw [Decimal.isWhole, decide_eq_true_eq] at hwhole
        exact Int.not_le.mp hwhole
      have htake : IsDigits (d.significant.take d.point.toNat) := by
        refine ⟨fun hnil => ?_, fun c hc => hdigit c (List.mem_of_mem_take hc)⟩
        have hlength := congrArg List.length hnil
        rw [List.length_take, List.length_nil] at hlength
        omega
      have hdrop : IsDigits (d.significant.drop d.point.toNat) := by
        refine ⟨fun hnil => ?_, fun c hc => hdigit c (List.mem_of_mem_drop hc)⟩
        have hlength := congrArg List.length hnil
        rw [List.length_drop, List.length_nil] at hlength
        omega
      refine ⟨_, _, .both htake hdrop, ?_⟩
      rw [value_decimal, List.take_append_drop, List.length_drop]
      congr 2
      omega

theorem rounded_whole (h : m * one = x.units) :
    (⟨m, 0⟩ : Decimal).rounded x.negative = .finite x := by
  refine ofQuotient_of_nearest ?_
  have hnumerator : (⟨m, 0⟩ : Decimal).numerator = x.units := by
    rw [← h]
    exact congrArg (· * one) (Nat.mul_one m)
  rw [hnumerator]
  exact nearest_of_onGrid x.onGrid

theorem coefficient_shortest_ne_zero (tie : Tie) (h : x.units ≠ 0) :
    (x.shortest tie).coefficient ≠ 0 := by
  intro hzero
  refine h ?_
  rw [← nearest_shortest tie x, Decimal.numerator, hzero, Nat.zero_mul, Nat.zero_mul, nearest_zero]

theorem writesDigits_shownMagnitude (x : Finite) :
    ∃ whole fraction, WritesDigits (Value.shownMagnitude x) whole fraction ∧
      (⟨whole, fraction, 0⟩ : Numeral).decimal.rounded x.negative = .finite x := by
  unfold Value.shownMagnitude
  split
  next h =>
    let m := x.units / one
    refine ⟨decimalDigits m, ['0'], .both (isDigits_decimalDigits m) isDigits_zero, ?_⟩
    have hvalue : (⟨decimalDigits m, ['0'], 0⟩ : Numeral).decimal.value = (⟨m, 0⟩ : Decimal).value := by
      have hdigits : digitsValue (decimalDigits m ++ ['0']) = 10 ^ 1 * m := by
        have hshifted := digitsValue_append_zeros (decimalDigits m) 1
        rwa [digitsValue_decimalDigits] at hshifted
      rw [value_decimal, hdigits, Decimal.value, List.length_singleton]
      push_cast
      rw [zpow_neg, zpow_one]
      ring
    rw [Decimal.rounded_congr x.negative hvalue]
    exact rounded_whole (Nat.div_mul_cancel (Nat.dvd_of_mod_eq_zero h.1))
  next h =>
    have hunits : x.units ≠ 0 := by
      intro hzero
      refine h ?_
      rw [hzero]
      exact ⟨Nat.zero_mod _, by decide +kernel⟩
    obtain ⟨whole, fraction, hwrites, hvalue⟩ :=
      writesDigits_positional (coefficient_shortest_ne_zero .up hunits)
    refine ⟨whole, fraction, hwrites, ?_⟩
    rw [Decimal.rounded_congr x.negative hvalue, rounded_shortest]

theorem writes_shownNumber (x : Finite) :
    ∃ numeral, Writes (Value.shownNumber (.finite x)) x.negative numeral ∧
      numeral.decimal.rounded x.negative = .finite x := by
  obtain ⟨whole, fraction, hwrites, hrounded⟩ := writesDigits_shownMagnitude x
  refine ⟨⟨whole, fraction, 0⟩, ?_, hrounded⟩
  unfold Value.shownNumber
  dsimp only
  rw [← List.append_nil (Value.shownMagnitude x)]
  cases x.negative with
  | true => exact .number .minus hwrites .absent
  | false => exact .number .absent hwrites .absent

end Binary64

namespace Value

open Text

/-- An integer, or a binary number that is neither NaN nor infinite. -/
inductive FiniteNumber : Value → Prop
  | int (n : Int64) : FiniteNumber (.int n)
  | float (x : Binary64.Finite) : FiniteNumber (.float (.finite x))

theorem toNumber_display_int (n : Int64) : (Value.string (Value.int n).display).toNumber = ofInt64 n := by
  have hwrites : Writes (Value.int n).display.toList (n.toInt < 0)
      ⟨decimalDigits n.toInt.natAbs, [], 0⟩ := by
    have htext : (Value.int n).display.toList = integer n.toInt := String.toList_ofList
    rw [htext]
    exact writes_integer n.toInt
  rw [toNumber_string_of_writes hwrites, Numeral.decimal, List.append_nil, digitsValue_decimalDigits]
  change Binary64.ofQuotient _ (n.toInt.natAbs * 1 * Binary64.one) 1 = _
  rw [Nat.mul_one]
  rfl

theorem toNumber_display_float (x : Binary64.Finite) :
    (Value.string (Value.float (.finite x)).display).toNumber = .finite x := by
  obtain ⟨numeral, hwrites, hrounded⟩ := Binary64.writes_shownNumber x
  have htext : (Value.float (.finite x)).display.toList = shownNumber (.finite x) :=
    String.toList_ofList
  rw [← htext] at hwrites
  rw [toNumber_string_of_writes hwrites, hrounded]

theorem FiniteNumber.toNumber_display {v : Value} (h : v.FiniteNumber) :
    (Value.string v.display).toNumber = v.toNumber := by
  cases h with
  | int n => exact toNumber_display_int n
  | float x => exact toNumber_display_float x

theorem FiniteNumber.concatenated {v : Value} (h : v.FiniteNumber) :
    Operator.concatenated [v] = v.display := by
  cases h <;> exact String.empty_append

end Value

/-- A finite number counts as itself in the form in which it is shown, zero with its sign. So it makes no
difference to a sum whether a rule that gives a number stands in it or the text of its value. -/
theorem finiteNumber_through_text (v : Value) (hv : v.FiniteNumber) :
    (Value.string v.display).toNumber = v.toNumber ∧
      ∀ r data : Value, (apply r data).1 = .ok v →
        apply (.object [("+", .array [.object [("cat", .array [r])]])]) data =
          apply (.object [("+", .array [r])]) data := by
  refine ⟨hv.toNumber_display, fun r data hr => ?_⟩
  have hadd : Operator.named? "+" = some .add := rfl
  have hcat : Operator.named? "cat" = some .cat := rfl
  have htext : apply (.object [("cat", .array [r])]) data =
      (.ok (.string v.display), (apply r data).2) := by
    rw [apply_single hcat (by decide) (by decide) hr, Operator.valueOn, Operator.result?,
      Option.getD_some, hv.concatenated]
  rw [apply_single hadd (by decide) (by decide) (congrArg Prod.fst htext), htext,
    apply_single hadd (by decide) (by decide) hr]
  have hsum : Operator.sum [.string v.display] = Operator.sum [v] :=
    congrArg (Binary64.negativeZero + ·) hv.toNumber_display
  rw [Operator.valueOn, Operator.valueOn, Operator.result?, Operator.result?, hsum]
  rfl

theorem finiteNumber_through_text_both :
    let minusZero : Binary64.Finite := ⟨true, 0, by decide +kernel, by decide +kernel⟩
    let zero := Value.float (.finite minusZero)
    let data := Value.object [("x", zero)]
    let reference := Value.object [("var", .string "x")]
    let whole := Value.int 9007199254740993
    (zero.FiniteNumber ∧ (apply reference data).1 = .ok zero ∧
      (Value.string "-0.0").toNumber = .finite minusZero ∧
      apply (.object [("+", .array [.object [("cat", .array [reference])]])]) data =
        apply (.object [("+", .array [reference])]) data) ∧
      whole.FiniteNumber ∧ (apply whole data).1 = .ok whole ∧
      apply (.object [("+", .array [.object [("cat", .array [whole])]])]) data =
        apply (.object [("+", .array [whole])]) data := by
  intro minusZero zero data reference whole
  have hzero : zero.FiniteNumber := .float minusZero
  have hreference : (apply reference data).1 = .ok zero := rfl
  have hwhole : whole.FiniteNumber := .int _
  have hliteral : (apply whole data).1 = .ok whole := rfl
  obtain ⟨hcounts, hsums⟩ := finiteNumber_through_text zero hzero
  have hshown : zero.display = "-0.0" := by decide +kernel
  rw [hshown] at hcounts
  exact ⟨⟨hzero, hreference, hcounts, hsums reference data hreference⟩, hwhole, hliteral,
    (finiteNumber_through_text whole hwhole).2 whole data hliteral⟩

end JsonRules
