import JsonRules.Proofs.Dates
import JsonRules.Proofs.Relations

/-!
The order of dates and the order of their texts. Digits of one width are ordered as the numbers they
write (`compare_twoDigits_append`, `compare_fourDigits_append`), and a date is written with its year
before its month before its day, so from the year zero on dates are in the order of their texts
(`compare_text`). The relational operators then answer alike for two such texts and for the dates they
write. Before the year zero the order of the texts is that of the years without their sign.
-/
namespace JsonRules

section Texts

theorem compareOfLessAndEq_cons (a b : Char) (as bs : List Char) :
    compareOfLessAndEq (a :: as) (b :: bs) = (compare a b).then (compareOfLessAndEq as bs) := by
  have hchars : compare a b = compareOfLessAndEq a b := rfl
  rw [hchars]
  simp only [compareOfLessAndEq, List.cons_lt_cons_iff, List.cons.injEq]
  by_cases hlt : a < b
  · simp [hlt]
  · by_cases heq : a = b <;> simp [hlt, heq]

theorem compare_toList (s t : String) : compare s t = compare s.toList t.toList := by
  have hlists : ∀ as bs : List Char, compareOfLessAndEq as bs = compare as bs := by
    intro as
    induction as with
    | nil => intro bs; cases bs <;> rfl
    | cons a as ih =>
      intro bs
      cases bs with
      | nil => rfl
      | cons b bs => rw [compareOfLessAndEq_cons, List.compare_cons_cons, ih]
  rw [← hlists]
  change compareOfLessAndEq s t = _
  simp only [compareOfLessAndEq, String.lt_iff, String.toList_inj]

end Texts

namespace Date

section Digits

theorem compare_digitChar :
    ∀ m < 10, ∀ n < 10, compare (Nat.digitChar m) (Nat.digitChar n) = compare m n := by
  decide

theorem compare_eq_div_then_mod (base m n : Nat) :
    compare m n = (compare (m / base) (n / base)).then (compare (m % base) (n % base)) := by
  have hm := Nat.div_add_mod m base
  have hn := Nat.div_add_mod n base
  rcases Nat.lt_trichotomy (m / base) (n / base) with hlt | heq | hgt
  · rw [Nat.compare_eq_lt.mpr hlt, Nat.compare_eq_lt.mpr (Nat.lt_of_div_lt_div hlt)]
    rfl
  · rw [heq] at hm
    have hlt : m < n ↔ m % base < n % base := by omega
    have hgt : n < m ↔ n % base < m % base := by omega
    rw [heq, Std.compare_self, Ordering.eq_then, Nat.compare_eq_ite_lt, Nat.compare_eq_ite_lt]
    simp only [hlt, hgt]
  · rw [Nat.compare_eq_gt.mpr hgt, Nat.compare_eq_gt.mpr (Nat.lt_of_div_lt_div hgt)]
    rfl

variable (m n : Nat) (cs ds : List Char)

theorem compare_twoDigits_append :
    compare (twoDigits m ++ cs) (twoDigits n ++ ds) =
      (compare (m % 100) (n % 100)).then (compare cs ds) := by
  have htens (k : Nat) : k / 10 % 10 = k % 100 / 10 := by omega
  have hones (k : Nat) : k % 10 = k % 100 % 10 := by omega
  have hchars (i j : Nat) :
      compare (Nat.digitChar (i % 10)) (Nat.digitChar (j % 10)) = compare (i % 10) (j % 10) :=
    compare_digitChar _ (Nat.mod_lt i (by decide)) _ (Nat.mod_lt j (by decide))
  rw [compare_eq_div_then_mod 10 (m % 100) (n % 100), ← htens, ← htens, ← hones, ← hones]
  simp only [twoDigits, List.cons_append, List.nil_append, List.compare_cons_cons, hchars,
    Ordering.then_assoc]

theorem compare_fourDigits_append {m n : Nat} (hm : m ≤ 9999) (hn : n ≤ 9999) :
    compare (fourDigits m ++ cs) (fourDigits n ++ ds) =
      (compare m n).then (compare cs ds) := by
  have hundreds {k : Nat} (hk : k ≤ 9999) : k / 100 % 100 = k / 100 := by omega
  rw [fourDigits, fourDigits, List.append_assoc, List.append_assoc, compare_twoDigits_append,
    compare_twoDigits_append, hundreds hm, hundreds hn, ← Ordering.then_assoc,
    ← compare_eq_div_then_mod]

theorem compare_unsignedChars {year year' month month' day day' : Nat} (hyear : year ≤ 9999)
    (hyear' : year' ≤ 9999) :
    compare (unsignedChars year month day) (unsignedChars year' month' day') =
      ((compare year year').then (compare (month % 100) (month' % 100))).then
        (compare (day % 100) (day' % 100)) := by
  have hdays := compare_twoDigits_append day day' [] []
  rw [List.append_nil, List.append_nil, List.compare_nil_nil, Ordering.then_eq] at hdays
  simp only [unsignedChars, List.append_assoc, List.cons_append, Ordering.then_assoc, Std.compare_self,
    compare_fourDigits_append _ _ hyear hyear', List.compare_cons_cons, Ordering.eq_then,
    compare_twoDigits_append, hdays]

end Digits

variable {d e : Date}

theorem compare_text (hd : 0 ≤ d.year) (he : 0 ≤ e.year) : compare d.text e.text = compare d e := by
  have hyears : compare d.year e.year = compare d.year.natAbs e.year.natAbs := by
    have hlt : d.year < e.year ↔ d.year.natAbs < e.year.natAbs := by omega
    have hgt : e.year < d.year ↔ e.year.natAbs < d.year.natAbs := by omega
    rw [Int.compare_eq_ite_lt, Nat.compare_eq_ite_lt]
    simp only [hlt, hgt]
  have hmonth := d.month_mem.2
  have hmonth' := e.month_mem.2
  have hday := d.day_le
  have hday' := e.day_le
  have hdates : compare d e =
      ((compare d.year e.year).then (compare d.month e.month)).then (compare d.day e.day) := rfl
  rw [compare_toList, text, text, String.toList_ofList, String.toList_ofList, chars_of_nonneg hd,
    chars_of_nonneg he, compare_unsignedChars d.year_le e.year_le, hdates, hyears,
    Nat.mod_eq_of_lt (by omega), Nat.mod_eq_of_lt (by omega), Nat.mod_eq_of_lt (by omega),
    Nat.mod_eq_of_lt (by omega)]

/-- The text starts with a digit, and not with a sign. -/
def IsUnsigned (s : String) : Prop := s.toList.head?.any Char.isDigit = true

instance : DecidablePred IsUnsigned := fun s =>
  inferInstanceAs (Decidable (s.toList.head?.any Char.isDigit = true))

theorem IsUnsigned.parse?_iff {s : String} (h : IsUnsigned s) :
    parse? s = some d ↔ 0 ≤ d.year ∧ d.text = s := by
  unfold IsUnsigned at h
  rw [parse?, text, ← String.toList_inj, String.toList_ofList]
  cases hchars : s.toList with
  | nil => rw [hchars] at h; contradiction
  | cons c cs =>
    rw [hchars] at h
    rw [ofChars?_of_isDigit h, unsigned?_false_iff]

end Date

open Value

/-- Two texts of dates that start with a digit are ordered as the dates they write, so no relational
operator tells whether it is given the texts or the dates. -/
theorem date_texts_ordered_as_dates {s t : String} {d e : Date} (hs : Date.IsUnsigned s)
    (ht : Date.IsUnsigned t) (hd : Date.parse? s = some d) (he : Date.parse? t = some e) :
    (Value.string s).compare? (.string t) = (Value.date d).compare? (.date e) ∧
      (Value.string s).withDates = .date d ∧ (Value.string t).withDates = .date e ∧
      ∀ op ∈ [Operator.less, .lessOrEqual, .greater, .greaterOrEqual],
        op.result? [(Value.string s).withDates, (Value.string t).withDates] =
          op.result? [.string s, .string t] := by
  have horder : (Value.string s).compare? (.string t) = (Value.date d).compare? (.date e) := by
    obtain ⟨hyear, rfl⟩ := hs.parse?_iff.mp hd
    obtain ⟨hyear', rfl⟩ := ht.parse?_iff.mp he
    exact congrArg some (Date.compare_text hyear hyear')
  have hsd : (Value.string s).withDates = .date d := dateOfText_of_parse? hd
  have hte : (Value.string t).withDates = .date e := dateOfText_of_parse? he
  have hrelated (accepts : Ordering → Bool) :
      (Value.date d).related (.date e) accepts = (Value.string s).related (.string t) accepts :=
    congrArg (Option.any accepts) horder.symm
  have hresult {op : Operator} {accepts : Ordering → Bool} (h : op.Relates accepts) :
      op.result? [.date d, .date e] = op.result? [.string s, .string t] := by
    rw [h.result?_pair, h.result?_pair, hrelated]
  refine ⟨horder, hsd, hte, ?_⟩
  rw [hsd, hte]
  simp only [List.forall_mem_cons]
  exact ⟨hresult .less, hresult .lessOrEqual, hresult .greater, hresult .greaterOrEqual, nofun⟩

theorem date_texts_ordered_as_dates_leap :
    let d : Date := ⟨2023, 12, 31, by decide, by decide, by decide⟩
    let e : Date := ⟨2024, 2, 29, by decide, by decide, by decide⟩
    (Date.IsUnsigned "2023-12-31" ∧ Date.IsUnsigned "2024-02-29" ∧
        Date.parse? "2023-12-31" = some d ∧ Date.parse? "2024-02-29" = some e) ∧
      (Value.date d).compare? (.date e) = some .lt ∧
      Operator.greaterOrEqual.result?
        [(Value.string "2023-12-31").withDates, (Value.string "2024-02-29").withDates] =
          some (.bool false) := by
  intro d e
  have hs : Date.IsUnsigned "2023-12-31" := by decide
  have ht : Date.IsUnsigned "2024-02-29" := by decide
  have hd : Date.parse? "2023-12-31" = some d := by decide
  have he : Date.parse? "2024-02-29" = some e := by decide
  obtain ⟨horder, -, -, hresult⟩ := date_texts_ordered_as_dates hs ht hd he
  refine ⟨⟨hs, ht, hd, he⟩, ?_, ?_⟩
  · rw [← horder]
    decide
  · rw [hresult _ (by decide)]
    rfl

/-- Behind a minus sign the later year is the lesser text. -/
example :
    (Value.string "-0002-01-01").compare? (.string "-0001-01-01") = some .gt ∧
      (Value.string "-0002-01-01").withDates.compare? (Value.string "-0001-01-01").withDates =
        some .lt := by
  decide

end JsonRules
