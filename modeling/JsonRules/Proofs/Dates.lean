import JsonRules.Proofs.Documents
import JsonRules.Proofs.Outcome
import JsonRules.Value.Lookup

/-!
Texts that are read as dates. Such a text is the text of its date, but for a plus sign, which is never
written, and for a minus sign in the year zero (`parse?_eq_some_iff`). With dates in the place of these
texts a value has the same parts under the same names, and where no text is spelled in one of the two
ways it is also the same document.
-/
namespace JsonRules

namespace Date

section Digits

theorem exists_digit {c : Char} (h : c.isDigit = true) : ∃ n, n < 10 ∧ c = Nat.digitChar n := by
  have hbounds : 48 ≤ c.toNat ∧ c.toNat ≤ 57 := Char.isDigit_iff_toNat.mp h
  have hlt : c.toNat - 48 < 10 := by omega
  refine ⟨c.toNat - 48, hlt, Char.toNat_inj.mp ?_⟩
  rw [Nat.toNat_digitChar_of_lt_ten hlt]
  omega

theorem digitsValue_cons {n : Nat} (hn : n < 10) (cs : List Char) (before : Nat) :
    Nat.ofDigitChars 10 (Nat.digitChar n :: cs) before =
      Nat.ofDigitChars 10 cs (10 * before + n) := by
  rw [Nat.ofDigitChars_cons, Nat.toNat_digitChar_of_lt_ten hn]
  congr 2
  show 48 + n - 48 = n
  omega

theorem digitsValue_pair {m n : Nat} (hm : m < 10) (hn : n < 10) :
    Text.digitsValue [Nat.digitChar m, Nat.digitChar n] = 10 * m + n := by
  rw [Text.digitsValue, digitsValue_cons hm, digitsValue_cons hn, Nat.ofDigitChars_nil]
  omega

theorem digitsValue_pairs (c₁ c₂ c₃ c₄ : Char) :
    Text.digitsValue [c₁, c₂, c₃, c₄] =
      100 * Text.digitsValue [c₁, c₂] + Text.digitsValue [c₃, c₄] := by
  simp only [Text.digitsValue, Nat.ofDigitChars_cons, Nat.ofDigitChars_nil]
  omega

theorem digitsValue_twoDigits (n : Nat) : Text.digitsValue (twoDigits n) = n % 100 := by
  rw [twoDigits, digitsValue_pair (Nat.mod_lt _ (by decide)) (Nat.mod_lt _ (by decide))]
  omega

theorem digitsValue_fourDigits {n : Nat} (hn : n ≤ 9999) :
    Text.digitsValue (fourDigits n) = n := by
  have hpairs : Text.digitsValue (fourDigits n) =
      100 * Text.digitsValue (twoDigits (n / 100)) + Text.digitsValue (twoDigits n) :=
    digitsValue_pairs ..
  rw [hpairs, digitsValue_twoDigits, digitsValue_twoDigits]
  omega

theorem twoDigits_add (m n : Nat) : twoDigits (100 * m + n) = twoDigits n := by
  have htens : (100 * m + n) / 10 % 10 = n / 10 % 10 := by omega
  have hones : (100 * m + n) % 10 = n % 10 := by omega
  rw [twoDigits, twoDigits, htens, hones]

theorem twoDigits_digitsValue {c₁ c₂ : Char} (h₁ : c₁.isDigit = true) (h₂ : c₂.isDigit = true) :
    Text.digitsValue [c₁, c₂] < 100 ∧ twoDigits (Text.digitsValue [c₁, c₂]) = [c₁, c₂] := by
  obtain ⟨m, hm, rfl⟩ := exists_digit h₁
  obtain ⟨n, hn, rfl⟩ := exists_digit h₂
  have htens : (10 * m + n) / 10 % 10 = m := by omega
  have hones : (10 * m + n) % 10 = n := by omega
  rw [digitsValue_pair hm hn, twoDigits, htens, hones]
  exact ⟨by omega, rfl⟩

theorem fourDigits_digitsValue {c₁ c₂ c₃ c₄ : Char} (h₁ : c₁.isDigit = true)
    (h₂ : c₂.isDigit = true) (h₃ : c₃.isDigit = true) (h₄ : c₄.isDigit = true) :
    fourDigits (Text.digitsValue [c₁, c₂, c₃, c₄]) = [c₁, c₂, c₃, c₄] := by
  obtain ⟨-, hleft⟩ := twoDigits_digitsValue h₁ h₂
  obtain ⟨hlt, hright⟩ := twoDigits_digitsValue h₃ h₄
  have hhundreds : (100 * Text.digitsValue [c₁, c₂] + Text.digitsValue [c₃, c₄]) / 100 =
      Text.digitsValue [c₁, c₂] := by omega
  rw [digitsValue_pairs, fourDigits, hhundreds, twoDigits_add, hleft, hright]
  rfl

end Digits

def unsignedChars (year month day : Nat) : List Char :=
  fourDigits year ++ '-' :: twoDigits month ++ '-' :: twoDigits day

theorem chars_of_neg {d : Date} (h : d.year < 0) :
    d.chars = '-' :: unsignedChars d.year.natAbs d.month d.day :=
  if_pos h

theorem chars_of_nonneg {d : Date} (h : 0 ≤ d.year) :
    d.chars = unsignedChars d.year.natAbs d.month d.day :=
  if_neg (Int.not_lt.mpr h)

theorem day_le (d : Date) : d.day ≤ 31 := by
  have hday := d.day_mem.2
  unfold daysInMonth at hday
  split at hday
  · split at hday <;> omega
  · split at hday <;> omega

theorem fields_of_ofFields? {year : Int} {month day : Nat} {d : Date}
    (h : ofFields? year month day = some d) : d.year = year ∧ d.month = month ∧ d.day = day := by
  unfold ofFields? at h
  split at h
  · obtain rfl := Option.some.inj h
    exact ⟨rfl, rfl, rfl⟩
  · contradiction

theorem ofFields?_self (d : Date) : ofFields? d.year d.month d.day = some d :=
  dif_pos ⟨d.year_le, d.month_mem, d.day_mem⟩

section Reading

variable {negative : Bool} {cs : List Char} {d : Date}

theorem eq_unsignedChars_of_unsigned? (h : unsigned? negative cs = some d) :
    (d.year = if negative then -(d.year.natAbs : Int) else d.year.natAbs) ∧
      cs = unsignedChars d.year.natAbs d.month d.day := by
  unfold unsigned? at h
  split at h
  next y₁ y₂ y₃ y₄ m₁ m₂ d₁ d₂ =>
    split at h
    next hdigits =>
      obtain ⟨hyear, hmonth, hday⟩ := fields_of_ofFields? h
      simp only [List.all_cons, List.all_nil, Bool.and_true, Bool.and_eq_true] at hdigits
      obtain ⟨hy₁, hy₂, hy₃, hy₄, hm₁, hm₂, hd₁, hd₂⟩ := hdigits
      have habs : d.year.natAbs = Text.digitsValue [y₁, y₂, y₃, y₄] := by
        rw [hyear]
        split <;> omega
      refine ⟨by rw [habs]; exact hyear, ?_⟩
      rw [unsignedChars, habs, hmonth, hday, fourDigits_digitsValue hy₁ hy₂ hy₃ hy₄,
        (twoDigits_digitsValue hm₁ hm₂).2, (twoDigits_digitsValue hd₁ hd₂).2]
      rfl
    next => contradiction
  next => contradiction

theorem isDigit_digitChar_mod (n : Nat) : (Nat.digitChar (n % 10)).isDigit = true := by
  rw [Nat.isDigit_digitChar]
  exact decide_eq_true (Nat.mod_lt n (by decide))

theorem unsigned?_unsignedChars
    (hyear : d.year = if negative then -(d.year.natAbs : Int) else d.year.natAbs) :
    unsigned? negative (unsignedChars d.year.natAbs d.month d.day) = some d := by
  have hread : unsigned? negative (unsignedChars d.year.natAbs d.month d.day) =
      ofFields? (if negative then -(Text.digitsValue (fourDigits d.year.natAbs) : Int)
          else Text.digitsValue (fourDigits d.year.natAbs))
        (Text.digitsValue (twoDigits d.month)) (Text.digitsValue (twoDigits d.day)) :=
    if_pos (by simp only [List.all_cons, List.all_nil, isDigit_digitChar_mod, Bool.and_self])
  have hmonth := d.month_mem.2
  have hday := d.day_le
  rw [hread, digitsValue_fourDigits d.year_le, digitsValue_twoDigits, digitsValue_twoDigits,
    Nat.mod_eq_of_lt (by omega), Nat.mod_eq_of_lt (by omega), ← hyear]
  exact d.ofFields?_self

theorem unsigned?_false_iff : unsigned? false cs = some d ↔ 0 ≤ d.year ∧ d.chars = cs := by
  constructor
  · intro h
    obtain ⟨hyear, rfl⟩ := eq_unsignedChars_of_unsigned? h
    rw [if_neg Bool.false_ne_true] at hyear
    have hnonneg : 0 ≤ d.year := by omega
    exact ⟨hnonneg, chars_of_nonneg hnonneg⟩
  · rintro ⟨hnonneg, rfl⟩
    have hyear : d.year = d.year.natAbs := by omega
    rw [chars_of_nonneg hnonneg]
    exact unsigned?_unsignedChars hyear

theorem unsigned?_true_iff :
    unsigned? true cs = some d ↔
      (d.year < 0 ∧ d.chars = '-' :: cs) ∨ (d.year = 0 ∧ d.chars = cs) := by
  constructor
  · intro h
    obtain ⟨hyear, rfl⟩ := eq_unsignedChars_of_unsigned? h
    rw [if_pos rfl] at hyear
    by_cases hneg : d.year < 0
    · exact .inl ⟨hneg, chars_of_neg hneg⟩
    · have hzero : d.year = 0 := by omega
      exact .inr ⟨hzero, chars_of_nonneg (Int.le_of_eq hzero.symm)⟩
  · rintro (⟨hneg, hchars⟩ | ⟨hzero, hchars⟩)
    · rw [chars_of_neg hneg] at hchars
      have hyear : d.year = -(d.year.natAbs : Int) := by omega
      rw [← (List.cons.inj hchars).2]
      exact unsigned?_unsignedChars hyear
    · rw [chars_of_nonneg (Int.le_of_eq hzero.symm)] at hchars
      have hyear : d.year = -(d.year.natAbs : Int) := by omega
      rw [← hchars]
      exact unsigned?_unsignedChars hyear

theorem ofChars?_of_isDigit {c : Char} (h : c.isDigit = true) (cs : List Char) :
    ofChars? (c :: cs) = unsigned? false (c :: cs) := by
  unfold ofChars?
  split
  next heq =>
    obtain ⟨rfl, -⟩ := List.cons.inj heq
    contradiction
  next heq =>
    obtain ⟨rfl, -⟩ := List.cons.inj heq
    contradiction
  next => rfl

theorem ofChars?_chars (d : Date) : ofChars? d.chars = some d := by
  by_cases hneg : d.year < 0
  · have hchars := chars_of_neg hneg
    rw [hchars]
    exact unsigned?_true_iff.mpr (.inl ⟨hneg, hchars⟩)
  · have hnonneg : 0 ≤ d.year := by omega
    have hchars := chars_of_nonneg hnonneg
    rw [hchars]
    exact (ofChars?_of_isDigit (isDigit_digitChar_mod _) _).trans
      (unsigned?_false_iff.mpr ⟨hnonneg, hchars⟩)

/-- The texts that a date is read from: its own, with a plus sign before it from the year zero on, and
with a minus sign before it in the year zero. -/
theorem ofChars?_eq_some_iff :
    ofChars? cs = some d ↔
      cs = d.chars ∨ (0 ≤ d.year ∧ cs = '+' :: d.chars) ∨ (d.year = 0 ∧ cs = '-' :: d.chars) := by
  constructor
  · intro h
    unfold ofChars? at h
    split at h
    next cs =>
      rcases unsigned?_true_iff.mp h with ⟨-, hchars⟩ | ⟨hzero, rfl⟩
      · exact .inl hchars.symm
      · exact .inr (.inr ⟨hzero, rfl⟩)
    next cs =>
      obtain ⟨hnonneg, rfl⟩ := unsigned?_false_iff.mp h
      exact .inr (.inl ⟨hnonneg, rfl⟩)
    next => exact .inl (unsigned?_false_iff.mp h).2.symm
  · rintro (rfl | ⟨hnonneg, rfl⟩ | ⟨hzero, rfl⟩)
    · exact d.ofChars?_chars
    · exact unsigned?_false_iff.mpr ⟨hnonneg, rfl⟩
    · exact unsigned?_true_iff.mpr (.inr ⟨hzero, rfl⟩)

end Reading

theorem parse?_eq_some_iff {s : String} {d : Date} :
    parse? s = some d ↔
      s = d.text ∨ (0 ≤ d.year ∧ s = "+" ++ d.text) ∨ (d.year = 0 ∧ s = "-" ++ d.text) := by
  simp only [parse?, ofChars?_eq_some_iff, ← String.toList_inj, text, String.toList_append,
    String.toList_ofList]
  rfl

/-- A text that writes a date, but not as dates are written: with a plus sign, or with a minus sign in
the year zero. -/
def IsRespelled (s : String) : Prop :=
  ∃ d : Date, (0 ≤ d.year ∧ s = "+" ++ d.text) ∨ (d.year = 0 ∧ s = "-" ++ d.text)

theorem isRespelled_iff {s : String} : IsRespelled s ↔ ∃ d, parse? s = some d ∧ d.text ≠ s := by
  constructor
  · rintro ⟨d, h⟩
    refine ⟨d, parse?_eq_some_iff.mpr (.inr h), fun heq => ?_⟩
    have hlength := congrArg String.length heq
    obtain ⟨-, rfl⟩ | ⟨-, rfl⟩ := h <;> simp at hlength
  · rintro ⟨d, hparse, hne⟩
    exact ⟨d, (parse?_eq_some_iff.mp hparse).resolve_left fun heq => hne heq.symm⟩

instance (s : String) : Decidable (IsRespelled s) :=
  decidable_of_iff ((parse? s).any (fun d => decide (d.text ≠ s)) = true) (by
    simp [isRespelled_iff, Option.any_eq_true])

theorem text_eq_iff {s : String} {d : Date} (h : parse? s = some d) :
    d.text = s ↔ ¬ IsRespelled s := by
  simp [isRespelled_iff, h]

end Date

namespace Value

/-- A text that would change its spelling as a date. -/
def IsRespelled : Value → Prop
  | .string s => Date.IsRespelled s
  | _ => False

instance : DecidablePred IsRespelled
  | .string s => inferInstanceAs (Decidable (Date.IsRespelled s))
  | .null | .bool _ | .int _ | .float _ | .date _ | .array _ | .object _ =>
    inferInstanceAs (Decidable False)

theorem dateOfText_of_parse? {s : String} {d : Date} (h : Date.parse? s = some d) :
    dateOfText (.string s) = .date d := by
  simp only [dateOfText, h]

theorem dateOfText_of_none {s : String} (h : Date.parse? s = none) :
    dateOfText (.string s) = .string s := by
  simp only [dateOfText, h]

theorem toJson_dateOfText_iff (v : Value) :
    (dateOfText v).toJson = v.toJson ↔ ¬ v.IsRespelled := by
  cases v with
  | string s =>
    cases hparse : Date.parse? s with
    | none =>
      rw [dateOfText_of_none hparse]
      exact iff_of_true rfl (by simp [IsRespelled, Date.isRespelled_iff, hparse])
    | some d =>
      rw [dateOfText_of_parse? hparse, toJson, toJson, Json.string.injEq]
      exact Date.text_eq_iff hparse
  | _ => exact iff_of_true rfl not_false

theorem isLeaf_dateOfText {v : Value} (h : v.isLeaf = true) : (dateOfText v).isLeaf = true := by
  cases v with
  | string s => cases hparse : Date.parse? s <;> simp [dateOfText, hparse, isLeaf]
  | _ => exact h

theorem itemsToJson_eq (items : List Value) : itemsToJson items = items.map toJson := by
  induction items with
  | nil => rfl
  | cons item rest ih => rw [itemsToJson, ih, List.map_cons]

theorem fieldsToJson_eq (fields : List (String × Value)) :
    fieldsToJson fields = fields.map fun field => (field.1, field.2.toJson) := by
  induction fields with
  | nil => rfl
  | cons field rest ih => rw [fieldsToJson, ih, List.map_cons]

theorem withDates_array (items : List Value) :
    (Value.array items).withDates = .array (items.map withDates) :=
  mapLeaves_array dateOfText items

theorem withDates_object (fields : List (String × Value)) :
    (Value.object fields).withDates =
      .object (fields.map fun field => (field.1, field.2.withDates)) :=
  mapLeaves_object dateOfText fields

theorem withDates_of_isLeaf {v : Value} (h : v.isLeaf = true) : v.withDates = dateOfText v :=
  mapLeaves_of_isLeaf dateOfText h

theorem toJson_withDates_iff (v : Value) :
    v.withDates.toJson = v.toJson ↔ ∀ part ∈ v.parts, ¬ part.IsRespelled := by
  induction v using structural_induction with
  | leaf v hleaf =>
    rw [withDates_of_isLeaf hleaf, parts_of_isLeaf hleaf, List.forall_mem_singleton,
      toJson_dateOfText_iff]
  | array items ih =>
    have hself : ¬ (Value.array items).IsRespelled := not_false
    rw [forall_parts_array_iff, and_iff_right hself, withDates_array, toJson, toJson, itemsToJson_eq,
      itemsToJson_eq, List.map_map, Json.array.injEq, List.map_inj_left]
    exact forall₂_congr fun item hitem => ih item hitem
  | object fields ih =>
    have hself : ¬ (Value.object fields).IsRespelled := not_false
    rw [forall_parts_object_iff, and_iff_right hself, withDates_object, toJson, toJson,
      fieldsToJson_eq, fieldsToJson_eq, List.map_map, Json.object.injEq, List.map_inj_left]
    refine forall₂_congr fun field hfield => ?_
    rw [← ih field hfield]
    simp

section Lookup

variable {v data : Value}

theorem isNull_withDates (v : Value) : v.withDates.isNull = v.isNull := by
  cases v with
  | string s => cases hparse : Date.parse? s <;> simp [withDates, mapLeaves, dateOfText, hparse, isNull]
  | _ => rfl

theorem step?_of_isLeaf (h : v.isLeaf = true) (segment : List Char) : v.step? segment = none := by
  cases v with
  | array => contradiction
  | object => contradiction
  | _ => rfl

theorem lookup_map_snd {α β : Type} (f : α → β) (fields : List (String × α)) (key : String) :
    (fields.map fun field => (field.1, f field.2)).lookup key = (fields.lookup key).map f := by
  induction fields with
  | nil => rfl
  | cons field rest ih =>
    rw [List.map_cons, List.lookup_cons, List.lookup_cons, ih]
    split <;> rfl

theorem step?_withDates (v : Value) (segment : List Char) :
    v.withDates.step? segment = (v.step? segment).map withDates := by
  cases hleaf : v.isLeaf with
  | true =>
    rw [withDates_of_isLeaf hleaf, step?_of_isLeaf (isLeaf_dateOfText hleaf), step?_of_isLeaf hleaf]
    rfl
  | false =>
    cases v with
    | array items =>
      rw [withDates_array, step?, step?, Option.map_bind]
      congr 1
      funext i
      exact List.getElem?_map ..
    | object fields =>
      rw [withDates_object]
      exact lookup_map_snd withDates fields _
    | _ => contradiction

theorem foldlM_step?_withDates (segments : List (List Char)) (v : Value) :
    segments.foldlM step? v.withDates = (segments.foldlM step? v).map withDates := by
  induction segments generalizing v with
  | nil => rfl
  | cons segment rest ih =>
    rw [List.foldlM_cons, List.foldlM_cons, step?_withDates]
    cases v.step? segment with
    | none => rfl
    | some below => exact ih below

theorem lookup?_withDates (data name : Value) :
    data.withDates.lookup? name = (data.lookup? name).map withDates := by
  unfold lookup?
  dsimp only
  split
  · rfl
  · exact foldlM_step?_withDates _ data

theorem parts_step?_subset {segment : List Char} (h : data.step? segment = some v) :
    v.parts ⊆ data.parts := by
  cases data with
  | array items =>
    obtain ⟨i, -, hitem⟩ := Option.bind_eq_some_iff.mp h
    exact parts_item_subset (List.mem_of_getElem? hitem)
  | object fields => exact parts_field_subset (mem_of_lookup h)
  | _ => contradiction

theorem parts_foldlM_subset {segments : List (List Char)}
    (h : segments.foldlM step? data = some v) : v.parts ⊆ data.parts := by
  induction segments generalizing data with
  | nil =>
    obtain rfl := Option.some.inj h
    exact List.Subset.refl _
  | cons segment rest ih =>
    rw [List.foldlM_cons] at h
    obtain ⟨below, hstep, hrest⟩ := Option.bind_eq_some_iff.mp h
    exact List.Subset.trans (ih hrest) (parts_step?_subset hstep)

theorem parts_lookup?_subset {name : Value} (h : data.lookup? name = some v) :
    v.parts ⊆ data.parts := by
  unfold lookup? at h
  dsimp only at h
  split at h
  · obtain rfl := Option.some.inj h
    exact List.Subset.refl _
  · exact parts_foldlM_subset h

theorem toJson_variableValue_withDates (h : ∀ part ∈ data.parts, ¬ part.IsRespelled)
    (name : Value) (default : Option Value) :
    (data.withDates.variableValue name default).toJson = (data.variableValue name default).toJson := by
  unfold variableValue
  rw [lookup?_withDates]
  cases hv : data.lookup? name with
  | none => rfl
  | some v =>
    have hplain : ∀ part ∈ v.parts, ¬ part.IsRespelled := fun part hpart =>
      h part (parts_lookup?_subset hv hpart)
    simp only [Option.map_some, isNull_withDates]
    split
    · rfl
    · exact (toJson_withDates_iff v).mpr hplain

end Lookup

end Value

open Value

/-- Reading the texts of a value as dates does not change its document unless one of them is spelled in
a way in which no date is written; nor does it then change what a rule takes over from the data. -/
theorem toJson_withDates (data : Value) :
    (data.withDates.toJson = data.toJson ↔ ∀ part ∈ data.parts, ¬ part.IsRespelled) ∧
      ((∀ part ∈ data.parts, ¬ part.IsRespelled) →
        ∀ (operand : Value) (others : List (String × Value)),
          (∀ r ∈ operand.operands, r.firstField? = none) →
          (outcome (.object (("var", operand) :: others)) data.withDates).map toJson =
            (outcome (.object (("var", operand) :: others)) data).map toJson) := by
  refine ⟨toJson_withDates_iff data, fun hplain operand others hliterals => ?_⟩
  have hvalues (d : Value) :=
    mapM_eq_pure fun r hr => outcome_literal (hliterals r hr) d
  rw [outcome_var, outcome_var, hvalues, hvalues]
  exact congrArg Except.ok (toJson_variableValue_withDates hplain _ _)

theorem toJson_withDates_ides :
    let data := Value.object [("ides", .array [.string "-0044-03-15", .string "-0044-03-32"]),
      ("2023-11-21", .string "2024-02-29")]
    let reference := Value.object [("var", .array [.string "ides.0", .string "none"])]
    (∀ part ∈ data.parts, ¬ part.IsRespelled) ∧ data.withDates.toJson = data.toJson ∧
      (outcome reference data.withDates).map toJson = (outcome reference data).map toJson := by
  intro data reference
  have hplain : ∀ part ∈ data.parts, ¬ part.IsRespelled := by decide +kernel
  obtain ⟨hsame, hreference⟩ := toJson_withDates data
  refine ⟨hplain, hsame.mpr hplain, hreference hplain (.array [.string "ides.0", .string "none"]) [] ?_⟩
  decide

/-- The plus sign is read and not written, and with the year zero the minus sign neither. -/
theorem toJson_withDates_ne :
    (Value.string "+2023-11-21").withDates.toJson ≠ (Value.string "+2023-11-21").toJson ∧
      (Value.string "-0000-01-01").withDates.toJson ≠ (Value.string "-0000-01-01").toJson := by
  refine ⟨mt (toJson_withDates_iff _).mp ?_, mt (toJson_withDates_iff _).mp ?_⟩ <;> decide +kernel

end JsonRules
