import JsonRules.Proofs.Keys
import JsonRules.Proofs.Paths

/-!
Whole numbers as names. Such a name stands for the decimal text of its number, of the nearest integer of
64 bits if the number is beyond that range (`path_float`). A decimal text is one segment of a path and
addresses one entry at most, and different integers have different texts and address different entries
(`eq_of_addresses`). So within 64 bits a whole number finds what its decimal text finds, and no other
number finds it.
-/
namespace JsonRules

namespace Text

variable {i j : Int}

theorem integer_of_neg (h : i < 0) : integer i = '-' :: decimalDigits i.natAbs := if_pos h

theorem integer_of_nonneg (h : 0 ≤ i) : integer i = decimalDigits i.natAbs :=
  if_neg (Int.not_lt.mpr h)

theorem natAbs_eq_of_decimalDigits {m n : Nat} (h : decimalDigits m = decimalDigits n) : m = n := by
  rw [← digitsValue_decimalDigits m, h, digitsValue_decimalDigits]

theorem minus_notMem_decimalDigits (n : Nat) : '-' ∉ decimalDigits n := fun h => by
  have := isDigit_of_mem_decimalDigits h
  contradiction

theorem integer_inj : integer i = integer j ↔ i = j := by
  refine ⟨fun h => ?_, congrArg integer⟩
  by_cases hi : i < 0 <;> by_cases hj : j < 0
  · rw [integer_of_neg hi, integer_of_neg hj] at h
    have := natAbs_eq_of_decimalDigits (List.cons.inj h).2
    omega
  · rw [integer_of_neg hi, integer_of_nonneg (Int.not_lt.mp hj)] at h
    exact absurd (h ▸ List.mem_cons_self) (minus_notMem_decimalDigits j.natAbs)
  · rw [integer_of_nonneg (Int.not_lt.mp hi), integer_of_neg hj] at h
    exact absurd (h ▸ List.mem_cons_self) (minus_notMem_decimalDigits i.natAbs)
  · rw [integer_of_nonneg (Int.not_lt.mp hi), integer_of_nonneg (Int.not_lt.mp hj)] at h
    have := natAbs_eq_of_decimalDigits h
    omega

end Text

theorem Binary64.Finite.integer?_eq_some {x : Finite} {i : Int} (h : x.toInt = i * one) :
    x.integer? = some i := by
  have hone : (0 : Int) < one := by decide +kernel
  have hunits : x.units = i.natAbs * one := by
    have habs := congrArg Int.natAbs h
    rw [Int.natAbs_mul, Int.natAbs_natCast] at habs
    rw [← habs, toInt]
    split <;> omega
  have hquotient : x.units / one = i.natAbs := by
    rw [hunits]
    exact Nat.mul_div_cancel _ (by omega)
  rw [integer?, if_pos (hunits ▸ Nat.mul_mod_left _ _), hquotient]
  -- The sign of the number is that of the integer, unless both are zero.
  rw [toInt] at h
  by_cases hnegative : x.negative = true
  · rw [if_pos hnegative] at h ⊢
    have hle : i ≤ 0 := Int.le_of_mul_le_mul_right (by omega : i * one ≤ 0 * one) hone
    rw [Option.some.injEq]
    omega
  · rw [if_neg hnegative] at h ⊢
    have hle : 0 ≤ i := Int.le_of_mul_le_mul_right (by omega : 0 * one ≤ i * one) hone
    rw [Option.some.injEq]
    omega

namespace Value

variable {data v : Value} {i j : Int} {name : String} {entry : Step}

def decimalText (i : Int) : String := String.ofList (Text.integer i)

theorem toList_decimalText (i : Int) : (decimalText i).toList = Text.integer i :=
  String.toList_ofList

theorem decimalText_inj : decimalText i = decimalText j ↔ i = j := by
  rw [← String.toList_inj, toList_decimalText, toList_decimalText, Text.integer_inj]

theorem decimalText_ne_empty (i : Int) : decimalText i ≠ "" := by
  intro hempty
  have hchars := congrArg String.toList hempty
  rw [toList_decimalText, Text.integer] at hchars
  split at hchars
  · contradiction
  · exact Text.decimalDigits_ne_nil _ hchars

theorem point_notMem_decimalText (i : Int) : '.' ∉ (decimalText i).toList := by
  have hdigits (n : Nat) : '.' ∉ Text.decimalDigits n := fun h => by
    have := Text.isDigit_of_mem_decimalDigits h
    contradiction
  rw [toList_decimalText, Text.integer]
  split
  · exact List.not_mem_cons_of_ne_of_not_mem (by decide) (hdigits _)
  · exact hdigits _

theorem eq_of_writesPlace_decimalText {n : Nat} (h : WritesPlace (decimalText i) n) : i = n := by
  obtain ⟨digits, hdigits, hne, hall, hvalue, -⟩ := h
  rw [toList_decimalText] at hdigits
  by_cases hneg : i < 0
  · rw [Text.integer_of_neg hneg] at hdigits
    rcases hdigits with rfl | hplus
    · exact nomatch hall '-' List.mem_cons_self
    · exact absurd (List.cons.inj hplus).1 (by decide)
  · rw [Text.integer_of_nonneg (Int.not_lt.mp hneg)] at hdigits
    rcases hdigits with rfl | hplus
    · have : i.natAbs = n := (Text.digitsValue_decimalDigits _).symm.trans hvalue
      omega
    · have := Text.isDigit_of_mem_decimalDigits (hplus ▸ List.mem_cons_self : '+' ∈ _)
      contradiction

/-- What a name without points addresses: the key that it is, or the place that it writes. -/
inductive Addresses (name : String) : Value → Step → Prop
  | key (fields : List (String × Value)) : Addresses name (.object fields) (.key name)
  | place (items : List Value) {i : UInt64} (hplace : WritesPlace name i.toNat) :
    Addresses name (.array items) (.place i)

theorem lookup?_eq_some_iff_addresses (hname : name ≠ "") (hpoint : '.' ∉ name.toList) :
    data.lookup? (.string name) = some v ↔
      ∃ entry, Addresses name data entry ∧ Reaches data [entry] v := by
  have hsplit : IsSplit name [name] :=
    ⟨List.forall_mem_singleton.mpr hpoint, String.intercalate_singleton⟩
  rw [lookup?_eq_some_iff hname, ← (isSplit_iff hname).mp hsplit]
  constructor
  · intro h
    cases h with
    | key hkey hrest =>
      cases hrest
      exact ⟨_, .key _, .key hpoint hkey (.here v)⟩
    | place hplace hitem hrest =>
      cases hrest
      have hlt := hplace.choose_spec.2.2.2.2
      have htoNat := UInt64.toNat_ofNat_of_lt' hlt
      exact ⟨_, .place _ (htoNat.symm ▸ hplace), .place (htoNat.symm ▸ hitem) (.here v)⟩
  · rintro ⟨entry, haddresses, hreaches⟩
    cases haddresses with
    | key fields =>
      cases hreaches with
      | key _ hkey hrest =>
        cases hrest
        exact .key hkey (.here v)
    | place items hplace =>
      cases hreaches with
      | place hitem hrest =>
        cases hrest
        exact .place hplace hitem (.here v)

theorem eq_of_addresses (hi : Addresses (decimalText i) data entry)
    (hj : Addresses (decimalText j) data entry) : i = j := by
  cases hi with
  | key fields =>
    generalize hname : decimalText i = name at hj
    cases hj
    exact decimalText_inj.mp hname
  | place items hplace =>
    cases hj with
    | place _ hplace' =>
      rw [eq_of_writesPlace_decimalText hplace, eq_of_writesPlace_decimalText hplace']

theorem clamped_eq_self_iff :
    clamped i = i ↔ Int64.minValue.toInt ≤ i ∧ i ≤ Int64.maxValue.toInt := by
  have hbounds : Int64.minValue.toInt ≤ Int64.maxValue.toInt := by decide
  unfold clamped
  omega

theorem path_float {x : Binary64.Finite} (h : x.toInt = i * Binary64.one) :
    (Value.float (.finite x)).path = decimalText (clamped i) := by
  rw [path, Binary64.Finite.integer?_eq_some h]
  rfl

theorem lookup?_congr {name name' : Value} (h : name.path = name'.path) (data : Value) :
    data.lookup? name = data.lookup? name' := by
  unfold lookup?
  rw [h]

/-- A whole number as a name finds the entry that its decimal text addresses, if it is in the range of 64
bits; beyond that range it finds what the end of the range finds. Names that address one entry are the
same integer in that range. -/
theorem lookup?_whole (x : Binary64.Finite) (i : Int) (hx : x.toInt = i * Binary64.one) :
    let name := Value.float (.finite x)
    ((∀ data : Value, data.lookup? name = data.lookup? (.string (decimalText i))) ↔
        Int64.minValue.toInt ≤ i ∧ i ≤ Int64.maxValue.toInt) ∧
      (∀ data : Value, data.lookup? name = data.lookup? (.string (decimalText (clamped i)))) ∧
      (∀ data v : Value, data.lookup? name = some v ↔
        ∃ entry, Addresses name.path data entry ∧ Reaches data [entry] v) ∧
      ∀ (y : Binary64.Finite) (j : Int), y.toInt = j * Binary64.one →
        ∀ (data : Value) (entry : Step), Addresses name.path data entry →
          Addresses (Value.float (.finite y)).path data entry → clamped i = clamped j := by
  intro name
  have hclamped (data : Value) :
      data.lookup? name = data.lookup? (.string (decimalText (clamped i))) :=
    lookup?_congr (path_float hx) data
  refine ⟨⟨fun h => ?_, fun h data => ?_⟩, hclamped, fun data v => ?_, ?_⟩
  · -- The data with nothing but the entry that the name finds tells the two names apart.
    have hfound : (Value.object [(decimalText (clamped i), .null)]).lookup?
        (.string (decimalText i)) = some .null := by
      rw [← h, hclamped, lookup?_eq_some_iff_addresses (decimalText_ne_empty _)
        (point_notMem_decimalText _)]
      exact ⟨_, .key _, .key (point_notMem_decimalText _) List.lookup_cons_self (.here _)⟩
    obtain ⟨entry, haddresses, hreaches⟩ := (lookup?_eq_some_iff_addresses (decimalText_ne_empty i)
      (point_notMem_decimalText i)).mp hfound
    cases haddresses
    cases hreaches with
    | key _ hkey _ =>
      have hmem := mem_of_lookup hkey
      have hsame := (Prod.mk.inj (List.mem_singleton.mp hmem)).1
      exact clamped_eq_self_iff.mp (decimalText_inj.mp hsame).symm
  · rw [hclamped, clamped_eq_self_iff.mpr h]
  · rw [hclamped, path_float hx]
    exact lookup?_eq_some_iff_addresses (decimalText_ne_empty _) (point_notMem_decimalText _)
  · intro y j hy data entry hi hj
    rw [path_float hx] at hi
    rw [path_float hy] at hj
    exact eq_of_addresses hi hj

theorem lookup?_whole_identifier :
    let order : Binary64.Finite :=
      ⟨false, 1700000000000000000 * Binary64.one, by decide +kernel, by decide +kernel⟩
    let second : Binary64.Finite := ⟨false, 1 * Binary64.one, by decide +kernel, by decide +kernel⟩
    let items := Value.array [.null, .string "paid"]
    let data := Value.object [("1700000000000000000", items)]
    (order.toInt = 1700000000000000000 * Binary64.one ∧
      data.lookup? (.float (.finite order)) = some items) ∧
      (second.toInt = 1 * Binary64.one ∧
        items.lookup? (.float (.finite second)) = some (.string "paid")) := by
  intro order second items data
  have horder : order.toInt = 1700000000000000000 * Binary64.one := by decide +kernel
  have hsecond : second.toInt = 1 * Binary64.one := by decide +kernel
  have hname : decimalText 1700000000000000000 = "1700000000000000000" := by decide +kernel
  refine ⟨⟨horder, ?_⟩, ⟨hsecond, ?_⟩⟩
  · rw [(lookup?_whole order _ horder).1.mpr (by decide) data, hname]
    rfl
  · rw [(lookup?_whole second _ hsecond).1.mpr (by decide) items]
    rfl

/-- The first number beyond 64 bits does not find what its decimal text finds, and another number finds the
same as it. -/
theorem lookup?_whole_beyond :
    let first : Binary64.Finite :=
      ⟨false, 9223372036854775808 * Binary64.one, by decide +kernel, by decide +kernel⟩
    let other : Binary64.Finite :=
      ⟨false, 18446744073709551616 * Binary64.one, by decide +kernel, by decide +kernel⟩
    let data := Value.object
      [("9223372036854775807", .string "last"), ("9223372036854775808", .string "beyond")]
    (first.toInt = 9223372036854775808 * Binary64.one ∧
      decimalText 9223372036854775808 = "9223372036854775808") ∧
      data.lookup? (.string "9223372036854775808") = some (.string "beyond") ∧
      data.lookup? (.float (.finite first)) = some (.string "last") ∧
      data.lookup? (.float (.finite other)) = some (.string "last") := by
  intro first other data
  have hfirst : first.toInt = 9223372036854775808 * Binary64.one := by decide +kernel
  have hother : other.toInt = 18446744073709551616 * Binary64.one := by decide +kernel
  have hlast : data.lookup? (.string "9223372036854775807") = some (.string "last") := rfl
  have hpath : (Value.float (.finite first)).path = (Value.string "9223372036854775807").path := by
    rw [path_float hfirst]
    decide +kernel
  have hpath' : (Value.float (.finite other)).path = (Value.string "9223372036854775807").path := by
    rw [path_float hother]
    decide +kernel
  refine ⟨⟨hfirst, by decide +kernel⟩, rfl, ?_, ?_⟩
  · rw [lookup?_congr hpath, hlast]
  · rw [lookup?_congr hpath', hlast]

end Value

end JsonRules
