import JsonRules.Proofs.Equality
import JsonRules.Proofs.Relations

/-!
Equality beside the order. Equality is that of the values and the relational operators go by the order of
their comparable forms, but the two agree. Equal values tie, except that an object anywhere in them
leaves them without an order (`order?_of_equal`), and the comparable forms of values that tie are
equal (`equal_of_order?_eq`).
-/
namespace JsonRules

theorem Date.eq_of_compare_eq {d e : Date} (h : compare d e = .eq) : d = e := by
  rw [Date.compare_eq_compareLex, compareLex_eq_eq, compareLex_eq_eq] at h
  obtain ⟨⟨hyear, hmonth⟩, hday⟩ := h
  have hyear : d.year = e.year := Int.compare_eq_eq.mp hyear
  have hmonth : d.month = e.month := Nat.compare_eq_eq.mp hmonth
  have hday : d.day = e.day := Nat.compare_eq_eq.mp hday
  cases d
  cases e
  simp_all

namespace Value

variable {a b : Value}

/-- There is no object in the value, at any depth. -/
def HasNoObject (v : Value) : Prop := ∀ part ∈ v.parts, part.isObject = false

instance (v : Value) : Decidable v.HasNoObject :=
  inferInstanceAs (Decidable (∀ part ∈ v.parts, part.isObject = false))

theorem hasNoObject_of_isLeaf (h : a.isLeaf = true) : a.HasNoObject := by
  intro part hpart
  rw [parts_of_isLeaf h] at hpart
  obtain rfl := List.mem_singleton.mp hpart
  cases part with
  | object => contradiction
  | _ => rfl

theorem hasNoObject_array_iff {items : List Value} :
    (Value.array items).HasNoObject ↔ ∀ item ∈ items, item.HasNoObject :=
  forall_parts_array_iff.trans (and_iff_right rfl)

theorem not_hasNoObject_object (fields : List (String × Value)) :
    ¬ (Value.object fields).HasNoObject :=
  fun h => nomatch h _ (self_mem_parts _)

theorem comparable_of_number {x : Binary64} (h : a.number? = some x) : a.comparable = .float x := by
  cases a with
  | int n =>
    obtain rfl := Option.some.inj h
    rfl
  | float y =>
    obtain rfl := Option.some.inj h
    rfl
  | _ => contradiction

theorem comparable_array (items : List Value) :
    (Value.array items).comparable = .array (items.map comparable) :=
  mapLeaves_array comparableLeaf items

theorem comparable_object (fields : List (String × Value)) :
    (Value.object fields).comparable =
      .object (fields.map fun field => (field.1, field.2.comparable)) :=
  mapLeaves_object comparableLeaf fields

section Ties

theorem order?_of_equal_number {x : Binary64} (ha : a.number? = some x) (h : a.equal b = true) :
    a.order? b = some .eq := by
  obtain ⟨y, hb, hxy⟩ := exists_number_of_equal ha h
  rw [order?, comparable_of_number ha, comparable_of_number hb]
  exact Binary64.beq_iff.mp hxy

theorem order?_self_of_isLeaf (hleaf : a.isLeaf = true) (ha : a.number? = none) :
    a.order? a = some .eq := by
  have hself (x : Binary64) (hx : x ≠ .nan) : (Value.float x).compare? (.float x) = some .eq :=
    Binary64.beq_iff.mp ((Binary64.beq_self_iff x).mpr hx)
  cases a with
  | null => exact hself 0 (Binary64.ofInt_ne_nan (0 : Nat))
  | bool b =>
    have hnumber : (if b then 1 else 0 : Binary64) ≠ .nan := by
      split
      · exact Binary64.ofInt_ne_nan (1 : Nat)
      · exact Binary64.ofInt_ne_nan (0 : Nat)
    exact hself _ hnumber
  | string s => exact congrArg some Std.ReflOrd.compare_self
  | date d => exact congrArg some Std.ReflOrd.compare_self
  | _ => contradiction

theorem compareItems?_of_equal {as bs : List Value}
    (ih : ∀ a ∈ as, ∀ b : Value, a.equal b = true →
      a.order? b = if a.HasNoObject then some .eq else none)
    (h : equalItems as bs = true) :
    compareItems? (as.map comparable) (bs.map comparable) =
      if ∀ a ∈ as, a.HasNoObject then some .eq else none := by
  induction as generalizing bs with
  | nil =>
    cases bs with
    | nil => rfl
    | cons b bs => contradiction
  | cons a as ihs =>
    cases bs with
    | nil => contradiction
    | cons b bs =>
      rw [equalItems, Bool.and_eq_true] at h
      have hhead : a.comparable.compare? b.comparable = _ := ih a List.mem_cons_self b h.1
      have htail := ihs (fun a ha => ih a (List.mem_cons_of_mem _ ha)) h.2
      rw [List.map_cons, List.map_cons, compareItems?, hhead]
      by_cases hobject : a.HasNoObject
      · simp [hobject, htail]
      · simp [hobject]

theorem order?_of_equal (h : a.equal b = true) :
    a.order? b = if a.HasNoObject then some .eq else none := by
  induction a using structural_induction generalizing b with
  | leaf a hleaf =>
    rw [if_pos (hasNoObject_of_isLeaf hleaf)]
    cases ha : a.number? with
    | some x => exact order?_of_equal_number ha h
    | none =>
      obtain rfl := (equal_iff_eq_of_isLeaf hleaf ha).mp h
      exact order?_self_of_isLeaf hleaf ha
  | array as ih =>
    obtain ⟨bs, rfl, hitems⟩ := exists_array_of_equal h
    rw [order?, comparable_array, comparable_array, compare?]
    simp only [hasNoObject_array_iff]
    exact compareItems?_of_equal (fun a ha b hab => ih a ha hab) hitems
  | object as ih =>
    obtain ⟨bs, rfl, -⟩ := exists_object_of_equal h
    rw [if_neg (not_hasNoObject_object as), order?, comparable_object, comparable_object]
    rfl

end Ties

section Forms

theorem equal_of_compare?_leaf (hleaf : a.isLeaf = true)
    (h : a.comparable.compare? b = some .eq) : a.comparable.equal b = true := by
  have hnumber (x : Binary64) (hx : (Value.float x).compare? b = some .eq) :
      (Value.float x).equal b = true := by
    obtain ⟨y, hy, hxy⟩ := (compare?_number_iff rfl).mp hx
    exact (equal_iff_of_number rfl hy).mpr ⟨Binary64.beq_iff.mpr hxy, nofun⟩
  cases a with
  | string s =>
    obtain ⟨t, rfl, hst⟩ := compare?_string_iff.mp h
    obtain rfl := Std.LawfulEqOrd.eq_of_compare hst
    exact beq_self_eq_true s
  | date d =>
    obtain ⟨e, rfl, hde⟩ := compare?_date_iff.mp h
    obtain rfl := Date.eq_of_compare_eq hde
    exact beq_self_eq_true d
  | array => contradiction
  | object => contradiction
  | _ => exact hnumber _ h

theorem exists_array_of_comparable {cs : List Value} (h : b.comparable = .array cs) :
    ∃ bs, b = .array bs ∧ cs = bs.map comparable := by
  cases b with
  | array bs =>
    rw [comparable_array] at h
    exact ⟨bs, rfl, (array.inj h).symm⟩
  | object bs =>
    rw [comparable_object] at h
    contradiction
  | _ => contradiction

theorem equalItems_of_compareItems? {as bs : List Value}
    (ih : ∀ a ∈ as, ∀ b : Value, a.order? b = some .eq → a.comparable.equal b.comparable = true)
    (h : compareItems? (as.map comparable) (bs.map comparable) = some .eq) :
    equalItems (as.map comparable) (bs.map comparable) = true := by
  induction as generalizing bs with
  | nil =>
    cases bs with
    | nil => rfl
    | cons b bs => exact nomatch Option.some.inj h
  | cons a as ihs =>
    cases bs with
    | nil => exact nomatch Option.some.inj h
    | cons b bs =>
      rw [List.map_cons, List.map_cons, compareItems?_cons_iff] at h
      obtain ⟨hhead, htail⟩ := h.resolve_right fun hne => hne.1 rfl
      have hrest := ihs (fun a ha => ih a (List.mem_cons_of_mem _ ha)) htail
      rw [List.map_cons, List.map_cons, equalItems, ih a List.mem_cons_self b hhead, hrest]
      rfl

theorem equal_of_order?_eq (h : a.order? b = some .eq) :
    a.comparable.equal b.comparable = true := by
  induction a using structural_induction generalizing b with
  | leaf a hleaf => exact equal_of_compare?_leaf hleaf h
  | array as ih =>
    rw [order?, comparable_array] at h
    obtain ⟨cs, hcs, hitems⟩ := compare?_array_iff.mp h
    obtain ⟨bs, rfl, rfl⟩ := exists_array_of_comparable hcs
    rw [comparable_array, comparable_array]
    exact equalItems_of_compareItems? (fun a ha b hab => ih a ha hab) hitems
  | object as ih =>
    rw [order?, comparable_object] at h
    cases hb : b.comparable <;> simp [compare?] at h

theorem order?_eq_of_holds_both (hle : Operator.lessOrEqual.Holds [a, b])
    (hge : Operator.greaterOrEqual.Holds [a, b]) : a.order? b = some .eq := by
  obtain ⟨o, ho, hisLE⟩ := related_iff.mp (Operator.Relates.lessOrEqual.holds_iff.mp hle)
  have hisGE := (Operator.Relates.greaterOrEqual.holds_iff_of_order? ho).mp hge
  cases o with
  | eq => exact ho
  | lt => contradiction
  | gt => contradiction

end Forms

end Value

open Value Operator

theorem Operator.Relates.holds_iff_of_equal {op : Operator} {accepts : Ordering → Bool} {a b : Value}
    (h : op.Relates accepts) (hab : (a == b) = true) :
    op.Holds [a, b] ↔ accepts .eq = true ∧ a.HasNoObject := by
  have horder : a.order? b = _ := order?_of_equal hab
  by_cases hobject : a.HasNoObject
  · rw [if_pos hobject] at horder
    rw [h.holds_iff_of_order? horder, and_iff_left hobject]
  · rw [if_neg hobject] at horder
    exact iff_of_false (h.not_holds_of_none horder) fun hboth => hobject hboth.2

/-- Equal values are never one below the other, and they are at most and at least each other just when
there is no object in them; what is both at most and at least a value has an equal comparable
form. -/
theorem equality_agrees_with_order (a b : Value) :
    ((a == b) = true →
      ¬ less.Holds [a, b] ∧ ¬ greater.Holds [a, b] ∧
        (lessOrEqual.Holds [a, b] ↔ a.HasNoObject) ∧
        (greaterOrEqual.Holds [a, b] ↔ a.HasNoObject)) ∧
      (lessOrEqual.Holds [a, b] → greaterOrEqual.Holds [a, b] →
        (a.comparable == b.comparable) = true) := by
  refine ⟨fun hab => ⟨?_, ?_, ?_, ?_⟩, fun hle hge => ?_⟩
  · exact mt (Relates.less.holds_iff_of_equal hab).mp fun h => nomatch h.1
  · exact mt (Relates.greater.holds_iff_of_equal hab).mp fun h => nomatch h.1
  · exact (Relates.lessOrEqual.holds_iff_of_equal hab).trans (and_iff_right rfl)
  · exact (Relates.greaterOrEqual.holds_iff_of_equal hab).trans (and_iff_right rfl)
  · exact equal_of_order?_eq (order?_eq_of_holds_both hle hge)

theorem equality_agrees_with_order_nested :
    let a := Value.array [.int 1, .array [.float 2, .string "s"]]
    let b := Value.array [.float 1, .array [.int 2, .string "s"]]
    let c := Value.array [a, .object [("x", .int 1), ("y", .null)]]
    let d := Value.array [b, .object [("y", .null), ("x", .float 1)]]
    let e := Value.array [.null, .bool true]
    let f := Value.array [.bool false, .int 1]
    ((a == b) = true ∧ lessOrEqual.Holds [a, b] ∧ greaterOrEqual.Holds [a, b]) ∧
      ((c == d) = true ∧ ¬ lessOrEqual.Holds [c, d] ∧ ¬ greater.Holds [c, d]) ∧
      (lessOrEqual.Holds [e, f] ∧ greaterOrEqual.Holds [e, f] ∧ (e == f) = false ∧
        (e.comparable == f.comparable) = true) := by
  intro a b c d e f
  have hab : (a == b) = true := by decide +kernel
  have hcd : (c == d) = true := by decide +kernel
  have hle : lessOrEqual.Holds [e, f] := Relates.lessOrEqual.holds_iff.mpr (by decide +kernel)
  have hge : greaterOrEqual.Holds [e, f] := Relates.greaterOrEqual.holds_iff.mpr (by decide +kernel)
  obtain ⟨-, -, hab₁, hab₂⟩ := (equality_agrees_with_order a b).1 hab
  obtain ⟨-, hcd₁, hcd₂, -⟩ := (equality_agrees_with_order c d).1 hcd
  exact ⟨⟨hab, hab₁.mpr (by decide), hab₂.mpr (by decide)⟩,
    ⟨hcd, mt hcd₂.mp (by decide), hcd₁⟩,
    ⟨hle, hge, by decide +kernel, (equality_agrees_with_order e f).2 hle hge⟩⟩

end JsonRules
