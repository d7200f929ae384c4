import JsonRules.Proofs.Keys
import JsonRules.Proofs.NumberLine
import Mathlib.Data.List.Forall2
import Mathlib.Data.List.Perm.Subperm
import Mathlib.Data.List.Zip

/-!
Equality of values. It is reflexive but for NaN, and symmetric. It is transitive up to rounding: an
integer equals the binary number that it rounds to, so two integers can equal one binary number and
not each other (`Blurred`). Nothing else breaks transitivity.
-/
namespace JsonRules.Value

variable {a b c : Value}

/-- At some place the values have different integers that round to one binary number. -/
inductive Blurred : Value → Value → Prop
  | integers {m n : Int64} (hne : m ≠ n) (h : (ofInt64 m == ofInt64 n) = true) :
    Blurred (.int m) (.int n)
  | items {as bs : List Value} {a b : Value} (hplace : (a, b) ∈ as.zip bs) (h : Blurred a b) :
    Blurred (.array as) (.array bs)
  | fields {as bs : List (String × Value)} {key : String} {a b : Value}
    (ha : as.lookup key = some a) (hb : bs.lookup key = some b) (h : Blurred a b) :
    Blurred (.object as) (.object bs)

theorem ofInt64_beq_self (n : Int64) : (ofInt64 n == ofInt64 n) = true :=
  (Binary64.beq_self_iff _).mpr (Binary64.ofInt_ne_nan _)

theorem equal_int_iff {m n : Int64} :
    (Value.int m).equal (.int n) = true ↔
      (ofInt64 m == ofInt64 n) = true ∧ ¬ Blurred (.int m) (.int n) := by
  constructor
  · intro h
    obtain rfl : m = n := by simpa [equal] using h
    refine ⟨ofInt64_beq_self m, ?_⟩
    rintro ⟨hne, -⟩
    exact hne rfl
  · rintro ⟨h, hblurred⟩
    by_cases hmn : m = n
    · simp [equal, hmn]
    · exact absurd (.integers hmn h) hblurred

theorem equal_iff_of_number {x y : Binary64} (ha : a.number? = some x) (hb : b.number? = some y) :
    a.equal b = true ↔ (x == y) = true ∧ ¬ Blurred a b := by
  cases a with
  | int m =>
    obtain rfl := Option.some.inj ha
    cases b with
    | int n =>
      obtain rfl := Option.some.inj hb
      exact equal_int_iff
    | float z =>
      obtain rfl := Option.some.inj hb
      exact ⟨fun h => ⟨h, nofun⟩, And.left⟩
    | _ => contradiction
  | float z =>
    obtain rfl := Option.some.inj ha
    cases b with
    | int n =>
      obtain rfl := Option.some.inj hb
      exact ⟨fun h => ⟨h, nofun⟩, And.left⟩
    | float w =>
      obtain rfl := Option.some.inj hb
      exact ⟨fun h => ⟨h, nofun⟩, And.left⟩
    | _ => contradiction
  | _ => contradiction

theorem exists_number_of_equal {x : Binary64} (ha : a.number? = some x) (h : a.equal b = true) :
    ∃ y, b.number? = some y ∧ (x == y) = true := by
  have hb : ∃ y, b.number? = some y := by
    cases a with
    | int m =>
      cases b with
      | int n => exact ⟨_, rfl⟩
      | float w => exact ⟨_, rfl⟩
      | _ => contradiction
    | float z =>
      cases b with
      | int n => exact ⟨_, rfl⟩
      | float w => exact ⟨_, rfl⟩
      | _ => contradiction
    | _ => contradiction
  obtain ⟨y, hy⟩ := hb
  exact ⟨y, hy, ((equal_iff_of_number ha hy).mp h).1⟩

theorem equal_iff_eq_of_isLeaf (hleaf : a.isLeaf = true) (ha : a.number? = none) :
    a.equal b = true ↔ a = b := by
  cases a with
  | int m => contradiction
  | float x => contradiction
  | array as => contradiction
  | object as => contradiction
  | _ => cases b <;> simp [equal]

theorem equalItems_iff {as bs : List Value} :
    equalItems as bs = true ↔ List.Forall₂ (fun a b => a.equal b = true) as bs := by
  induction as generalizing bs with
  | nil => cases bs <;> simp [equalItems]
  | cons a as ih => cases bs <;> simp [equalItems, ih]

theorem equalFields_iff {as bs : List (String × Value)} :
    equalFields as bs = true ↔
      ∀ field ∈ as, ∃ b, bs.lookup field.1 = some b ∧ field.2.equal b = true := by
  induction as with
  | nil => simp [equalFields]
  | cons field as ih =>
    obtain ⟨key, a⟩ := field
    rw [equalFields, List.forall_mem_cons, ← ih]
    cases bs.lookup key <;> simp

theorem equal_object_iff {as bs : List (String × Value)} :
    (Value.object as).equal (.object bs) = true ↔
      as.length = bs.length ∧ equalFields as bs = true := by
  rw [equal, Bool.and_eq_true, beq_iff_eq]

theorem exists_array_of_equal {as : List Value} (h : (Value.array as).equal b = true) :
    ∃ bs, b = .array bs ∧ equalItems as bs = true := by
  cases b with
  | array bs => exact ⟨bs, rfl, h⟩
  | _ => contradiction

theorem exists_object_of_equal {as : List (String × Value)} (h : (Value.object as).equal b = true) :
    ∃ bs, b = .object bs ∧ as.length = bs.length ∧ equalFields as bs = true := by
  cases b with
  | object bs => exact ⟨bs, rfl, equal_object_iff.mp h⟩
  | _ => contradiction

section Reflexivity

theorem not_blurred_self_of_isLeaf (hleaf : a.isLeaf = true) : ¬ Blurred a a := by
  cases a with
  | int n =>
    rintro ⟨hne, -⟩
    exact hne rfl
  | array as => contradiction
  | object as => contradiction
  | _ => nofun

theorem eq_nan_iff_of_number {x : Binary64} (ha : a.number? = some x) :
    .float .nan = a ↔ x = .nan := by
  cases a with
  | int n =>
    obtain rfl := Option.some.inj ha
    exact iff_of_false nofun (Binary64.ofInt_ne_nan n.toInt)
  | float y =>
    obtain rfl := Option.some.inj ha
    rw [float.injEq, eq_comm]
  | _ => contradiction

theorem equal_self_iff (h : a.HasDistinctKeys) : a.equal a = true ↔ .float .nan ∉ a.parts := by
  induction a using structural_induction with
  | leaf a hleaf =>
    cases ha : a.number? with
    | some x =>
      rw [equal_iff_of_number ha ha, Binary64.beq_self_iff, parts_of_isLeaf hleaf,
        List.mem_singleton, eq_nan_iff_of_number ha]
      exact and_iff_left (not_blurred_self_of_isLeaf hleaf)
    | none =>
      rw [equal_iff_eq_of_isLeaf hleaf ha, parts_of_isLeaf hleaf, List.mem_singleton]
      refine iff_of_true rfl ?_
      rintro rfl
      contradiction
  | array as ih =>
    rw [equal, equalItems_iff, List.forall₂_same, parts, partsOfItems_eq]
    simp only [List.mem_cons, List.mem_flatMap, reduceCtorEq, false_or, not_exists, not_and]
    have hitems := hasDistinctKeys_array_iff.mp h
    exact forall₂_congr fun item hitem => ih item hitem (hitems item hitem)
  | object as ih =>
    obtain ⟨hkeys, hfields⟩ := hasDistinctKeys_object_iff.mp h
    rw [equal_object_iff, equalFields_iff, parts, partsOfFields_eq]
    simp only [List.mem_cons, List.mem_flatMap, reduceCtorEq, false_or, not_exists, not_and,
      true_and]
    refine forall₂_congr fun field hfield => ?_
    have hlookup : as.lookup field.1 = some field.2 := (lookup_eq_some_iff_mem hkeys).mpr hfield
    rw [← ih field hfield (hfields field hfield)]
    simp [hlookup]

end Reflexivity

section Symmetry

theorem mem_zip_swap {as bs : List Value} (h : (a, b) ∈ as.zip bs) : (b, a) ∈ bs.zip as := by
  rw [← List.zip_swap]
  exact List.mem_map.mpr ⟨(a, b), h, rfl⟩

theorem Blurred.symm (h : Blurred a b) : Blurred b a := by
  induction h with
  | integers hne h => exact .integers hne.symm (Binary64.beq_comm _ _ ▸ h)
  | items hplace _ ih => exact .items (mem_zip_swap hplace) ih
  | fields ha hb _ ih => exact .fields hb ha ih

theorem equal_symm_of_number {x : Binary64} (ha : a.number? = some x) (h : a.equal b = true) :
    b.equal a = true := by
  obtain ⟨y, hb, hxy⟩ := exists_number_of_equal ha h
  have hblurred := ((equal_iff_of_number ha hb).mp h).2
  exact (equal_iff_of_number hb ha).mpr ⟨Binary64.beq_comm x y ▸ hxy, fun h => hblurred h.symm⟩

theorem lookup_of_fields_subset {as bs : List (String × Value)} (hlen : as.length = bs.length)
    (has : (as.map Prod.fst).Nodup) (hsub : as.map Prod.fst ⊆ bs.map Prod.fst)
    {field : String × Value} (hfield : field ∈ bs) : ∃ a, as.lookup field.1 = some a := by
  have hperm : (as.map Prod.fst).Perm (bs.map Prod.fst) :=
    (List.subperm_of_subset has hsub).perm_of_length_le (by simp [hlen])
  have hkey : field.1 ∈ as.map Prod.fst := hperm.mem_iff.mpr (List.mem_map_of_mem hfield)
  obtain ⟨⟨key, a⟩, ha, rfl⟩ := List.mem_map.mp hkey
  exact ⟨a, (lookup_eq_some_iff_mem has).mpr ha⟩

theorem equalItems_symm {as bs : List Value}
    (ih : ∀ a ∈ as, ∀ b ∈ bs, a.equal b = true → b.equal a = true)
    (h : equalItems as bs = true) : equalItems bs as = true := by
  rw [equalItems_iff, List.forall₂_iff_zip] at h ⊢
  obtain ⟨hlen, hplaces⟩ := h
  refine ⟨hlen.symm, fun {b a} hplace => ?_⟩
  have hplace' := mem_zip_swap hplace
  obtain ⟨ha, hb⟩ := List.of_mem_zip hplace'
  exact ih a ha b hb (hplaces hplace')

theorem equalFields_symm {as bs : List (String × Value)} (hlen : as.length = bs.length)
    (has : (as.map Prod.fst).Nodup) (hbs : (bs.map Prod.fst).Nodup)
    (ih : ∀ f ∈ as, ∀ g ∈ bs, f.2.equal g.2 = true → g.2.equal f.2 = true)
    (h : equalFields as bs = true) : equalFields bs as = true := by
  rw [equalFields_iff] at h ⊢
  have hsub : as.map Prod.fst ⊆ bs.map Prod.fst := by
    intro key hkey
    obtain ⟨f, hf, rfl⟩ := List.mem_map.mp hkey
    obtain ⟨b, hlookup, -⟩ := h f hf
    exact List.mem_map.mpr ⟨_, mem_of_lookup hlookup, rfl⟩
  intro g hg
  obtain ⟨a, ha⟩ := lookup_of_fields_subset hlen has hsub hg
  have hmem := mem_of_lookup ha
  obtain ⟨b, hlookup, hab⟩ := h _ hmem
  -- The key of `a` is that of `g`, so what it is equal to is the value of `g`.
  have hb : b = g.2 :=
    Option.some.inj (hlookup.symm.trans ((lookup_eq_some_iff_mem hbs).mpr hg))
  exact ⟨a, ha, ih _ hmem _ hg (hb ▸ hab)⟩

theorem equal_symm (ha : a.HasDistinctKeys) (hb : b.HasDistinctKeys) (h : a.equal b = true) :
    b.equal a = true := by
  induction a using structural_induction generalizing b with
  | leaf a hleaf =>
    cases hx : a.number? with
    | some x => exact equal_symm_of_number hx h
    | none =>
      obtain rfl := (equal_iff_eq_of_isLeaf hleaf hx).mp h
      exact h
  | array as ih =>
    obtain ⟨bs, rfl, hitems⟩ := exists_array_of_equal h
    have has := hasDistinctKeys_array_iff.mp ha
    have hbs := hasDistinctKeys_array_iff.mp hb
    exact equalItems_symm (fun a ha b hb => ih a ha (has a ha) (hbs b hb)) hitems
  | object as ih =>
    obtain ⟨bs, rfl, hlen, hfields⟩ := exists_object_of_equal h
    obtain ⟨hakeys, has⟩ := hasDistinctKeys_object_iff.mp ha
    obtain ⟨hbkeys, hbs⟩ := hasDistinctKeys_object_iff.mp hb
    refine equal_object_iff.mpr ⟨hlen.symm, ?_⟩
    exact equalFields_symm hlen hakeys hbkeys
      (fun f hf g hg => ih f hf (has f hf) (hbs g hg)) hfields

end Symmetry

section Transitivity

theorem blurred_array_iff {as bs : List Value} :
    Blurred (.array as) (.array bs) ↔ ∃ p ∈ as.zip bs, Blurred p.1 p.2 := by
  constructor
  · rintro (_ | ⟨hplace, h⟩)
    exact ⟨_, hplace, h⟩
  · rintro ⟨p, hplace, h⟩
    exact .items hplace h

theorem blurred_object_iff {as bs : List (String × Value)} (has : (as.map Prod.fst).Nodup) :
    Blurred (.object as) (.object bs) ↔
      ∃ f ∈ as, ∃ b, bs.lookup f.1 = some b ∧ Blurred f.2 b := by
  constructor
  · rintro (_ | _ | ⟨ha, hb, h⟩)
    exact ⟨_, mem_of_lookup ha, _, hb, h⟩
  · rintro ⟨f, hf, b, hb, h⟩
    exact .fields ((lookup_eq_some_iff_mem has).mpr hf) hb h

theorem equalItems_trans_iff {as bs cs : List Value}
    (ih : ∀ a ∈ as, ∀ b c : Value, a.equal b = true → b.equal c = true →
      (a.equal c = true ↔ ¬ Blurred a c))
    (hab : equalItems as bs = true) (hbc : equalItems bs cs = true) :
    equalItems as cs = true ↔ ∀ p ∈ as.zip cs, ¬ Blurred p.1 p.2 := by
  rw [equalItems_iff] at hab hbc
  induction hab generalizing cs with
  | nil =>
    cases hbc
    simp [equalItems]
  | cons hab _ ih' =>
    cases hbc with
    | cons hbc hrest =>
      rw [equalItems, Bool.and_eq_true, ih _ List.mem_cons_self _ _ hab hbc,
        ih' (fun a ha => ih a (List.mem_cons_of_mem _ ha)) hrest]
      simp

theorem equalFields_trans_iff {as bs cs : List (String × Value)}
    (ih : ∀ f ∈ as, ∀ b c : Value, f.2.equal b = true → b.equal c = true →
      (f.2.equal c = true ↔ ¬ Blurred f.2 c))
    (hab : equalFields as bs = true) (hbc : equalFields bs cs = true) :
    equalFields as cs = true ↔ ∀ f ∈ as, ∀ c, cs.lookup f.1 = some c → ¬ Blurred f.2 c := by
  rw [equalFields_iff] at hab hbc ⊢
  refine forall₂_congr fun f hf => ?_
  obtain ⟨b, hb, hab⟩ := hab f hf
  obtain ⟨c, hc, hbc⟩ := hbc _ (mem_of_lookup hb)
  have hac := ih f hf b c hab hbc
  simp [hc, hac]

theorem equal_trans_iff (ha : a.HasDistinctKeys) (hab : a.equal b = true) (hbc : b.equal c = true) :
    a.equal c = true ↔ ¬ Blurred a c := by
  induction a using structural_induction generalizing b c with
  | leaf a hleaf =>
    cases hx : a.number? with
    | some x =>
      obtain ⟨y, hy, hxy⟩ := exists_number_of_equal hx hab
      obtain ⟨z, hz, hyz⟩ := exists_number_of_equal hy hbc
      rw [equal_iff_of_number hx hz]
      exact and_iff_right (Binary64.beq_trans hxy hyz)
    | none =>
      obtain rfl := (equal_iff_eq_of_isLeaf hleaf hx).mp hab
      obtain rfl := (equal_iff_eq_of_isLeaf hleaf hx).mp hbc
      exact iff_of_true hbc (not_blurred_self_of_isLeaf hleaf)
  | array as ih =>
    obtain ⟨bs, rfl, habs⟩ := exists_array_of_equal hab
    obtain ⟨cs, rfl, hbcs⟩ := exists_array_of_equal hbc
    have has := hasDistinctKeys_array_iff.mp ha
    have hitems := equalItems_trans_iff (fun a ha b c => ih a ha (has a ha)) habs hbcs
    rw [equal, hitems, blurred_array_iff]
    simp
  | object as ih =>
    obtain ⟨bs, rfl, hlen, habs⟩ := exists_object_of_equal hab
    obtain ⟨cs, rfl, hlen', hbcs⟩ := exists_object_of_equal hbc
    obtain ⟨hkeys, has⟩ := hasDistinctKeys_object_iff.mp ha
    have hfields := equalFields_trans_iff (fun f hf b c => ih f hf (has f hf)) habs hbcs
    rw [equal_object_iff, and_iff_right (hlen.trans hlen'), hfields, blurred_object_iff hkeys]
    simp

end Transitivity

/-- Equality of values is reflexive on all but NaN, symmetric, and transitive unless the ends are
blurred. -/
theorem beq_equivalence (a b c : Value) (ha : a.HasDistinctKeys) (hb : b.HasDistinctKeys) :
    ((a == a) = true ↔ .float .nan ∉ a.parts) ∧ (a == b) = (b == a) ∧
      ((a == b) = true → (b == c) = true → ((a == c) = true ↔ ¬ Blurred a c)) := by
  refine ⟨equal_self_iff ha, ?_, equal_trans_iff ha⟩
  exact Bool.eq_iff_iff.mpr ⟨equal_symm ha hb, equal_symm hb ha⟩

theorem beq_equivalence_nested :
    let a := Value.object [("x", .int 1), ("y", .array [.float 2, .string "s"])]
    let b := Value.object [("y", .array [.int 2, .string "s"]), ("x", .float 1)]
    let c := Value.object [("x", .int 1), ("y", .array [.int 2, .string "s"])]
    (a == b) = true ∧ (b == c) = true ∧ (a == c) = true ∧ ¬ Blurred a c := by
  intro a b c
  have hab : (a == b) = true := by decide +kernel
  have hbc : (b == c) = true := by decide +kernel
  have hac : (a == c) = true := by decide +kernel
  exact ⟨hab, hbc, hac, ((beq_equivalence a b c (by decide) (by decide)).2.2 hab hbc).mp hac⟩

/-- The binary number stands between two integers that it equals both. -/
theorem beq_not_transitive :
    let a := Value.int 9007199254740993
    let b := Value.float (.ofInt 9007199254740992)
    let c := Value.int 9007199254740992
    (a == b) = true ∧ (b == c) = true ∧ (a == c) = false := by
  decide +kernel

end JsonRules.Value
