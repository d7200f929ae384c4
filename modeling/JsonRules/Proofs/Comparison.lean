import JsonRules.Proofs.NumberLine
import JsonRules.Proofs.Structure
import JsonRules.Value.Truth

/-!
The order of values. A value is ordered only with values of its own kind, integers and binary numbers
being of one kind (`number?`); where there is an order, it is that of a preorder. Swapping two values
swaps their order, and values in a row are ordered from end to end.
-/
namespace JsonRules

theorem Date.compare_eq_compareLex :
    (compare : Date → Date → Ordering) =
      compareLex (compareLex (compareOn Date.year) (compareOn Date.month)) (compareOn Date.day) :=
  rfl

instance : Std.TransOrd Date := by
  unfold Std.TransOrd
  rw [Date.compare_eq_compareLex]
  infer_instance

namespace Value

variable {a b c : Value} {o o₁ o₂ : Ordering}

theorem compare?_number_iff {x : Binary64} (h : a.number? = some x) :
    a.compare? b = some o ↔ ∃ y, b.number? = some y ∧ x.compare? y = some o := by
  cases a with
  | int n =>
    obtain rfl := Option.some.inj h
    cases b <;> simp [compare?, number?]
  | float x =>
    obtain rfl := Option.some.inj h
    cases b <;> simp [compare?, number?]
  | _ => contradiction

theorem compare?_string_iff {s : String} :
    (Value.string s).compare? b = some o ↔ ∃ t, b = .string t ∧ compare s t = o := by
  cases b <;> simp [compare?]

theorem compare?_date_iff {d : Date} :
    (Value.date d).compare? b = some o ↔ ∃ e, b = .date e ∧ compare d e = o := by
  cases b <;> simp [compare?]

theorem compare?_array_iff {as : List Value} :
    (Value.array as).compare? b = some o ↔ ∃ bs, b = .array bs ∧ compareItems? as bs = some o := by
  cases b <;> simp [compare?]

theorem compareItems?_cons_iff {as bs : List Value} :
    compareItems? (a :: as) (b :: bs) = some o ↔
      a.compare? b = some .eq ∧ compareItems? as bs = some o ∨ o ≠ .eq ∧ a.compare? b = some o := by
  rw [compareItems?]
  cases a.compare? b with
  | none => simp
  | some head => cases head <;> cases o <;> simp

section Swap

theorem compare?_swap_number {x : Binary64} (h : a.number? = some x) (b : Value) :
    b.compare? a = (a.compare? b).map Ordering.swap := by
  cases a with
  | int n =>
    cases b with
    | int m => exact Binary64.compare?_swap (ofInt64 n) (ofInt64 m)
    | float y => exact Binary64.compare?_swap (ofInt64 n) y
    | _ => rfl
  | float x =>
    cases b with
    | int m => exact Binary64.compare?_swap x (ofInt64 m)
    | float y => exact Binary64.compare?_swap x y
    | _ => rfl
  | _ => contradiction

theorem compareItems?_swap {as : List Value}
    (h : ∀ a ∈ as, ∀ b : Value, b.compare? a = (a.compare? b).map Ordering.swap)
    (bs : List Value) : compareItems? bs as = (compareItems? as bs).map Ordering.swap := by
  induction as generalizing bs with
  | nil => cases bs <;> rfl
  | cons a as ih =>
    cases bs with
    | nil => rfl
    | cons b bs =>
      have hrest := ih (fun x hx => h x (List.mem_cons_of_mem a hx)) bs
      simp only [compareItems?]
      rw [h a List.mem_cons_self b]
      cases a.compare? b with
      | none => rfl
      | some o =>
        cases o with
        | eq => exact hrest
        | _ => rfl

theorem compare?_swap (a b : Value) : b.compare? a = (a.compare? b).map Ordering.swap := by
  induction a using structural_induction generalizing b with
  | leaf a ha =>
    cases a with
    | int n => exact compare?_swap_number rfl b
    | float x => exact compare?_swap_number rfl b
    | string s =>
      cases b with
      | string t => exact congrArg some Std.OrientedOrd.eq_swap
      | _ => rfl
    | date d =>
      cases b with
      | date e => exact congrArg some Std.OrientedOrd.eq_swap
      | _ => rfl
    | array => contradiction
    | object => contradiction
    | _ => cases b <;> rfl
  | array as ih =>
    cases b with
    | array bs => exact compareItems?_swap ih bs
    | _ => rfl
  | object fields => cases b <;> rfl

end Swap

section Chain

theorem compare?_chain_number {x : Binary64} (h : a.number? = some x) (h₁ : o₁.isLE) (h₂ : o₂.isLE)
    (hab : a.compare? b = some o₁) (hbc : b.compare? c = some o₂) :
    a.compare? c = some (o₁.then o₂) := by
  obtain ⟨y, hy, hxy⟩ := (compare?_number_iff h).mp hab
  obtain ⟨z, hz, hyz⟩ := (compare?_number_iff hy).mp hbc
  exact (compare?_number_iff h).mpr ⟨z, hz, Binary64.compare?_trans h₁ h₂ hxy hyz⟩

theorem eq_lt_of_isLE (h : o.isLE) (hne : o ≠ .eq) : o = .lt := by
  cases o with
  | lt => rfl
  | eq => contradiction
  | gt => contradiction

theorem then_lt_of_isLE (h : o.isLE) : o.then .lt = .lt := by
  cases o with
  | lt => rfl
  | eq => rfl
  | gt => contradiction

/-- The first pair of items that is not equal in one of the two steps decides. -/
theorem compareItems?_chain_cons {as bs cs : List Value}
    (hhead : ∀ o₁ o₂ : Ordering, o₁.isLE → o₂.isLE → a.compare? b = some o₁ →
      b.compare? c = some o₂ → a.compare? c = some (o₁.then o₂))
    (htail : compareItems? as bs = some o₁ → compareItems? bs cs = some o₂ →
      compareItems? as cs = some (o₁.then o₂))
    (h₁ : o₁.isLE) (h₂ : o₂.isLE) (hab : compareItems? (a :: as) (b :: bs) = some o₁)
    (hbc : compareItems? (b :: bs) (c :: cs) = some o₂) :
    compareItems? (a :: as) (c :: cs) = some (o₁.then o₂) := by
  rw [compareItems?_cons_iff] at hab hbc ⊢
  rcases hab with ⟨hab, has⟩ | ⟨hne₁, hab⟩
  · rcases hbc with ⟨hbc, hbs⟩ | ⟨hne₂, hbc⟩
    · exact .inl ⟨hhead _ _ rfl rfl hab hbc, htail has hbs⟩
    · obtain rfl := eq_lt_of_isLE h₂ hne₂
      rw [then_lt_of_isLE h₁]
      exact .inr ⟨hne₂, hhead _ _ rfl rfl hab hbc⟩
  · obtain rfl := eq_lt_of_isLE h₁ hne₁
    refine .inr ⟨hne₁, ?_⟩
    rcases hbc with ⟨hbc, -⟩ | ⟨-, hbc⟩
    · exact hhead .lt .eq rfl rfl hab hbc
    · exact hhead .lt o₂ rfl h₂ hab hbc

theorem compareItems?_chain {as bs cs : List Value}
    (h : ∀ a ∈ as, ∀ (b c : Value) (o₁ o₂ : Ordering), o₁.isLE → o₂.isLE → a.compare? b = some o₁ →
      b.compare? c = some o₂ → a.compare? c = some (o₁.then o₂))
    (h₁ : o₁.isLE) (h₂ : o₂.isLE)
    (hab : compareItems? as bs = some o₁) (hbc : compareItems? bs cs = some o₂) :
    compareItems? as cs = some (o₁.then o₂) := by
  induction as generalizing bs cs with
  | nil =>
    cases bs with
    | nil =>
      obtain rfl := Option.some.inj hab
      exact hbc
    | cons b bs =>
      obtain rfl := Option.some.inj hab
      cases cs with
      | nil =>
        obtain rfl := Option.some.inj hbc
        contradiction
      | cons c cs => rfl
  | cons a as ih =>
    cases bs with
    | nil =>
      obtain rfl := Option.some.inj hab
      contradiction
    | cons b bs =>
      cases cs with
      | nil =>
        obtain rfl := Option.some.inj hbc
        contradiction
      | cons c cs =>
        exact compareItems?_chain_cons (h a List.mem_cons_self b c)
          (ih fun x hx => h x (List.mem_cons_of_mem a hx)) h₁ h₂ hab hbc

theorem compare?_chain (h₁ : o₁.isLE) (h₂ : o₂.isLE) (hab : a.compare? b = some o₁)
    (hbc : b.compare? c = some o₂) : a.compare? c = some (o₁.then o₂) := by
  induction a using structural_induction generalizing b c o₁ o₂ with
  | leaf a ha =>
    cases a with
    | int n => exact compare?_chain_number rfl h₁ h₂ hab hbc
    | float x => exact compare?_chain_number rfl h₁ h₂ hab hbc
    | string s =>
      obtain ⟨t, rfl, rfl⟩ := compare?_string_iff.mp hab
      obtain ⟨u, rfl, rfl⟩ := compare?_string_iff.mp hbc
      exact congrArg some (compare_then h₁ h₂)
    | date d =>
      obtain ⟨e, rfl, rfl⟩ := compare?_date_iff.mp hab
      obtain ⟨f, rfl, rfl⟩ := compare?_date_iff.mp hbc
      exact congrArg some (compare_then h₁ h₂)
    | array => contradiction
    | object => contradiction
    | _ => cases b <;> contradiction
  | array as ih =>
    obtain ⟨bs, rfl, hab⟩ := compare?_array_iff.mp hab
    obtain ⟨cs, rfl, hbc⟩ := compare?_array_iff.mp hbc
    exact compareItems?_chain (fun a ha _ _ _ _ => ih a ha) h₁ h₂ hab hbc
  | object fields => cases b <;> contradiction

end Chain

/-- The order of values is a preorder that leaves pairs without an order: swapping a pair swaps its
order, and of two steps that do not descend the whole way ascends if one of them does, and else the
ends are equal. -/
theorem compare?_preorder (a b c : Value) :
    b.compare? a = (a.compare? b).map Ordering.swap ∧
      ∀ o₁ o₂ : Ordering, o₁ = .lt ∨ o₁ = .eq → o₂ = .lt ∨ o₂ = .eq →
        a.compare? b = some o₁ → b.compare? c = some o₂ →
        a.compare? c = some (if o₁ = .lt ∨ o₂ = .lt then .lt else .eq) := by
  refine ⟨compare?_swap a b, ?_⟩
  rintro o₁ o₂ (rfl | rfl) (rfl | rfl) hab hbc
  all_goals exact compare?_chain rfl rfl hab hbc

theorem compare?_preorder_nested :
    let a := Value.array [.int 1, .array [.float 2]]
    let b := Value.array [.float 1, .array [.int 2]]
    let c := Value.array [.int 1, .array [.int 2, .string "x"]]
    a.compare? b = some .eq ∧ b.compare? c = some .lt ∧ a.compare? c = some .lt := by
  intro a b c
  have hab : a.compare? b = some .eq := by decide +kernel
  have hbc : b.compare? c = some .lt := by decide +kernel
  exact ⟨hab, hbc, (compare?_preorder a b c).2 .eq .lt (.inr rfl) (.inl rfl) hab hbc⟩

end Value
end JsonRules
