import JsonRules.Proofs.Applications
import JsonRules.Proofs.Structure
import Mathlib.Algebra.Order.Group.Nat
import Mathlib.Algebra.Order.BigOperators.Group.List

/-!
What introspection lists of a rule covers what else is said about its variables: a variable that is held
against values is listed once for each of them (`compared_variables_listed`), and a variable that an
explanation names is listed (`tested_variables_listed`). Both are for rules whose references write the
names of their variables, since what stands under a key `var` is not searched.
-/
namespace JsonRules

theorem length_flatMap_le {α β γ : Type} {f : α → List β} {g : α → List γ} {p : γ → Bool}
    {xs : List α} (h : ∀ x ∈ xs, (f x).length ≤ (g x).countP p) :
    (xs.flatMap f).length ≤ (xs.flatMap g).countP p := by
  rw [List.length_flatMap, List.countP_flatMap]
  exact List.sum_le_sum h

namespace Value

variable {v name : Value}

theorem comparedInItems_eq (items : List Value) (name : Value) :
    comparedInItems items name = items.flatMap fun item => item.comparedWith name := by
  induction items with
  | nil => rfl
  | cons item rest ih => simp only [comparedInItems, ih, List.flatMap_cons]

theorem comparedInFields_eq (fields : List (String × Value)) (name : Value) :
    comparedInFields fields name = fields.flatMap fun field => field.2.comparedWith name := by
  induction fields with
  | nil => rfl
  | cons field rest ih => simp only [comparedInFields, ih, List.flatMap_cons]

theorem exists_listed_of_refersTo (h : v.refersTo name = true) :
    ∃ listed ∈ v.variableNames, (listed == name) = true := by
  obtain ⟨listed, hfield, hname⟩ := (Option.any_eq_true _ _).mp h
  exact ⟨listed, mem_variableNames_of_field? hfield, hname⟩

theorem refersTo_of_not_object (h : v.isObject = false) : v.refersTo name = false := by
  cases v with
  | object fields => contradiction
  | _ => rfl

theorem comparedWith_of_no_object (h : ∀ part ∈ v.parts, part.isObject = false) :
    v.comparedWith name = [] := by
  induction v using structural_induction with
  | leaf v hleaf => cases v <;> first | rfl | contradiction
  | array items ih =>
    have hitems := (forall_parts_array_iff.mp h).2
    have hhead : items.head?.any (·.refersTo name) = false := by
      cases items with
      | nil => rfl
      | cons item rest =>
        exact refersTo_of_not_object (hitems item List.mem_cons_self item item.self_mem_parts)
    rw [comparedWith, hhead, if_neg Bool.false_ne_true, comparedInItems_eq,
      List.flatMap_eq_nil_iff]
    exact fun item hitem => ih item hitem (hitems item hitem)
  | object fields ih => exact absurd (h _ (self_mem_parts _)) (by simp [isObject])

theorem length_comparedWith_le (h : v.HasPlainReferences) :
    (v.comparedWith name).length ≤ v.variableNames.countP (· == name) := by
  induction v using structural_induction with
  | leaf v hleaf =>
    have hnone : v.comparedWith name = [] := by
      cases v <;> first | rfl | contradiction
    simp [hnone]
  | array items ih =>
    rw [comparedWith, variableNames, namesInItems_eq]
    cases hhead : items.head?.any (·.refersTo name) with
    | true =>
      obtain ⟨item, hitem, hrefers⟩ := (Option.any_eq_true _ _).mp hhead
      obtain ⟨listed, hlisted, hname⟩ := exists_listed_of_refersTo hrefers
      have hmem : listed ∈ items.flatMap variableNames :=
        List.mem_flatMap.mpr ⟨item, List.mem_of_mem_head? hitem, hlisted⟩
      exact List.countP_pos_iff.mpr ⟨listed, hmem, hname⟩
    | false =>
      rw [if_neg Bool.false_ne_true, comparedInItems_eq]
      exact length_flatMap_le fun item hitem => ih item hitem (h.mono (parts_item_subset hitem))
  | object fields ih =>
    rw [comparedWith, comparedInFields_eq, variableNames, namesInFields_eq]
    refine length_flatMap_le fun field hfield => ?_
    by_cases hvar : field.1 = "var"
    · have hplain : ∀ part ∈ field.2.parts, part.isObject = false :=
        h _ (self_mem_parts _) field hfield hvar
      simp [comparedWith_of_no_object hplain]
    · rw [if_neg hvar]
      exact ih field hfield (h.mono (parts_field_subset hfield))

end Value

/-- A variable is held against values at most as often as it is listed, so one that is held against any
is listed. -/
theorem compared_variables_listed (rule name : Value) (h : rule.HasPlainReferences) :
    (rule.comparedWith name).length ≤ rule.variableNames.countP (· == name) ∧
      (rule.comparedWith name ≠ [] → ∃ listed ∈ rule.variableNames, (listed == name) = true) := by
  have hlength : (rule.comparedWith name).length ≤ rule.variableNames.countP (· == name) :=
    Value.length_comparedWith_le h
  refine ⟨hlength, fun hne => ?_⟩
  exact List.countP_pos_iff.mp (Nat.lt_of_lt_of_le (List.length_pos_iff.mpr hne) hlength)

theorem compared_variables_listed_item :
    let second := Value.object [("var", .int 1)]
    let rule := Value.object [("or", .array [.object [("<", .array [second, .int 5])],
      .object [("in", .array [.object [("log", .null), ("var", .float 1)]])], second])]
    let name := Value.float 1
    rule.HasPlainReferences ∧ (rule.comparedWith name).length = 2 ∧
      2 ≤ rule.variableNames.countP (· == name) ∧
      ∃ listed ∈ rule.variableNames, (listed == name) = true := by
  intro second rule name
  have hplain : rule.HasPlainReferences := by decide
  have htwo : (rule.comparedWith name).length = 2 := by decide +kernel
  obtain ⟨hlength, hlisted⟩ := compared_variables_listed rule name hplain
  have hne : rule.comparedWith name ≠ [] := List.ne_nil_of_length_pos (htwo ▸ Nat.zero_lt_two)
  exact ⟨hplain, htwo, htwo ▸ hlength, hlisted hne⟩

-- What computes the name of a variable is searched for values, but not for names.
example :
    let computed := Value.object [("==", .array [.object [("var", .string "a")], .int 1])]
    let rule := Value.object [("var", computed)]
    rule.comparedWith (.string "a") = [.int 1] ∧
      rule.variableNames.countP (· == .string "a") = 0 :=
  ⟨rfl, rfl⟩

theorem applicationsOfMap_subset {rs : List Value} {data : Value}
    (h : ∀ r ∈ rs, ∀ d, applications r d ⊆ positions r d) :
    applicationsOfMap rs data ⊆ positionsOfMap rs data := by
  match rs, h with
  | [], _ => exact List.Subset.refl _
  | [source], h => exact h source (by simp) data
  | source :: body :: _, h =>
    have hsource := h source (by simp) data
    have hbody := h body (by simp)
    intro q hq
    rw [applicationsOfMap] at hq
    rw [positionsOfMap]
    cases List.mem_append.mp hq with
    | inl hq => exact List.mem_append_left _ (hsource hq)
    | inr hq =>
      obtain ⟨item, hitem, hq⟩ := List.mem_flatMap.mp hq
      exact List.mem_append_right _ (List.mem_flatMap.mpr ⟨item, hitem, hbody item hq⟩)

theorem applications_subset_positions (r data : Value) : applications r data ⊆ positions r data := by
  induction r using Value.rule_induction generalizing data with
  | literal r h => simp [applications_literal h]
  | object name operand others ih =>
    intro q hq
    rw [applications_object] at hq
    rw [positions_object]
    cases List.mem_append.mp hq with
    | inr hself =>
      obtain rfl := List.mem_singleton.mp hself
      exact List.mem_cons_self
    | inl hq =>
      refine List.mem_cons_of_mem _ ?_
      by_cases hname : name = "map"
      · rw [if_pos hname] at hq ⊢
        exact applicationsOfMap_subset ih hq
      · rw [if_neg hname] at hq ⊢
        obtain ⟨r, hr, hq⟩ := List.mem_flatMap.mp hq
        exact List.mem_flatMap.mpr ⟨r, hr, ih r hr data hq⟩

/-- Evaluation meets no object below a key `var`, and elsewhere introspection goes where it goes. -/
theorem variableNames_subset_of_mem_positions {r data : Value} {p : Position}
    (hplain : r.HasPlainReferences) (hp : p ∈ positions r data)
    (hrule : p.rule.firstField? ≠ none) : p.rule.variableNames ⊆ r.variableNames := by
  induction r using Value.rule_induction generalizing data with
  | literal r h =>
    rw [positions_literal h] at hp
    obtain rfl := List.mem_singleton.mp hp
    exact List.Subset.refl _
  | object name operand others ih =>
    cases mem_positions_object hp with
    | inl hself =>
      subst hself
      exact List.Subset.refl _
    | inr hbelow =>
      obtain ⟨r, hr, d, hpr, -⟩ := hbelow
      by_cases hvar : name = "var"
      · subst hvar
        have hliteral := hplain.firstField?_eq_none hr
        rw [positions_literal hliteral] at hpr
        obtain rfl := List.mem_singleton.mp hpr
        contradiction
      · have hnames := Value.variableNames_operand_subset hvar operand others
        have hr' := Value.variableNames_subset_of_mem_operands hr
        have hbelow := ih r hr (hplain.mono (Value.parts_operand_subset hr)) hpr
        exact fun listed hlisted => hnames (hr' (hbelow hlisted))

namespace Value

theorem isNull_of_testedVariable? {operand name : Value}
    (h : Eval.testedVariable? operand = some name) : name.isNull = false := by
  have hfound {found : Option Value}
      (hx : (found.bind fun x => if x.isNull then none else some x) = some name) :
      name.isNull = false := by
    obtain ⟨x, -, hx⟩ := Option.bind_eq_some_iff.mp hx
    split at hx
    next => contradiction
    next hnull => simpa [← Option.some.inj hx] using hnull
  cases operand with
  | array operands =>
    simp only [Eval.testedVariable?, Option.bind_eq_bind, Option.bind_eq_some_iff] at h
    obtain ⟨reference, -, listed, -, hname⟩ := h
    split at hname
    next => exact hfound hname
    next => exact hfound hname
  | _ => contradiction

theorem names_of_readName {listed name : Value} (h : listed.readName = name)
    (hname : name.isNull = false) :
    listed = name ∨ ∃ rest, listed = .array (name :: rest) := by
  subst h
  cases listed with
  | array names =>
    cases names with
    | nil => contradiction
    | cons first rest => exact .inr ⟨rest, rfl⟩
  | _ => exact .inl rfl

end Value

open Trace

theorem exists_application_of_mem_points {rule data : Value} {e : Evaluation}
    (h : (evaluate rule data).1 = .ok e) {n : Node} (hn : n ∈ e.trace.nodes.toList) {p : DataPoint}
    (hp : p ∈ n.points) : ∃ q ∈ applications rule data, q.point? = some p := by
  obtain ⟨entries, hx, hroot⟩ := exists_entries h
  have hpoints := leaves_rule rule data e.result entries hx
  cases hr : Account.root? rule entries with
  | none =>
    rw [hr] at hroot
    simp [hroot.1] at hn
  | some root =>
    rw [hr] at hroot
    obtain ⟨op, result, below, rfl, hnodes⟩ := hroot
    have hperm := Tree.points_perm none 0 0 (Tree.node op result below)
    rw [← hnodes, Account.points_root? hx hr, hpoints] at hperm
    have hmem : p ∈ e.trace.nodes.toList.flatMap Node.points := List.mem_flatMap.mpr ⟨n, hn, hp⟩
    exact List.mem_filterMap.mp (hperm.subset hmem)

/-- A variable that an explanation names is listed by introspection, as it is or at the head of an array. -/
theorem tested_variables_listed (rule data : Value) (e : Evaluation)
    (h : (evaluate rule data).1 = .ok e) (hplain : rule.HasPlainReferences) :
    ∀ n ∈ e.trace.nodes.toList, ∀ p ∈ n.points, ∀ name, p.tested = some name →
      ∃ listed ∈ rule.variableNames, listed = name ∨ ∃ rest, listed = .array (name :: rest) := by
  intro n hn p hp name hname
  obtain ⟨q, hq, hpoint⟩ := exists_application_of_mem_points h hn hp
  obtain ⟨key, operand, others, op, result, hrule, hop, hreads, -, rfl⟩ :=
    Position.exists_of_point? hpoint
  obtain ⟨listed, hlisted, hread⟩ := Value.exists_name_of_testedVariable? hname
  refine ⟨listed, ?_, Value.names_of_readName hread (Value.isNull_of_testedVariable? hname)⟩
  have hvar : key ≠ "var" := by
    intro hkey
    subst hkey
    obtain rfl := Option.some.inj hop
    contradiction
  have hmet : q ∈ positions rule data := applications_subset_positions rule data hq
  have hobject : q.rule.firstField? ≠ none := by simp [hrule, Value.firstField?]
  have hnames := variableNames_subset_of_mem_positions hplain hmet hobject
  rw [hrule] at hnames
  exact hnames (Value.variableNames_operand_subset hvar operand others hlisted)

theorem tested_variables_listed_map :
    let age := Value.object [("log", .int 1), ("var", .array [.string "age", .int 0])]
    let rule := Value.object [("map", .array [.object [("var", .string "people")],
      .object [("<", .array [age, .int 18])]])]
    let data := Value.object [("people", .array [.object [("age", .int 3)], .null])]
    ∃ e, (evaluate rule data).1 = .ok e ∧ rule.HasPlainReferences ∧
      (evaluate rule data).1.toOption.map (fun e => (e.trace.nodes.toList.flatMap Node.points).map
        fun p => p.tested.map Value.display) = some [none, some "age", none, some "age"] ∧
      ∀ n ∈ e.trace.nodes.toList, ∀ p ∈ n.points, ∀ name, p.tested = some name →
        ∃ listed ∈ rule.variableNames, listed = name ∨ ∃ rest, listed = .array (name :: rest) := by
  intro age rule data
  obtain ⟨e, h⟩ : ∃ e, (evaluate rule data).1 = .ok e := ⟨_, rfl⟩
  have hplain : rule.HasPlainReferences := by decide
  exact ⟨e, h, hplain, by decide +kernel, tested_variables_listed rule data e h hplain⟩

end JsonRules
