import JsonRules.Proofs.Evaluation
import JsonRules.Proofs.Occurrence

/-!
Variables that a rule does not name do not interfere with it. An operator that is no special form
reads the data at the variable it tests and nowhere else (`settle_congr`), `var` at its name, and
both are among the names of the rule.
-/
namespace JsonRules

namespace Account

variable {d₁ d₂ : Value}

theorem dataPoint_congr (op : Operator) {operand : Value} (result : Value)
    (h : ∀ name, Eval.testedVariable? operand = some name → d₁.lookup? name = d₂.lookup? name) :
    Eval.dataPoint op operand d₁ result = Eval.dataPoint op operand d₂ result := by
  unfold Eval.dataPoint
  cases htested : Eval.testedVariable? operand with
  | none => rfl
  | some name => simp only [Option.bind_some, h name htested]

theorem settle_congr {op : Operator} {operand : Value} (hop : op.readsData = false)
    (h : ∀ name, Eval.testedVariable? operand = some name → d₁.lookup? name = d₂.lookup? name)
    (values : List Value) : settle op operand d₁ values = settle op operand d₂ values := by
  unfold settle
  cases hv : op.result? values with
  | none =>
    rw [Operator.result?_eq_none_iff, hop] at hv
    contradiction
  | some result => simp only [dataPoint_congr op result h]

theorem rule_var_congr {operand : Value} (others : List (String × Value))
    (hliterals : ∀ r ∈ operand.operands, r.firstField? = none)
    (h : d₁.lookup? operand.readName = d₂.lookup? operand.readName) :
    rule (.object (("var", operand) :: others)) d₁ =
      rule (.object (("var", operand) :: others)) d₂ := by
  have hvar : Operator.named? "var" = some .var := rfl
  have hread (d : Value) : rule (.object (("var", operand) :: others)) d =
      pure (d.variableValue operand.readName operand.operands[1]?) := by
    rw [rule_object hvar, enclose_of_not_composite rfl, applied_rules (by decide),
      mapM_eq_pure fun r hr => rule_literal (hliterals r hr) d, pure_bind, Value.readName_eq_operand]
    rfl
  rw [hread, hread, Value.variableValue, Value.variableValue, h]

theorem rule_congr (r : Value)
    (hkeys : ∀ key ∈ ["map", "missing", "missing_some"], key ∉ r.keys)
    (hplain : r.HasPlainReferences)
    (h : ∀ name ∈ r.variableNames, d₁.lookup? name.readName = d₂.lookup? name.readName) :
    rule r d₁ = rule r d₂ := by
  induction r using Value.rule_induction with
  | literal r hr => rw [rule_literal hr, rule_literal hr]
  | object name operand others ih =>
    cases hname : Operator.named? name with
    | none => rw [rule_unrecognized hname, rule_unrecognized hname]
    | some op =>
      by_cases hvar : name = "var"
      · subst hvar
        exact rule_var_congr others (fun r hr => hplain.firstField?_eq_none hr)
          (h operand List.mem_cons_self)
      · -- Neither `var` nor one of the three keys, so this operator is no special form.
        have hop : op.readsData = false := by
          cases hreads : op.readsData with
          | false => rfl
          | true =>
            have hmem := Operator.name_mem_of_readsData hreads
            rw [Operator.name_of_named? hname] at hmem
            have hforbidden := (List.mem_cons.mp hmem).resolve_left hvar
            exact absurd (Value.name_mem_keys name operand others) (hkeys name hforbidden)
        have hnames := Value.variableNames_operand_subset hvar operand others
        have hoperands : ∀ r ∈ operand.operands, rule r d₁ = rule r d₂ := by
          intro r hr
          have hparts : r.parts ⊆ Value.parts (.object ((name, operand) :: others)) :=
            Value.parts_operand_subset hr
          refine ih r hr (fun key hkey hin => hkeys key hkey (Value.keys_subset hparts hin))
            (hplain.mono hparts) fun listed hlisted => ?_
          exact h listed (hnames (Value.variableNames_subset_of_mem_operands hr hlisted))
        have htested : ∀ name, Eval.testedVariable? operand = some name →
            d₁.lookup? name = d₂.lookup? name := by
          intro tested ht
          obtain ⟨listed, hlisted, rfl⟩ := Value.exists_name_of_testedVariable? ht
          exact h listed (hnames hlisted)
        have hmap : op ≠ .map := by
          rintro rfl
          contradiction
        rw [rule_object hname, rule_object hname, applied_rules hmap, applied_rules hmap,
          mapM_congr hoperands]
        simp only [settle_congr hop htested]

end Account

/-- Data that agree on the variables that a rule names lead to the same evaluation: the same result,
trace and log, or the same error. -/
theorem evaluate_eq_of_variables (rule d₁ d₂ : Value)
    (hkeys : ∀ key ∈ ["map", "missing", "missing_some"], key ∉ rule.keys)
    (hplain : rule.HasPlainReferences)
    (h : ∀ name ∈ rule.variableNames, d₁.lookup? name.readName = d₂.lookup? name.readName) :
    evaluate rule d₁ = evaluate rule d₂ := by
  rw [evaluate_eq_evaluation, evaluate_eq_evaluation, Account.rule_congr rule hkeys hplain h]

theorem evaluate_eq_of_variables_less :
    let age := Value.object [("var", .string "age")]
    let limit := Value.object [("var", .array [.string "limit", .int 18])]
    let rule := Value.object [("and", .array [.object [("<", .array [age, limit])],
      .object [("log", .string "young")]])]
    let d₁ := Value.object [("age", .int 7), ("name", .string "a")]
    let d₂ := Value.object [("name", .null), ("age", .int 7)]
    (∀ key ∈ ["map", "missing", "missing_some"], key ∉ rule.keys) ∧ rule.HasPlainReferences ∧
      (∀ name ∈ rule.variableNames, d₁.lookup? name.readName = d₂.lookup? name.readName) ∧
        evaluate rule d₁ = evaluate rule d₂ := by
  intro age limit rule d₁ d₂
  have hkeys : ∀ key ∈ ["map", "missing", "missing_some"], key ∉ rule.keys := by decide
  have hplain : rule.HasPlainReferences := by decide
  have hagree : ∀ name ∈ rule.variableNames,
      d₁.lookup? name.readName = d₂.lookup? name.readName := by
    have hnames : rule.variableNames = [.string "age", .array [.string "limit", .int 18]] := rfl
    rw [hnames]
    intro name hname
    rcases List.mem_cons.mp hname with rfl | hname
    · rfl
    · obtain rfl := List.mem_singleton.mp hname
      rfl
  exact ⟨hkeys, hplain, hagree, evaluate_eq_of_variables rule d₁ d₂ hkeys hplain hagree⟩

end JsonRules
