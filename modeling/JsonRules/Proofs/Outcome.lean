import JsonRules.Proofs.Explanation
import Mathlib.Data.List.Forall2

/-!
The outcome of a rule, a value or an error, without trace and log. It is put together from the
outcomes of the operands alone: `outcome_operator` for an operator on their values, `outcome_map` for
`map`.
-/
namespace JsonRules

def Value.items : Value → List Value
  | .array items => items
  | _ => []

def Operator.valueOn (op : Operator) (data : Value) (values : List Value) : Value :=
  (op.result? values).getD (Eval.readData op data values)

namespace Account

variable {α β : Type}

theorem value_pure (a : α) : (pure a : Account α).value = pure a := rfl

theorem value_bind (x : Account α) (f : α → Account β) :
    (x >>= f).value = x.value >>= fun a => (f a).value := by
  cases hx : x.outcome with
  | error e =>
    rw [bind_of_error hx]
    simp [value, hx, Except.map, bind, Except.bind]
  | ok r =>
    rw [bind_of_ok hx]
    cases hf : (f r.1).outcome <;> simp [value, hx, hf, Except.map, bind, Except.bind]

theorem value_map (f : α → β) (x : Account α) : (f <$> x).value = f <$> x.value := by
  rw [map_eq_pure_bind, value_bind, map_eq_pure_bind]
  rfl

theorem value_mapM (f : α → Account β) (xs : List α) :
    (xs.mapM f).value = xs.mapM fun x => (f x).value :=
  mapM_hom value value_pure value_bind f xs

theorem value_settle (op : Operator) (operand data : Value) (values : List Value) :
    (settle op operand data values).value = pure (op.valueOn data values) := by
  unfold settle Operator.valueOn
  cases op.result? values <;> rfl

theorem value_overItems (items : Value) (body : Meaning) :
    (overItems items body).value = .array <$> items.items.mapM fun item => (body item).value := by
  cases items <;> simp [overItems, value_map, value_mapM, value_pure, Value.items]

end Account

theorem mapM_eq_ok_iff {ε α β : Type} {f : α → Except ε β} {xs : List α} {ys : List β} :
    xs.mapM f = .ok ys ↔ List.Forall₂ (fun x y => f x = .ok y) xs ys := by
  induction xs generalizing ys with
  | nil => cases ys <;> simp [pure, Except.pure]
  | cons x rest ih =>
    rw [List.mapM_cons, List.forall₂_cons_left_iff]
    simp only [← ih]
    cases f x with
    | error e => simp [bind, Except.bind]
    | ok y => cases rest.mapM f <;> simp [bind, Except.bind, pure, Except.pure, eq_comm]

theorem exists_ok_of_mem {ε α β : Type} {f : α → Except ε β} {xs : List α} {ys : List β}
    (h : xs.mapM f = .ok ys) {x : α} (hx : x ∈ xs) : ∃ y, f x = .ok y := by
  have hall := mapM_eq_ok_iff.mp h
  clear h
  induction hall with
  | nil => contradiction
  | cons hy _ ih =>
    rcases List.mem_cons.mp hx with rfl | hx
    · exact ⟨_, hy⟩
    · exact ih hx

def outcome (r data : Value) : Except EvalError Value := (apply r data).1

theorem outcome_eq_map (r data : Value) :
    outcome r data = (evaluate r data).1.map Evaluation.result := rfl

theorem outcome_eq_value (r data : Value) : outcome r data = (Account.rule r data).value :=
  congrArg Prod.fst (apply_eq r data)

theorem outcome_literal {r : Value} (h : r.firstField? = none) (data : Value) :
    outcome r data = .ok r := by
  rw [outcome_eq_value, Account.rule_literal h]
  rfl

theorem outcome_unrecognized {name : String} (h : Operator.named? name = none) (operand : Value)
    (others : List (String × Value)) (data : Value) :
    outcome (.object ((name, operand) :: others)) data = .error (.unrecognized name) := by
  rw [outcome_eq_value, Account.rule_unrecognized h]
  rfl

theorem outcome_operator {name : String} {op : Operator} (h : Operator.named? name = some op)
    (hop : op ≠ .map) (operand : Value) (others : List (String × Value)) (data : Value) :
    outcome (.object ((name, operand) :: others)) data =
      op.valueOn data <$> operand.operands.mapM fun r => outcome r data := by
  simp only [outcome_eq_value]
  rw [Account.rule_object h, Account.value_enclose, Account.applied_rules hop]
  simp [Account.value_bind, Account.value_mapM, Account.value_settle]

theorem outcome_map {name : String} (h : Operator.named? name = some .map) (operand : Value)
    (others : List (String × Value)) (data : Value) :
    outcome (.object ((name, operand) :: others)) data = (do
      let source ← outcome (Operator.operand operand.operands 0) data
      .array <$> source.items.mapM (outcome (Operator.operand operand.operands 1))) := by
  rw [outcome_eq_value, Account.rule_object h, Account.value_enclose, Account.applied, if_pos rfl]
  simp only [Account.getD_map_rule, Account.value_bind, Account.value_overItems,
    ← outcome_eq_value]

theorem outcome_var (operand : Value) (others : List (String × Value)) (data : Value) :
    outcome (.object (("var", operand) :: others)) data =
      (fun values => data.variableValue (Operator.operand values 0) values[1]?) <$>
        operand.operands.mapM fun r => outcome r data := by
  have hnamed : Operator.named? "var" = some .var := rfl
  exact outcome_operator hnamed (by decide) operand others data

end JsonRules
