import JsonRules.Proofs.Outcome

/-!
Summaries: what an evaluation comes to and what it logs, without the entries that explain it. The summary
of an operator is put together from those of its operands (`summary_on`), so laws of operators on values
become laws of rules. Rules of one summary have the same result and the same log (`apply_congr`).
-/
namespace JsonRules

namespace Account

variable {α β : Type}

def summary (x : Account α) : Account α := ⟨x.outcome.map fun r => (r.1, []), x.log⟩

theorem summary_pure (a : α) : (pure a : Account α).summary = pure a := rfl

theorem summary_bind (x : Account α) (f : α → Account β) :
    (x >>= f).summary = x.summary >>= fun a => (f a).summary := by
  cases hx : x.outcome with
  | error e => simp [summary, hx, bind, Except.map]
  | ok r => cases hf : (f r.1).outcome <;> simp [summary, hx, hf, bind, Except.map]

theorem summary_mapM (f : α → Account β) (xs : List α) :
    (xs.mapM f).summary = xs.mapM fun x => (f x).summary :=
  mapM_hom summary summary_pure summary_bind f xs

theorem log_map (f : α → β) (x : Account α) : (f <$> x).log = x.log := by
  rw [map_eq_pure_bind]
  cases hx : x.outcome with
  | error e => rw [bind_of_error hx]
  | ok r =>
    rw [bind_of_ok hx]
    exact List.append_nil x.log

theorem value_summary (x : Account α) : x.summary.value = x.value := by
  cases hx : x.outcome <;> simp [summary, value, hx, Except.map]

theorem summary_enclose (op : Operator) (x : Account Value) :
    (enclose op x).summary = x.summary := by
  cases hop : op.isComposite with
  | false => rw [enclose_of_not_composite hop]
  | true =>
    rw [enclose_of_composite hop]
    cases hx : x.outcome <;> simp [summary, hx, Except.map]

theorem summary_overItems (items : Value) (body : Meaning) :
    (overItems items body).summary = overItems items fun item => (body item).summary := by
  cases items with
  | array items =>
    simp only [overItems, summary_bind, summary_mapM]
    rfl
  | _ => rfl

theorem summary_settle_operand (op : Operator) (operand operand' data : Value)
    (values : List Value) :
    (settle op operand data values).summary = (settle op operand' data values).summary := by
  cases hv : op.result? values <;> simp [settle, hv, summary, Except.map]

theorem summary_settle {op : Operator} (h : op ≠ .log) (operand data : Value)
    (values : List Value) :
    (settle op operand data values).summary = pure (op.valueOn data values) := by
  unfold settle Operator.valueOn
  cases op.result? values with
  | none => rfl
  | some result =>
    rw [Operator.logged, if_neg h]
    rfl

end Account

/-- The rule that applies an operator to a list of operands. -/
def Operator.on (op : Operator) (rs : List Value) : Value := .object [(op.name, .array rs)]

def summary (r data : Value) : Account Value := (Account.rule r data).summary

theorem apply_eq_summary (r data : Value) :
    apply r data = ((summary r data).value, (summary r data).log) := by
  rw [apply_eq, summary, Account.value_summary, Account.summary]

theorem apply_congr {r r' data data' : Value} (h : summary r data = summary r' data') :
    apply r data = apply r' data' := by
  rw [apply_eq_summary, apply_eq_summary, h]

theorem summary_literal {r : Value} (h : r.firstField? = none) (data : Value) :
    summary r data = pure r := by
  rw [summary, Account.rule_literal h, Account.summary_pure]

theorem summary_unrecognized {name : String} (h : Operator.named? name = none) (operand : Value)
    (others : List (String × Value)) (data : Value) :
    summary (.object ((name, operand) :: others)) data = Account.fail (.unrecognized name) := by
  rw [summary, Account.rule_unrecognized h]
  rfl

theorem summary_operator {name : String} {op : Operator} (h : Operator.named? name = some op)
    (hmap : op ≠ .map) (operand : Value) (others : List (String × Value)) (data : Value) :
    summary (.object ((name, operand) :: others)) data = (do
      (Account.settle op .null data
        (← operand.operands.mapM fun r => summary r data)).summary) := by
  rw [summary, Account.rule_object h, Account.summary_enclose, Account.applied_rules hmap,
    Account.summary_bind, Account.summary_mapM]
  exact bind_congr fun values => Account.summary_settle_operand op operand .null data values

theorem summary_map {name : String} (h : Operator.named? name = some .map) (operand : Value)
    (others : List (String × Value)) (data : Value) :
    summary (.object ((name, operand) :: others)) data = (do
      Account.overItems (← summary (Operator.operand operand.operands 0) data)
        (summary (Operator.operand operand.operands 1))) := by
  rw [summary, Account.rule_object h, Account.summary_enclose, Account.applied, if_pos rfl]
  simp only [Account.getD_map_rule, Account.summary_bind, Account.summary_overItems]
  rfl

theorem summary_on {op : Operator} (hmap : op ≠ .map) (hlog : op ≠ .log) (rs : List Value)
    (data : Value) :
    summary (op.on rs) data = op.valueOn data <$> rs.mapM fun r => summary r data := by
  rw [Operator.on, summary_operator (Operator.named?_name op) hmap]
  simp only [Account.summary_settle hlog, bind_pure_comp]
  rfl

theorem summary_single {op : Operator} (hmap : op ≠ .map) (hlog : op ≠ .log) (r data : Value) :
    summary (op.on [r]) data = (fun v => op.valueOn data [v]) <$> summary r data := by
  rw [summary_on hmap hlog]
  simp

theorem apply_single {name : String} {op : Operator} (h : Operator.named? name = some op)
    (hmap : op ≠ .map) (hlog : op ≠ .log) {r data v : Value} (hr : (apply r data).1 = .ok v) :
    apply (.object [(name, .array [r])]) data = (.ok (op.valueOn data [v]), (apply r data).2) := by
  obtain rfl := Operator.name_of_named? h
  have hvalue : (summary r data).value = .ok v := by rw [← hr, apply_eq_summary]
  change apply (op.on [r]) data = _
  rw [apply_eq_summary, summary_single hmap hlog, Account.value_map, Account.log_map, hvalue,
    apply_eq_summary]
  rfl

end JsonRules
