import JsonRules.Proofs.Simulation
import JsonRules.Proofs.Trace.Unfolding

/-!
Evaluation as a whole against the account of the rule. Outcome and log are those of the account
(`apply_eq`), and the trace of a successful evaluation is the layout of one tree, which the entries
of the account determine (`evaluate_of_outcome`).
-/
namespace JsonRules
open Trace

theorem evaluate_unrecognized {name : String} (h : Operator.named? name = none) (operand : Value)
    (others : List (String × Value)) (data : Value) :
    evaluate (.object ((name, operand) :: others)) data = (.error (.unrecognized name), []) := by
  simp only [evaluate]
  rw [Eval.rule_unrecognized h]
  rfl

theorem evaluate_literal {r : Value} (h : r.firstField? = none) (data : Value) :
    evaluate r data = (.ok ⟨r, ⟨#[]⟩⟩, []) := by
  simp only [evaluate]
  rw [Eval.rule_literal h]
  rfl

theorem apply_eq (r data : Value) :
    apply r data = ((Account.rule r data).value, (Account.rule r data).log) := by
  unfold apply
  cases hr : r.firstField? with
  | none =>
    rw [evaluate_literal hr, Account.rule_literal hr]
    rfl
  | some field =>
    obtain ⟨name, operand⟩ := field
    obtain ⟨others, rfl⟩ := Value.eq_object_of_firstField? hr
    cases hop : Operator.named? name with
    | none =>
      rw [evaluate_unrecognized hop, Account.rule_unrecognized hop]
      rfl
    | some op =>
      rw [evaluate_object hop, Account.rule_object hop, Account.value_enclose,
        Account.log_enclose, Account.value]
      cases (Account.applied op operand (operand.operands.map Account.rule) data).outcome <;> rfl

namespace Account

/-- The tree that explains a rule with these entries. A composite operator is its own root; any other
first operator is a root over its entries, with the result of the last data point among them. -/
def root? (r : Value) (entries : Forest) : Option Tree :=
  match r.firstField? with
  | none => none
  | some (name, _) => do
    let op ← Operator.named? name
    if op.isComposite then
      entries.head?
    else
      return .node op (Forest.result (.bool false) entries) entries

end Account

theorem nodes_grow_openRoot (op : Operator) (entries : Forest) :
    ((Builder.empty.openRoot op).grow entries).nodes.toList =
      (Tree.node op (Forest.result (.bool false) entries) entries).nodes none 0 0 := by
  simp [Builder.grow, Builder.openRoot, Builder.empty, Builder.depthOf, Node.extend, Tree.nodes]

theorem nodes_close_grow_openRoot (op : Operator) (entries : Forest) (result : Value) :
    (((Builder.empty.openRoot op).grow entries).close result).nodes.toList =
      (Tree.node op result entries).nodes none 0 0 := by
  simp [Builder.grow, Builder.openRoot, Builder.empty, Builder.depthOf, Node.extend, Tree.nodes,
    Builder.close]

theorem evaluate_of_outcome {r data v : Value} {entries : Forest}
    (h : (Account.rule r data).outcome = .ok (v, entries)) :
    ∃ t : Trace, evaluate r data = (.ok ⟨v, t⟩, (Account.rule r data).log) ∧
      match Account.root? r entries with
      | none => t.nodes = #[] ∧ entries = []
      | some root => ∃ op result below, root = .node op result below ∧
          t.nodes.toList = root.nodes none 0 0 := by
  cases hr : r.firstField? with
  | none =>
    rw [Account.rule_literal hr] at h ⊢
    obtain ⟨rfl, rfl⟩ := Prod.mk.inj (Except.ok.inj h)
    refine ⟨⟨#[]⟩, evaluate_literal hr data, ?_⟩
    simp [Account.root?, hr]
  | some field =>
    obtain ⟨name, operand⟩ := field
    obtain ⟨others, rfl⟩ := Value.eq_object_of_firstField? hr
    cases hop : Operator.named? name with
    | none =>
      rw [Account.rule_unrecognized hop] at h
      contradiction
    | some op =>
      rw [Account.rule_object hop] at h ⊢
      rw [evaluate_object hop]
      cases hc : op.isComposite with
      | true =>
        rw [Account.enclose_of_composite hc] at h ⊢
        obtain ⟨⟨_, below⟩, hx, heq⟩ := Except.map_eq_ok.mp h
        obtain ⟨rfl, rfl⟩ := Prod.mk.inj heq
        rw [hx]
        refine ⟨_, rfl, ?_⟩
        simp only [Account.root?, Value.firstField?, hop, hc, Option.bind_eq_bind, Option.bind_some,
          if_true, List.head?_cons]
        refine ⟨op, _, below, rfl, ?_⟩
        simp [Eval.closing, hc, Builder.finish, nodes_close_grow_openRoot]
      | false =>
        rw [Account.enclose_of_not_composite hc] at h ⊢
        rw [h]
        refine ⟨_, rfl, ?_⟩
        simp only [Account.root?, Value.firstField?, hop, hc, Option.bind_eq_bind, Option.bind_some]
        refine ⟨op, _, entries, rfl, ?_⟩
        simp [Eval.closing, hc, Builder.finish, nodes_grow_openRoot]

end JsonRules
