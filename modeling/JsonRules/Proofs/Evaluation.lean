import JsonRules.Proofs.Explanation

/-!
Evaluation is a function of the account of the rule (`evaluate_eq_evaluation`): what two accounts have
in common, two evaluations have.
-/
namespace JsonRules
open Trace

def Trace.ofRoot : Option Tree → Trace
  | none => ⟨#[]⟩
  | some root => ⟨(root.nodes none 0 0).toArray⟩

def Account.evaluation (r : Value) (x : Account Value) :
    Except EvalError Evaluation × List String :=
  (x.outcome.map fun (v, entries) => ⟨v, .ofRoot (root? r entries)⟩, x.log)

theorem evaluate_of_error {r data : Value} {e : EvalError}
    (h : (Account.rule r data).outcome = .error e) :
    evaluate r data = (.error e, (Account.rule r data).log) := by
  have happly := apply_eq r data
  simp only [apply, Account.value, h] at happly
  obtain ⟨hresult, hlog⟩ := Prod.mk.inj happly
  exact Prod.ext (Except.map_eq_error.mp hresult) hlog

theorem evaluate_eq_evaluation (r data : Value) :
    evaluate r data = (Account.rule r data).evaluation r := by
  cases h : (Account.rule r data).outcome with
  | error e => simp [evaluate_of_error h, Account.evaluation, h, Except.map]
  | ok x =>
    obtain ⟨v, entries⟩ := x
    obtain ⟨t, ht, hroot⟩ := evaluate_of_outcome h
    have htrace : t = .ofRoot (Account.root? r entries) := by
      cases hr : Account.root? r entries with
      | none =>
        rw [hr] at hroot
        exact congrArg Trace.mk hroot.1
      | some root =>
        rw [hr] at hroot
        obtain ⟨_, _, _, -, hnodes⟩ := hroot
        exact congrArg Trace.mk (Array.toList_inj.mp hnodes)
    rw [ht, htrace]
    simp [Account.evaluation, h, Except.map]

theorem exists_entries {rule data : Value} {e : Evaluation} (h : (evaluate rule data).1 = .ok e) :
    ∃ entries, (Account.rule rule data).outcome = .ok (e.result, entries) ∧
      match Account.root? rule entries with
      | none => e.trace.nodes = #[] ∧ entries = []
      | some root => ∃ op result below, root = .node op result below ∧
          e.trace.nodes.toList = root.nodes none 0 0 := by
  cases hx : (Account.rule rule data).outcome with
  | error err =>
    rw [evaluate_of_error hx] at h
    contradiction
  | ok x =>
    obtain ⟨v, entries⟩ := x
    obtain ⟨t, ht, hroot⟩ := evaluate_of_outcome hx
    rw [ht] at h
    obtain rfl := Except.ok.inj h
    exact ⟨entries, rfl, hroot⟩

theorem exists_layout {rule data : Value} {e : Evaluation} (h : (evaluate rule data).1 = .ok e)
    (hne : e.trace.isEmpty = false) :
    ∃ op result below, e.trace.nodes.toList = (Tree.node op result below).nodes none 0 0 := by
  obtain ⟨entries, -, hroot⟩ := exists_entries h
  cases hr : Account.root? rule entries with
  | none =>
    rw [hr] at hroot
    simp [isEmpty, hroot.1] at hne
  | some root =>
    rw [hr] at hroot
    obtain ⟨op, result, below, rfl, hnodes⟩ := hroot
    exact ⟨op, result, below, hnodes⟩

end JsonRules
