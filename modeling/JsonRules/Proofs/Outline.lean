import JsonRules.Proofs.Evaluation
import JsonRules.Proofs.Occurrence

/-!
The outline of an explanation, that is all of it but results and current values. A rule without `map`
has one outline for all data: it decides alone which operators come in which order, and whether
evaluation fails.
-/
namespace JsonRules

def DataPoint.outline (p : DataPoint) : DataPoint := { p with current := .null, result := .null }

namespace Trace

def Entry.outline : Entry → Entry
  | .node handle => .node handle
  | .point p => .point p.outline

def Node.outline (n : Node) : Node :=
  { n with result := .null, entries := n.entries.map Entry.outline }

/-- The trace with null in place of all results and current values. -/
def outline (t : Trace) : Trace := ⟨t.nodes.map Node.outline⟩

end Trace

open Trace

mutual

def Tree.outline : Tree → Tree
  | .point p => .point p.outline
  | .node op _ entries => .node op .null (Forest.outline entries)

def Forest.outline : Forest → Forest
  | [] => []
  | tree :: rest => tree.outline :: Forest.outline rest

end

theorem Forest.outline_eq_map (forest : Forest) : forest.outline = forest.map Tree.outline := by
  induction forest with
  | nil => rfl
  | cons tree rest ih => simp only [Forest.outline, ih, List.map_cons]

theorem Forest.outline_append (f g : Forest) :
    Forest.outline (f ++ g) = f.outline ++ g.outline := by
  simp only [Forest.outline_eq_map, List.map_append]

mutual

theorem Tree.size_outline (tree : Tree) : tree.outline.size = tree.size := by
  cases tree with
  | point p => rfl
  | node op result entries => simp only [Tree.outline, Tree.size, Forest.size_outline]

theorem Forest.size_outline (forest : Forest) : Forest.size forest.outline = forest.size := by
  cases forest with
  | nil => rfl
  | cons tree rest =>
    simp only [Forest.outline, Forest.size, Tree.size_outline, Forest.size_outline]

end

theorem Forest.entries_outline (handle : Nat) (forest : Forest) :
    Forest.entries handle forest.outline = (forest.entries handle).map Entry.outline := by
  induction forest generalizing handle with
  | nil => rfl
  | cons tree rest ih =>
    have hentry : tree.outline.entry handle = (tree.entry handle).outline := by
      cases tree <;> rfl
    simp only [Forest.outline, Forest.entries, Tree.size_outline, ih, hentry, List.map_cons]

mutual

theorem Tree.nodes_outline (parent : Option Nat) (depth handle : Nat) (tree : Tree) :
    tree.outline.nodes parent depth handle =
      (tree.nodes parent depth handle).map Node.outline := by
  cases tree with
  | point p => rfl
  | node op result entries =>
    simp only [Tree.outline, Tree.nodes, List.map_cons, Forest.nodes_outline,
      Forest.entries_outline, Node.outline, List.map_toArray]

theorem Forest.nodes_outline (parent : Option Nat) (depth handle : Nat) (forest : Forest) :
    Forest.nodes parent depth handle forest.outline =
      (forest.nodes parent depth handle).map Node.outline := by
  cases forest with
  | nil => rfl
  | cons tree rest =>
    simp only [Forest.outline, Forest.nodes, List.map_append, Tree.nodes_outline,
      Forest.nodes_outline, Tree.size_outline]

end

theorem Trace.outline_ofRoot (root : Option Tree) :
    (Trace.ofRoot root).outline = .ofRoot (root.map Tree.outline) := by
  cases root with
  | none => simp [Trace.ofRoot, Trace.outline]
  | some tree => simp [Trace.ofRoot, Trace.outline, Tree.nodes_outline]

namespace Account

variable {α β γ δ : Type}

theorem root?_outline_congr (r : Value) {f g : Forest} (h : f.outline = g.outline) :
    (root? r f).map Tree.outline = (root? r g).map Tree.outline := by
  cases hr : r.firstField? with
  | none => simp [root?, hr]
  | some field =>
    obtain ⟨name, operand⟩ := field
    cases hop : Operator.named? name with
    | none => simp [root?, hr, hop]
    | some op =>
      cases hc : op.isComposite with
      | false => simp [root?, hr, hop, hc, Tree.outline, h]
      | true =>
        have hhead : f.head?.map Tree.outline = g.head?.map Tree.outline := by
          rw [← List.head?_map, ← List.head?_map, ← Forest.outline_eq_map,
            ← Forest.outline_eq_map, h]
        simpa [root?, hr, hop, hc] using hhead

def outline (x : Account α) : Except EvalError Forest := x.outcome.map fun r => r.2.outline

theorem outline_bind_of_ok {x : Account α} {a : α} {before : Forest}
    (h : x.outcome = .ok (a, before)) (f : α → Account β) :
    (x >>= f).outline = (f a).outline.map (before.outline ++ ·) := by
  rw [bind_of_ok h]
  cases hf : (f a).outcome <;> simp [outline, hf, Except.map, Forest.outline_append]

/-- Two accounts that differ in nothing but values. -/
structure Alike (x : Account α) (y : Account β) : Prop where
  outline : x.outline = y.outline
  log : x.log.length = y.log.length

theorem alike_pure (a : α) (b : β) : Alike (pure a : Account α) (pure b : Account β) := ⟨rfl, rfl⟩

theorem alike_bind {x : Account α} {y : Account β} {f : α → Account γ} {g : β → Account δ}
    (h : Alike x y) (hfg : ∀ a b, Alike (f a) (g b)) : Alike (x >>= f) (y >>= g) := by
  have houtline := h.outline
  unfold Account.outline at houtline
  cases hx : x.outcome with
  | error e =>
    rw [hx] at houtline
    have hy : y.outcome = .error e := Except.map_eq_error.mp houtline.symm
    rw [bind_of_error hx, bind_of_error hy]
    exact ⟨rfl, h.log⟩
  | ok r =>
    rw [hx] at houtline
    obtain ⟨s, hy, hs⟩ := Except.map_eq_ok.mp houtline.symm
    have hrest := hfg r.1 s.1
    constructor
    · rw [outline_bind_of_ok hx, outline_bind_of_ok hy, hs, hrest.outline]
    · rw [bind_of_ok hx, bind_of_ok hy, List.length_append, List.length_append, h.log, hrest.log]

theorem alike_mapM {f : α → Account β} {g : α → Account γ} {xs : List α}
    (h : ∀ x ∈ xs, Alike (f x) (g x)) : Alike (xs.mapM f) (xs.mapM g) := by
  induction xs with
  | nil => exact alike_pure [] []
  | cons x rest ih =>
    have hrest := ih fun y hy => h y (List.mem_cons_of_mem x hy)
    rw [List.mapM_cons, List.mapM_cons]
    exact alike_bind (h x List.mem_cons_self) fun a b =>
      alike_bind hrest fun as bs => alike_pure (a :: as) (b :: bs)

theorem alike_settle (op : Operator) (operand d₁ d₂ : Value) (values₁ values₂ : List Value) :
    Alike (settle op operand d₁ values₁) (settle op operand d₂ values₂) := by
  unfold settle
  cases h₁ : op.result? values₁ with
  | none =>
    have h₂ := (Operator.result?_eq_none_iff op values₂).mpr ((Operator.result?_eq_none_iff op values₁).mp h₁)
    rw [h₂]
    exact alike_pure _ _
  | some result₁ =>
    cases h₂ : op.result? values₂ with
    | none =>
      have h := (Operator.result?_eq_none_iff op values₁).mpr ((Operator.result?_eq_none_iff op values₂).mp h₂)
      rw [h] at h₁
      contradiction
    | some result₂ =>
      constructor
      · cases hc : op.isComposite <;> rfl
      · exact Operator.length_logged op values₁ values₂

theorem alike_enclose (op : Operator) {x y : Account Value} (h : Alike x y) :
    Alike (enclose op x) (enclose op y) := by
  refine ⟨?_, by rw [log_enclose, log_enclose, h.log]⟩
  have houtline := h.outline
  cases hc : op.isComposite with
  | false => rwa [enclose_of_not_composite hc, enclose_of_not_composite hc]
  | true =>
    have hnode (z : Account Value) :
        (enclose op z).outline = z.outline.map fun below => [.node op .null below] := by
      rw [enclose_of_composite hc]
      cases hz : z.outcome <;> simp [outline, hz, Except.map, Forest.outline, Tree.outline]
    rw [hnode, hnode, houtline]

theorem alike_rule (r d₁ d₂ : Value) (hmap : "map" ∉ r.keys) : Alike (rule r d₁) (rule r d₂) := by
  induction r using Value.rule_induction with
  | literal r h =>
    rw [rule_literal h, rule_literal h]
    exact alike_pure r r
  | object name operand others ih =>
    cases h : Operator.named? name with
    | none =>
      rw [rule_unrecognized h, rule_unrecognized h]
      exact ⟨rfl, rfl⟩
    | some op =>
      have hop : op ≠ .map := by
        rintro rfl
        have hname : name = "map" := (Operator.name_of_named? h).symm
        exact hmap (hname ▸ Value.name_mem_keys name operand others)
      rw [rule_object h, rule_object h, applied_rules hop, applied_rules hop]
      refine alike_enclose op ?_
      refine alike_bind (alike_mapM fun r hr => ?_) fun values₁ values₂ =>
        alike_settle op operand d₁ d₂ values₁ values₂
      exact ih r hr fun hkey => hmap (Value.keys_subset (Value.parts_operand_subset hr) hkey)

end Account

/-- A rule without `map` fails on all data with the same error or on none, and its explanations have
one outline: the same nodes with the same entries, but for results and current values. It logs the
same number of lines. -/
theorem outline_independent_of_data (rule d₁ d₂ : Value) (h : "map" ∉ rule.keys) :
    ((evaluate rule d₁).1.map fun e => e.trace.outline) =
        (evaluate rule d₂).1.map (fun e => e.trace.outline) ∧
      (evaluate rule d₁).2.length = (evaluate rule d₂).2.length := by
  have halike := Account.alike_rule rule d₁ d₂ h
  rw [evaluate_eq_evaluation, evaluate_eq_evaluation]
  refine ⟨?_, halike.log⟩
  have houtline := halike.outline
  unfold Account.outline at houtline
  unfold Account.evaluation
  cases h₁ : (Account.rule rule d₁).outcome with
  | error e =>
    rw [h₁] at houtline
    rw [Except.map_eq_error.mp houtline.symm]
  | ok r =>
    rw [h₁] at houtline
    obtain ⟨s, h₂, hs⟩ := Except.map_eq_ok.mp houtline.symm
    rw [h₂]
    simp only [Except.map, outline_ofRoot, Account.root?_outline_congr rule hs]

theorem outline_independent_of_data_if :
    let x := Value.object [("var", .string "x")]
    let condition := Value.object [("!", .array [.object [("<", .array [x, .int 1])]])]
    let rule := Value.object [("if", .array [condition, .object [("log", x)],
      .object [("log", .string "low")]])]
    let few := Value.object [("x", .int 0)]
    let many := Value.object [("x", .int 5)]
    "map" ∉ rule.keys ∧
      ((evaluate rule few).1.map fun e => e.trace.outline) =
          (evaluate rule many).1.map (fun e => e.trace.outline) ∧
        (evaluate rule few).2.length = (evaluate rule many).2.length := by
  intro x condition rule few many
  have hmap : "map" ∉ rule.keys := by decide
  exact ⟨hmap, outline_independent_of_data rule few many hmap⟩

end JsonRules
