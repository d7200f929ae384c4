import JsonRules.Proofs.Evaluation
import JsonRules.Proofs.Trace.Parts
import JsonRules.Proofs.Trace.Preorder
import Mathlib.Data.List.Nodup

/-!
The arena of an evaluation. Its nodes are those of one tree in preorder: handles, parents and depths
agree with each other, and every way to go through the trace ends and meets all nodes.
-/
namespace JsonRules

namespace Trace

/-- A trace whose nodes are those of one tree, each standing where a walk through the tree gets to it.
A handle counts as often as it stands in the entries of some node. -/
structure WellFormed (t : Trace) : Prop where
  inRange : ∀ i n, t.get? i = some n →
    (∀ p, n.parent = some p → p < t.size) ∧ ∀ child ∈ n.children, child < t.size
  root : ∃ n, t.get? 0 = some n ∧ n.parent = none ∧ n.depth = 0
  parent : ∀ i n, t.get? i = some n → 0 < i → t.HasParent i n
  once : ∀ i, 0 < i → i < t.size → (t.nodes.toList.flatMap Node.children).count i = 1
  preorder : ∀ visited, t.Visits 0 visited ↔ visited = List.range t.size

theorem exists_get? {t : Trace} {i : Nat} (h : i < t.size) : ∃ n, t.get? i = some n :=
  ⟨t.nodes[i], Array.getElem?_eq_getElem h⟩

theorem eq_of_mem_children {t : Trace} (hnodup : (t.nodes.toList.flatMap Node.children).Nodup)
    {i j child : Nat} {n m : Node} (hi : t.get? i = some n) (hj : t.get? j = some m)
    (hn : child ∈ n.children) (hm : child ∈ m.children) : i = j := by
  obtain ⟨-, hpairs⟩ := List.nodup_flatMap.mp hnodup
  have hdisjoint {a b : Nat} {x y : Node} (ha : t.get? a = some x) (hb : t.get? b = some y)
      (hab : a < b) : List.Disjoint x.children y.children := by
    obtain ⟨halt, rfl⟩ := Array.getElem?_eq_some_iff.mp ha
    obtain ⟨hblt, rfl⟩ := Array.getElem?_eq_some_iff.mp hb
    exact List.pairwise_iff_getElem.mp hpairs a b halt hblt hab
  rcases Nat.lt_trichotomy i j with hlt | rfl | hlt
  · exact absurd hm (hdisjoint hi hj hlt hn)
  · rfl
  · exact absurd hn (hdisjoint hj hi hlt hm)

section Layout

variable {t : Trace} {op : Operator} {result : Value} {entries : Forest}
  (h : t.nodes.toList = (Tree.node op result entries).nodes none 0 0)

include h

theorem size_layout : t.size = entries.size + 1 := by
  have hlength := congrArg List.length h
  rwa [Tree.length_nodes] at hlength

theorem children_layout_perm :
    (t.nodes.toList.flatMap Node.children).Perm (List.range' 1 entries.size) := by
  have hperm := Tree.handles_perm none 0 0 (Tree.node op result entries)
  rw [← h] at hperm
  exact List.Perm.cons_inv hperm

theorem hasParent_layout {i : Nat} {n : Node} (found : t.get? i = some n) (hi : 0 < i) :
    t.HasParent i n := by
  have hh := holds_layout h
  have hlast : i < t.size := lt_size_of_get? found
  rw [size_layout h] at hlast
  refine (Forest.descends hh.1 Nat.zero_lt_one entries ?_ hh.2 hi (by omega)).hasParent found
  rw [Forest.children_eq_handles]
  exact List.Subset.refl _

theorem visits_layout : t.Visits 0 (List.range t.size) := by
  have hh := holds_layout h
  have hbelow := Forest.visits entries hh.2
  rw [← Forest.children_eq_handles] at hbelow
  rw [size_layout h, List.range_eq_range', List.range'_succ]
  exact .node hh.1 hbelow

theorem mem_range_of_mem_children {i child : Nat} {n : Node} (found : t.get? i = some n)
    (hchild : child ∈ n.children) : 0 < child ∧ child < t.size := by
  obtain ⟨hi, rfl⟩ := Array.getElem?_eq_some_iff.mp found
  have hmem : child ∈ t.nodes.toList.flatMap Node.children :=
    List.mem_flatMap.mpr ⟨_, Array.mem_toList_iff.mpr (Array.getElem_mem hi), hchild⟩
  have hrange := List.mem_range'_1.mp ((children_layout_perm h).subset hmem)
  rw [size_layout h]
  omega

theorem lt_of_mem_children {i child : Nat} {n : Node} (found : t.get? i = some n)
    (hchild : child ∈ n.children) : i < child := by
  obtain ⟨hpos, hlt⟩ := mem_range_of_mem_children h found hchild
  obtain ⟨k, hk⟩ := exists_get? hlt
  obtain ⟨p, m, -, hp, hm, -, hmem⟩ := hasParent_layout h hk hpos
  -- The child stands in its parent as well, and no handle stands in two nodes.
  have hnodup := (children_layout_perm h).nodup_iff.mpr List.nodup_range'
  rwa [eq_of_mem_children hnodup found hm hchild hmem]

theorem wellFormed_layout : t.WellFormed where
  inRange := by
    intro i n found
    refine ⟨fun p hp => ?_, fun child hchild => (mem_range_of_mem_children h found hchild).2⟩
    rcases Nat.eq_zero_or_pos i with rfl | hi
    · cases found.symm.trans (holds_layout h).1
      contradiction
    · obtain ⟨q, _, hq, hlt, -⟩ := hasParent_layout h found hi
      obtain rfl := Option.some.inj (hp.symm.trans hq)
      exact Nat.lt_trans hlt (lt_size_of_get? found)
  root := ⟨_, (holds_layout h).1, rfl, rfl⟩
  parent := fun i n found hi => hasParent_layout h found hi
  once := by
    intro i hi hlt
    rw [size_layout h] at hlt
    have hmem : i ∈ List.range' 1 entries.size := List.mem_range'_1.mpr (by omega)
    rw [(children_layout_perm h).count_eq]
    exact List.count_eq_one_of_mem List.nodup_range' hmem
  preorder := by
    intro visited
    constructor
    · intro hvisited
      exact hvisited.unique (visits_layout h)
    · rintro rfl
      exact visits_layout h

theorem handles_layout : t.handles = List.range t.size :=
  (visits_layout h).handlesAt_eq fun _ _ found _ hchild => lt_of_mem_children h found hchild

theorem mentions_layout {i : Nat} {n : Node} (found : t.get? i = some n) : t.Mentions n := by
  have hn : n ∈ t.nodes.toList := Array.mem_toList_iff.mpr (Array.mem_of_getElem? found)
  rw [h] at hn
  obtain ⟨_, hwithin⟩ := Tree.exists_within_reason _ hn
  exact mentions_of_within (unfolds_layout h).2 hwithin

end Layout

end Trace

open Trace

/-- The trace of a successful evaluation, unless it is empty, is well-formed. A walk by handles goes
through all of it, its report and its JSON form mention every node, and they are those of a tree with as
many nodes. -/
theorem evaluate_wellFormed (rule data : Value) (e : Evaluation)
    (h : (evaluate rule data).1 = .ok e) (hne : e.trace.isEmpty = false) :
    e.trace.WellFormed ∧ e.trace.handles = List.range e.trace.size ∧
      (∀ i n, e.trace.get? i = some n → e.trace.Mentions n) ∧
      ∃ tree, Entry.Unfolds e.trace (.node 0) tree ∧ tree.size = e.trace.size ∧
        e.trace.explanation? = some (tree.reason 0) ∧
        e.trace.report = (tree.reason 0).report ∧ e.trace.toJson = (tree.reason 0).toJson := by
  obtain ⟨op, result, entries, hnodes⟩ := exists_layout h hne
  obtain ⟨hunfolds, hexplanation⟩ := unfolds_layout hnodes
  have hsize := (size_layout hnodes).symm
  exact ⟨wellFormed_layout hnodes, handles_layout hnodes, fun i n found => mentions_layout hnodes found,
    _, hunfolds, hsize, hexplanation, report_of_explanation? hexplanation,
    toJson_of_explanation? hexplanation⟩

theorem evaluate_wellFormed_map :
    let logged := Value.object [("log", .array [.object [("var", .string "")]])]
    let body := Value.object [("!", .array [.object [("or", .array [logged])]])]
    let rule := Value.object [("map", .array [.array [.string "a", .string ""], body])]
    ∃ e, (evaluate rule .null).1 = .ok e ∧ e.trace.isEmpty = false ∧ e.trace.WellFormed ∧
      e.trace.handles = List.range e.trace.size ∧
        (∀ i n, e.trace.get? i = some n → e.trace.Mentions n) ∧
        ∃ tree, Entry.Unfolds e.trace (.node 0) tree ∧ tree.size = e.trace.size ∧
          e.trace.explanation? = some (tree.reason 0) ∧
          e.trace.report = (tree.reason 0).report ∧ e.trace.toJson = (tree.reason 0).toJson := by
  intro logged body rule
  obtain ⟨e, h⟩ : ∃ e, (evaluate rule .null).1 = .ok e := ⟨_, rfl⟩
  have hempty : (evaluate rule .null).1.map (fun e => e.trace.isEmpty) = .ok false := by
    decide +kernel
  have hne : e.trace.isEmpty = false := by
    rw [h] at hempty
    exact Except.ok.inj hempty
  exact ⟨e, h, hne, evaluate_wellFormed rule .null e h hne⟩

end JsonRules
