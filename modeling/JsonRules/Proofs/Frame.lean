import JsonRules.Proofs.Log
import JsonRules.Proofs.Trace.Preorder

/-!
What an evaluation leaves alone. Whatever the arena is that it starts with, and whichever node is open, it
adds entries to that node, puts the nodes of these entries behind all others and in the end has the same
node open (`rule_grownAt`): what an operator opens it has closed by then.
-/
namespace JsonRules
open Trace

theorem Forest.result_eq_last (before : Value) (forest : Forest) :
    forest.result before = (forest.leaves.getLast?.map DataPoint.result).getD before := by
  induction forest generalizing before with
  | nil => rfl
  | cons tree rest ih =>
    cases tree with
    | point p =>
      rw [Forest.result, ih, Forest.leaves, Tree.leaves, List.singleton_append, List.getLast?_cons]
      cases (Forest.leaves rest).getLast? <;> rfl
    | node op result entries => exact ih before

namespace Trace

/-- The second node is the first with more entries. Its result is that of the last data point among the
new entries, and without one it is still the same. -/
structure Node.Extends (n n' : Node) : Prop where
  operator : n'.operator = n.operator
  parent : n'.parent = n.parent
  depth : n'.depth = n.depth
  entries : ∃ added, n'.entries = n.entries ++ added
  result : ∃ points, n'.points = n.points ++ points ∧
    n'.result = (points.getLast?.map DataPoint.result).getD n.result

theorem Node.children_extend (handle : Nat) (forest : Forest) (n : Node) :
    (n.extend handle forest).children = n.children ++ forest.handles handle := by
  have hforest : Node.children ⟨n.operator, n.result, n.parent, n.depth,
      (forest.entries handle).toArray⟩ = forest.handles handle := Forest.children_eq_handles
  rw [← hforest]
  simp [Node.children, Node.extend]

theorem Node.points_extend (handle : Nat) (forest : Forest) (n : Node) :
    (n.extend handle forest).points = n.points ++ forest.leaves := by
  have hforest : Node.points ⟨n.operator, n.result, n.parent, n.depth,
      (forest.entries handle).toArray⟩ = forest.leaves := Forest.points_eq_leaves
  rw [← hforest]
  simp [Node.points, Node.extend]

theorem Node.extends_extend (handle : Nat) (forest : Forest) (n : Node) :
    n.Extends (n.extend handle forest) where
  operator := rfl
  parent := rfl
  depth := rfl
  entries := ⟨_, rfl⟩
  result := ⟨forest.leaves, n.points_extend handle forest, forest.result_eq_last n.result⟩

namespace Builder

/-- The second builder is the first with more entries on one node, which is open, and with more nodes at
the end, all of them below this one. -/
structure GrownAt (c : Nat) (b b' : Builder) : Prop where
  cursor : b'.cursor = some c
  kept : ∀ i, i < b.nodes.size → i ≠ c → b'.nodes[i]? = b.nodes[i]?
  extended : ∃ n n', b.nodes[c]? = some n ∧ b'.nodes[c]? = some n' ∧ n.Extends n'
  appended : b.nodes.size ≤ b'.nodes.size
  below : ∀ i, b.nodes.size ≤ i → i < b'.nodes.size → b'.finish.Descends c i

section Grow

variable {b : Builder} {c : Nat}

theorem getElem?_grow (hcursor : b.cursor = some c) {i : Nat} (hi : i < b.nodes.size)
    (f : Forest) :
    (b.grow f).nodes[i]? = (b.nodes.modify c (Node.extend b.nodes.size f))[i]? := by
  simp only [grow, hcursor]
  exact Array.getElem?_append_left (by simpa using hi)

theorem holds_grow (hcursor : b.cursor = some c) (f : Forest) :
    (b.grow f).finish.Holds b.nodes.size
      (f.nodes (some c) (b.depthOf c + 1) b.nodes.size) := by
  let old := (b.nodes.modify c (Node.extend b.nodes.size f)).toList
  let new := f.nodes (some c) (b.depthOf c + 1) b.nodes.size
  have harena : (b.grow f).finish = ⟨(old ++ new).toArray⟩ := by
    simp [finish, grow, hcursor, old, new]
  have hlength : old.length = b.nodes.size := by simp [old]
  have hholds := holds_nodes old new
  rwa [hlength, ← harena] at hholds

theorem grownAt_grow (hcursor : b.cursor = some c) (hlt : c < b.nodes.size) (f : Forest) :
    GrownAt c b (b.grow f) := by
  have hsize : (b.grow f).nodes.size = b.nodes.size + f.size := size_grow ⟨c, hcursor, hlt⟩ f
  obtain ⟨n, hn⟩ : ∃ n, b.nodes[c]? = some n := ⟨_, Array.getElem?_eq_getElem hlt⟩
  have hdepth : b.depthOf c = n.depth := by simp [depthOf, hn]
  have hn' : (b.grow f).nodes[c]? = some (n.extend b.nodes.size f) := by
    rw [getElem?_grow hcursor hlt, Array.getElem?_modify, if_pos rfl, hn, Option.map_some]
  have hholds := holds_grow hcursor f
  constructor
  case cursor => simp [grow, hcursor]
  case kept =>
    intro i hi hne
    rw [getElem?_grow hcursor hi, Array.getElem?_modify, if_neg hne.symm]
  case extended => exact ⟨n, _, hn, hn', n.extends_extend b.nodes.size f⟩
  case appended => omega
  case below =>
    intro i hfirst hlast
    rw [hdepth] at hholds
    refine Forest.descends hn' hlt f ?_ hholds hfirst (by omega)
    rw [Node.children_extend]
    exact List.subset_append_right _ _

end Grow

end Builder
end Trace

namespace Eval

theorem Keeps.exists_grow {α : Type} {m : Eval α} {x : Account α} (hm : Keeps m x) {s s' : Progress}
    {a : α} (hs : s.trace.IsOpen) (h : m.run s = (.ok a, s')) :
    ∃ forest, s'.trace = s.trace.grow forest := by
  cases hx : x.outcome with
  | error e =>
    obtain ⟨trace, hrun⟩ := hm.error hs hx
    rw [hrun] at h
    exact nomatch (Prod.mk.inj h).1
  | ok r =>
    obtain ⟨a', forest⟩ := r
    rw [hm.ok hs hx] at h
    obtain ⟨-, rfl⟩ := Prod.mk.inj h
    exact ⟨forest, rfl⟩

/-- A successful evaluation ends at the open node it started from. It has added entries to this node,
changed none of the others and put new nodes behind them, all of them below this one. -/
theorem rule_grownAt (r data v : Value) (s s' : Progress) (c : Nat)
    (hcursor : s.trace.cursor = some c) (hlt : c < s.trace.nodes.size)
    (h : (rule r data).run s = (.ok v, s')) : Builder.GrownAt c s.trace s'.trace := by
  obtain ⟨forest, hforest⟩ := (keeps_rule r data).exists_grow ⟨c, hcursor, hlt⟩ h
  rw [hforest]
  exact Builder.grownAt_grow hcursor hlt forest

theorem rule_grownAt_cat :
    let before := (((Builder.empty.openRoot .and).openChild .or 0).close (.bool true)).openChild .not 0
    let logged := Value.object [("log", .array [.object [("var", .string "a")]])]
    let negated := Value.object [("!", .array [logged])]
    let r := Value.object [("cat", .array [negated, .string "x"])]
    let data := Value.object [("a", .string "y")]
    ∃ s', before.cursor = some 2 ∧ 2 < before.nodes.size ∧
      (rule r data).run ⟨before, #[]⟩ = (.ok (.string "falsex"), s') ∧
      s'.trace.nodes.size = 4 ∧ Builder.GrownAt 2 before s'.trace := by
  intro before logged negated r data
  obtain ⟨s', h, hsize⟩ : ∃ s', (rule r data).run ⟨before, #[]⟩ = (.ok (.string "falsex"), s') ∧
      s'.trace.nodes.size = 4 := ⟨_, rfl, rfl⟩
  have hlt : 2 < before.nodes.size := by decide
  exact ⟨s', rfl, hlt, h, hsize, rule_grownAt r data _ ⟨before, #[]⟩ s' 2 rfl hlt h⟩

end Eval
end JsonRules
