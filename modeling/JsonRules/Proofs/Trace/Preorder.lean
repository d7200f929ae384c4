import JsonRules.Proofs.Trace.Unfolding
import Mathlib.Logic.Relation

/-!
Handles in an arena that is the layout of a tree. Every handle but the first stands in the entries of
one node, that of its parent (`Forest.handles_perm`, `Descends.hasParent`), and the way up by the parents
leads to the node that the layout starts from (`Forest.descends`). Whoever follows the children depth
first meets the handles in the order of the arena (`Forest.visits`).
-/
namespace JsonRules

namespace Trace

/-- The parent of this node comes before it, has it among its children and stands one level higher. -/
def HasParent (t : Trace) (handle : Nat) (n : Node) : Prop :=
  ∃ p m, n.parent = some p ∧ p < handle ∧ t.get? p = some m ∧ n.depth = m.depth + 1 ∧
    handle ∈ m.children

/-- The second node names the first as its parent and is among the children of that one, after it in the
arena and one level below. -/
def IsChild (t : Trace) (parent handle : Nat) : Prop :=
  ∃ m n, t.get? parent = some m ∧ t.get? handle = some n ∧ n.parent = some parent ∧
    parent < handle ∧ n.depth = m.depth + 1 ∧ handle ∈ m.children

/-- One step to a child or several in a row lead from the first node to the second. -/
def Descends (t : Trace) (top handle : Nat) : Prop := Relation.TransGen t.IsChild top handle

theorem Descends.hasParent {t : Trace} {top handle : Nat} {n : Node} (h : t.Descends top handle)
    (found : t.get? handle = some n) : t.HasParent handle n := by
  obtain ⟨p, -, m, n', hm, hn, hparent, hlt, hdepth, hmem⟩ := Relation.TransGen.tail'_iff.mp h
  cases hn.symm.trans found
  exact ⟨p, m, hparent, hlt, hm, hdepth, hmem⟩

mutual

/-- Depth first from a node, its children in the order of its entries: the handles on the way. -/
inductive Visits (t : Trace) : Nat → List Nat → Prop
  | node {handle : Nat} {n : Node} {below : List Nat} (found : t.get? handle = some n)
      (children : VisitsAll t n.children below) : Visits t handle (handle :: below)

inductive VisitsAll (t : Trace) : List Nat → List Nat → Prop
  | nil : VisitsAll t [] []
  | cons {child : Nat} {children visited rest : List Nat} (head : Visits t child visited)
      (tail : VisitsAll t children rest) : VisitsAll t (child :: children) (visited ++ rest)

end

mutual

theorem Visits.unique {t : Trace} {handle : Nat} {xs ys : List Nat} :
    Visits t handle xs → Visits t handle ys → xs = ys
  | .node found children, .node found' children' => by
    cases found.symm.trans found'
    rw [VisitsAll.unique children children']

theorem VisitsAll.unique {t : Trace} {children xs ys : List Nat} :
    VisitsAll t children xs → VisitsAll t children ys → xs = ys
  | .nil, .nil => rfl
  | .cons head tail, .cons head' tail' => by
    rw [Visits.unique head head', VisitsAll.unique tail tail']

end

theorem VisitsAll.append {t : Trace} {cs ds xs ys : List Nat} :
    VisitsAll t cs xs → VisitsAll t ds ys → VisitsAll t (cs ++ ds) (xs ++ ys)
  | .nil, h => h
  | .cons head tail, h => by
    rw [List.append_assoc]
    exact .cons head (tail.append h)

def handlesAt (t : Trace) (handle : Nat) : List Nat :=
  if h : handle < t.nodes.size then t.handlesFrom handle h else []

def handlesBelow (t : Trace) (handle child : Nat) : List Nat :=
  if handle < child then t.handlesAt child else []

theorem handlesFrom_eq {t : Trace} {handle : Nat} {n : Node} (h : handle < t.nodes.size)
    (found : t.get? handle = some n) :
    t.handlesFrom handle h = handle :: n.children.flatMap (t.handlesBelow handle) := by
  have hn : t.nodes[handle] = n := by
    simpa [get?, h] using found
  rw [handlesFrom, hn]
  congr 2
  funext child
  by_cases hlt : handle < child
  · by_cases hsize : child < t.nodes.size <;> simp [handlesBelow, handlesAt, hlt, hsize]
  · simp [handlesBelow, hlt]

mutual

theorem Visits.handlesAt_eq {t : Trace} {handle : Nat} {visited : List Nat}
    (hdown : ∀ i n, t.get? i = some n → ∀ child ∈ n.children, i < child) :
    Visits t handle visited → t.handlesAt handle = visited
  | .node found children => by
    have hsize := lt_size_of_get? found
    rw [handlesAt, dif_pos hsize, handlesFrom_eq hsize found,
      children.flatMap_handlesBelow hdown (hdown _ _ found)]

theorem VisitsAll.flatMap_handlesBelow {t : Trace} {above : Nat} {children visited : List Nat}
    (hdown : ∀ i n, t.get? i = some n → ∀ child ∈ n.children, i < child) :
    VisitsAll t children visited → (∀ child ∈ children, above < child) →
      children.flatMap (t.handlesBelow above) = visited
  | .nil, _ => rfl
  | .cons head tail, h => by
    have htail := tail.flatMap_handlesBelow hdown fun c hc => h c (List.mem_cons_of_mem _ hc)
    rw [List.flatMap_cons, htail, handlesBelow, if_pos (h _ List.mem_cons_self),
      head.handlesAt_eq hdown]

end

end Trace

open Trace

/-- The child that a tree is where its first node has this handle; a data point is none. -/
def Tree.handles (handle : Nat) : Tree → List Nat
  | .point _ => []
  | .node _ _ _ => [handle]

def Forest.handles (handle : Nat) : Forest → List Nat
  | [] => []
  | tree :: rest => tree.handles handle ++ Forest.handles (handle + tree.size) rest

theorem Forest.children_eq_handles {op : Operator} {v : Value} {parent : Option Nat}
    {depth handle : Nat} {forest : Forest} :
    Node.children ⟨op, v, parent, depth, (forest.entries handle).toArray⟩ =
      forest.handles handle := by
  unfold Node.children
  induction forest generalizing handle with
  | nil => rfl
  | cons tree rest ih =>
    cases tree <;> simpa [Forest.entries, Forest.handles, Tree.entry, Tree.handles, Tree.size]
      using ih

mutual

theorem Tree.handles_perm (parent : Option Nat) (depth handle : Nat) (tree : Tree) :
    (tree.handles handle ++ (tree.nodes parent depth handle).flatMap Node.children).Perm
      (List.range' handle tree.size) := by
  cases tree with
  | point p => exact .refl _
  | node op result entries =>
    have hbelow := Forest.handles_perm (some handle) (depth + 1) (handle + 1) entries
    have hsize : (Tree.node op result entries).size = Forest.size entries + 1 := rfl
    rw [hsize, List.range'_succ]
    simp only [Tree.handles, Tree.nodes, List.flatMap_cons, List.singleton_append]
    rw [Forest.children_eq_handles]
    exact hbelow.cons handle

theorem Forest.handles_perm (parent : Option Nat) (depth handle : Nat) (forest : Forest) :
    (forest.handles handle ++ (forest.nodes parent depth handle).flatMap Node.children).Perm
      (List.range' handle forest.size) := by
  cases forest with
  | nil => exact .refl _
  | cons tree rest =>
    have htree := Tree.handles_perm parent depth handle tree
    have hrest := Forest.handles_perm parent depth (handle + tree.size) rest
    have hsize : Forest.size (tree :: rest) = tree.size + Forest.size rest := rfl
    rw [hsize, ← List.range'_append_1]
    refine List.Perm.trans ?_ (htree.append hrest)
    simp only [Forest.handles, Forest.nodes, List.flatMap_append, List.append_assoc]
    exact (List.perm_append_comm_assoc _ _ _).append_left _

end

variable {t : Trace}

mutual

theorem Tree.descends {p handle i : Nat} {m : Node} (above : t.get? p = some m)
    (hlt : p < handle) (tree : Tree) (hchildren : tree.handles handle ⊆ m.children)
    (h : t.Holds handle (tree.nodes (some p) (m.depth + 1) handle)) (hfirst : handle ≤ i)
    (hlast : i < handle + tree.size) : t.Descends p i := by
  cases tree with
  | point q =>
    simp only [Tree.size] at hlast
    omega
  | node op result entries =>
    have hchild : t.IsChild p handle :=
      ⟨m, _, above, h.1, rfl, hlt, rfl, hchildren List.mem_cons_self⟩
    rcases Nat.eq_or_lt_of_le hfirst with rfl | hbelow
    · exact .single hchild
    · simp only [Tree.size] at hlast
      refine .head hchild ?_
      refine Forest.descends h.1 (Nat.lt_succ_self handle) entries ?_ h.2 hbelow (by omega)
      rw [Forest.children_eq_handles]
      exact List.Subset.refl _

theorem Forest.descends {p handle i : Nat} {m : Node} (above : t.get? p = some m)
    (hlt : p < handle) (forest : Forest) (hchildren : forest.handles handle ⊆ m.children)
    (h : t.Holds handle (forest.nodes (some p) (m.depth + 1) handle)) (hfirst : handle ≤ i)
    (hlast : i < handle + forest.size) : t.Descends p i := by
  cases forest with
  | nil =>
    simp only [Forest.size] at hlast
    omega
  | cons tree rest =>
    obtain ⟨hhead, htail⟩ := holds_append.mp h
    obtain ⟨hin, hrest⟩ := List.append_subset.mp hchildren
    rw [Tree.length_nodes] at htail
    simp only [Forest.size] at hlast
    by_cases hi : i < handle + tree.size
    · exact Tree.descends above hlt tree hin hhead hfirst hi
    · exact Forest.descends above (by omega) rest hrest htail (by omega) (by omega)

end

mutual

theorem Tree.visits {parent : Option Nat} {depth handle : Nat} (tree : Tree)
    (h : t.Holds handle (tree.nodes parent depth handle)) :
    VisitsAll t (tree.handles handle) (List.range' handle tree.size) := by
  cases tree with
  | point p => exact .nil
  | node op result entries =>
    have hbelow := Forest.visits entries h.2
    rw [← Forest.children_eq_handles] at hbelow
    have hvisit := VisitsAll.cons (.node h.1 hbelow) .nil
    rwa [List.append_nil, ← List.range'_succ] at hvisit

theorem Forest.visits {parent : Option Nat} {depth handle : Nat} (forest : Forest)
    (h : t.Holds handle (forest.nodes parent depth handle)) :
    VisitsAll t (forest.handles handle) (List.range' handle forest.size) := by
  cases forest with
  | nil => exact .nil
  | cons tree rest =>
    obtain ⟨hhead, htail⟩ := holds_append.mp h
    rw [Tree.length_nodes] at htail
    have hsize : Forest.size (tree :: rest) = tree.size + Forest.size rest := rfl
    rw [hsize, ← List.range'_append_1]
    exact (Tree.visits tree hhead).append (Forest.visits rest htail)

end

end JsonRules
