import JsonRules.Trace

/-!
Explanations as trees without handles, and their layout in an arena: the nodes of a tree stand there
in preorder, each with the handles of the nodes below it. Main statements: entries are added to the
open node one after the other (`grow_append`), and what a builder does when it opens a node, adds
entries to it and closes it again is to add one tree to the node that was open before
(`close_grow_openChild`).
-/
namespace JsonRules

/-- An entry of an explanation, with the entries below it in place of a handle. -/
inductive Tree where
  | point (p : DataPoint)
  | node (operator : Operator) (result : Value) (entries : List Tree)

abbrev Forest := List Tree

mutual

def Tree.size : Tree → Nat
  | .point _ => 0
  | .node _ _ entries => Forest.size entries + 1

def Forest.size : Forest → Nat
  | [] => 0
  | t :: rest => t.size + Forest.size rest

end

def Tree.entry (handle : Nat) : Tree → Trace.Entry
  | .point p => .point p
  | .node _ _ _ => .node handle

def Forest.entries (handle : Nat) : Forest → List Trace.Entry
  | [] => []
  | t :: rest => t.entry handle :: Forest.entries (handle + t.size) rest

/-- The result of a node with these entries: that of the last data point, or what it was before. -/
def Forest.result (before : Value) : Forest → Value
  | [] => before
  | .point p :: rest => Forest.result p.result rest
  | .node _ _ _ :: rest => Forest.result before rest

mutual

/-- The nodes of a tree, in preorder from this handle on. -/
def Tree.nodes (parent : Option Nat) (depth handle : Nat) : Tree → List Trace.Node
  | .point _ => []
  | .node op result entries =>
    ⟨op, result, parent, depth, (Forest.entries (handle + 1) entries).toArray⟩ ::
      Forest.nodes (some handle) (depth + 1) (handle + 1) entries

def Forest.nodes (parent : Option Nat) (depth handle : Nat) : Forest → List Trace.Node
  | [] => []
  | t :: rest => t.nodes parent depth handle ++ Forest.nodes parent depth (handle + t.size) rest

end

mutual

theorem Tree.length_nodes (parent : Option Nat) (depth handle : Nat) (t : Tree) :
    (t.nodes parent depth handle).length = t.size := by
  cases t with
  | point p => rfl
  | node op result entries =>
    simp only [Tree.nodes, Tree.size, List.length_cons, Forest.length_nodes]

theorem Forest.length_nodes (parent : Option Nat) (depth handle : Nat) (forest : Forest) :
    (Forest.nodes parent depth handle forest).length = Forest.size forest := by
  cases forest with
  | nil => rfl
  | cons t rest =>
    simp only [Forest.nodes, Forest.size, List.length_append, Tree.length_nodes,
      Forest.length_nodes]

end

theorem Forest.entries_append (handle : Nat) (f g : Forest) :
    Forest.entries handle (f ++ g) =
      Forest.entries handle f ++ Forest.entries (handle + Forest.size f) g := by
  induction f generalizing handle with
  | nil => simp [Forest.entries, Forest.size]
  | cons t rest ih => simp [Forest.entries, Forest.size, ih, Nat.add_assoc]

theorem Forest.nodes_append (parent : Option Nat) (depth handle : Nat) (f g : Forest) :
    Forest.nodes parent depth handle (f ++ g) =
      Forest.nodes parent depth handle f ++
        Forest.nodes parent depth (handle + Forest.size f) g := by
  induction f generalizing handle with
  | nil => simp [Forest.nodes, Forest.size]
  | cons t rest ih => simp [Forest.nodes, Forest.size, ih, Nat.add_assoc]

theorem Forest.result_append (before : Value) (f g : Forest) :
    Forest.result before (f ++ g) = Forest.result (Forest.result before f) g := by
  induction f generalizing before with
  | nil => rfl
  | cons t rest ih => cases t <;> simp [Forest.result, ih]

namespace Trace

theorem modify_append {α : Type} {xs ys : Array α} {i : Nat} (h : i < xs.size) (f : α → α) :
    (xs ++ ys).modify i f = xs.modify i f ++ ys := by
  apply Array.ext_getElem?
  intro j
  by_cases hj : j < xs.size
  · have hj' : j < (xs.modify i f).size := by simpa using hj
    rw [Array.getElem?_append_left hj', Array.getElem?_modify, Array.getElem?_modify,
      Array.getElem?_append_left hj]
  · have hne : i ≠ j := by omega
    simp [Array.getElem?_modify, Array.getElem?_append, hj, hne]

theorem modify_modify {α : Type} (xs : Array α) (i : Nat) (f g : α → α) :
    (xs.modify i f).modify i g = xs.modify i (fun a => g (f a)) := by
  apply Array.toList_inj.mp
  simp only [Array.toList_modify]
  exact List.modify_modify_eq f g i xs.toList

theorem modify_push {α : Type} {xs : Array α} {i : Nat} (h : i < xs.size) (a : α) (f : α → α) :
    (xs.push a).modify i f = (xs.modify i f).push a := by
  rw [Array.push_eq_append, modify_append h, ← Array.push_eq_append]

theorem modify_push_size {α : Type} (xs : Array α) (a : α) (f : α → α) :
    (xs.push a).modify xs.size f = xs.push (f a) := by
  apply Array.ext_getElem?
  intro j
  rw [Array.getElem?_modify, Array.getElem?_push, Array.getElem?_push]
  by_cases hj : j = xs.size
  · simp [hj]
  · simp [hj, Ne.symm hj]

def Node.extend (handle : Nat) (forest : Forest) (n : Node) : Node :=
  { n with
    result := forest.result n.result
    entries := n.entries ++ (forest.entries handle).toArray }

theorem Node.extend_nil (handle : Nat) (n : Node) : n.extend handle [] = n := by
  simp [Node.extend, Forest.result, Forest.entries]

theorem Node.extend_extend (handle : Nat) (f g : Forest) (n : Node) :
    (n.extend handle f).extend (handle + f.size) g = n.extend handle (f ++ g) := by
  simp [Node.extend, Forest.result_append, Forest.entries_append]

namespace Builder

def depthOf (b : Builder) (handle : Nat) : Nat := (b.nodes[handle]?.map Node.depth).getD 0

/-- Adds the entries of a forest to the open node and their nodes to the arena. -/
def grow (b : Builder) (forest : Forest) : Builder :=
  match b.cursor with
  | none => b
  | some c =>
    ⟨b.nodes.modify c (Node.extend b.nodes.size forest) ++
      (forest.nodes (some c) (b.depthOf c + 1) b.nodes.size).toArray, some c⟩

def IsOpen (b : Builder) : Prop := ∃ c, b.cursor = some c ∧ c < b.nodes.size

variable {b : Builder}

theorem isOpen_openRoot (op : Operator) : (b.openRoot op).IsOpen :=
  ⟨b.nodes.size, rfl, by simp [openRoot]⟩

theorem isOpen_openChild (op : Operator) (c : Nat) : (b.openChild op c).IsOpen :=
  ⟨b.nodes.size, rfl, by simp [openChild]⟩

theorem grow_nil (h : b.IsOpen) : b.grow [] = b := by
  obtain ⟨c, hc, hlt⟩ := h
  obtain ⟨nodes, cursor⟩ := b
  subst hc
  have hid : (Node.extend nodes.size [] : Node → Node) = id := by
    funext n
    exact Node.extend_nil nodes.size n
  have hn : nodes.modify c (Node.extend nodes.size []) = nodes := by
    apply Array.toList_inj.mp
    rw [hid, Array.toList_modify, List.modify_id]
  simp [grow, Forest.nodes, hn]

theorem isOpen_grow (h : b.IsOpen) (f : Forest) : (b.grow f).IsOpen := by
  obtain ⟨c, hc, hlt⟩ := h
  refine ⟨c, ?_, ?_⟩
  · simp [grow, hc]
  · simp [grow, hc]
    omega

theorem size_grow (h : b.IsOpen) (f : Forest) :
    (b.grow f).nodes.size = b.nodes.size + f.size := by
  obtain ⟨c, hc, hlt⟩ := h
  simp [grow, hc, Forest.length_nodes]

theorem grow_append (h : b.IsOpen) (f g : Forest) :
    (b.grow f).grow g = b.grow (f ++ g) := by
  have hs := size_grow h f
  obtain ⟨c, hc, hlt⟩ := h
  have hd : (b.grow f).depthOf c = b.depthOf c := by
    have hc' : c < (b.nodes.modify c (Node.extend b.nodes.size f)).size := by simpa using hlt
    simp only [depthOf, grow, hc]
    rw [Array.getElem?_append_left hc', Array.getElem?_modify, if_pos rfl, Option.map_map]
    rfl
  have hb : (b.grow f).nodes = b.nodes.modify c (Node.extend b.nodes.size f) ++
      (f.nodes (some c) (b.depthOf c + 1) b.nodes.size).toArray := by simp [grow, hc]
  have hc' : (b.grow f).cursor = some c := by simp [grow, hc]
  rw [grow, hc']
  simp only [hd, hs]
  rw [hb, modify_append (by simpa using hlt), modify_modify]
  simp only [Node.extend_extend, grow, hc]
  rw [Forest.nodes_append]
  simp

theorem record_eq_grow (h : b.IsOpen) (p : DataPoint) : b.record p = b.grow [.point p] := by
  obtain ⟨c, hc, hlt⟩ := h
  have hn : (fun n : Node => { n.addEntry (.point p) with result := p.result }) =
      Node.extend b.nodes.size [.point p] := by
    funext n
    simp [Node.extend, Node.addEntry, Forest.entries, Forest.result, Tree.entry]
  simp [record, grow, hc, hn, Forest.nodes, Tree.nodes]

/-- What the builder does from the opening of a node to its closing is to add one tree. -/
theorem close_grow_openChild {c : Nat} (hc : b.cursor = some c) (hlt : c < b.nodes.size)
    (op : Operator) (f : Forest) (result : Value) :
    ((b.openChild op c).grow f).close result = b.grow [.node op result f] := by
  let opened : Node := ⟨op, .bool false, some c, b.depthOf c + 1, #[]⟩
  let xs := b.nodes.modify c (Node.addEntry (.node b.nodes.size))
  have hxs : xs.size = b.nodes.size := by simp [xs]
  have hopen : b.openChild op c = ⟨xs.push opened, some xs.size⟩ := by
    simp [openChild, depthOf, modify_push hlt, xs, opened]
  have hdepth : (b.openChild op c).depthOf xs.size = b.depthOf c + 1 := by
    simp [hopen, depthOf, opened]
  have hgrow : (b.openChild op c).grow f =
      ⟨xs.push (opened.extend (xs.size + 1) f) ++
        (f.nodes (some xs.size) (b.depthOf c + 2) (xs.size + 1)).toArray, some xs.size⟩ := by
    rw [hopen] at hdepth ⊢
    simp only [grow, hdepth, Array.size_push, modify_push_size]
  have hentry : Node.addEntry (.node b.nodes.size) =
      Node.extend b.nodes.size [.node op result f] := by
    funext n
    simp [Node.addEntry, Node.extend, Forest.entries, Forest.result, Tree.entry]
  have hclosed : Forest.nodes (some c) (b.depthOf c + 1) b.nodes.size [.node op result f] =
      { opened.extend (xs.size + 1) f with result := result } ::
        f.nodes (some xs.size) (b.depthOf c + 2) (xs.size + 1) := by
    simp [Forest.nodes, Tree.nodes, Node.extend, opened, hxs]
  rw [hgrow, grow, hc]
  simp only [close, hclosed, ← hentry]
  rw [modify_append (by simp), modify_push_size]
  simp [xs, opened, Node.extend]

end Builder
end Trace
end JsonRules
