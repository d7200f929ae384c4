import JsonRules.Proofs.Trace.Layout
import JsonRules.Trace.Explanation

/-!
From an arena back to the tree. `Entry.Unfolds` follows the handles of a trace and loses no entry; a
trace that holds the layout of a tree unfolds to that tree (`Tree.unfolds`), and so does the
explanation that is written from it, with the depths of the nodes (`unfolds_layout`).
-/
namespace JsonRules

namespace Trace

mutual

/-- The tree that an entry stands for: its handles, followed in the order of the entries. -/
inductive Entry.Unfolds (t : Trace) : Entry → Tree → Prop
  | point (p : DataPoint) : Entry.Unfolds t (.point p) (.point p)
  | node {handle : Nat} {n : Node} {entries : Forest} (found : t.get? handle = some n)
      (below : EntriesUnfold t n.entries.toList entries) :
      Entry.Unfolds t (.node handle) (.node n.operator n.result entries)

inductive EntriesUnfold (t : Trace) : List Entry → Forest → Prop
  | nil : EntriesUnfold t [] []
  | cons {entry : Entry} {tree : Tree} {entries : List Entry} {forest : Forest}
      (head : Entry.Unfolds t entry tree) (tail : EntriesUnfold t entries forest) :
      EntriesUnfold t (entry :: entries) (tree :: forest)

end

mutual

theorem Entry.Unfolds.unique {t : Trace} {entry : Entry} {a b : Tree} :
    Entry.Unfolds t entry a → Entry.Unfolds t entry b → a = b
  | .point _, .point _ => rfl
  | .node found below, .node found' below' => by
    cases found.symm.trans found'
    rw [EntriesUnfold.unique below below']

theorem EntriesUnfold.unique {t : Trace} {entries : List Entry} {f g : Forest} :
    EntriesUnfold t entries f → EntriesUnfold t entries g → f = g
  | .nil, .nil => rfl
  | .cons head tail, .cons head' tail' => by
    rw [Entry.Unfolds.unique head head', EntriesUnfold.unique tail tail']

end

/-- The nodes stand in the arena from this handle on. -/
def Holds (t : Trace) (handle : Nat) : List Node → Prop
  | [] => True
  | n :: rest => t.get? handle = some n ∧ t.Holds (handle + 1) rest

theorem holds_append {t : Trace} {handle : Nat} {xs ys : List Node} :
    t.Holds handle (xs ++ ys) ↔ t.Holds handle xs ∧ t.Holds (handle + xs.length) ys := by
  induction xs generalizing handle with
  | nil => simp [Holds]
  | cons n rest ih => simp [Holds, ih, and_assoc, Nat.add_comm, Nat.add_left_comm]

theorem holds_nodes (xs ys : List Node) : Holds ⟨(xs ++ ys).toArray⟩ xs.length ys := by
  induction ys generalizing xs with
  | nil => trivial
  | cons n rest ih => exact ⟨by simp [get?], by simpa using ih (xs ++ [n])⟩

end Trace

open Trace

variable {t : Trace}

mutual

theorem Tree.unfolds {parent : Option Nat} {depth handle : Nat} (tree : Tree)
    (h : t.Holds handle (tree.nodes parent depth handle)) :
    Entry.Unfolds t (tree.entry handle) tree := by
  cases tree with
  | point p => exact .point p
  | node op result entries => exact .node h.1 (by simpa using Forest.unfolds entries h.2)

theorem Forest.unfolds {parent : Option Nat} {depth handle : Nat} (forest : Forest)
    (h : t.Holds handle (forest.nodes parent depth handle)) :
    EntriesUnfold t (forest.entries handle) forest := by
  cases forest with
  | nil => exact .nil
  | cons tree rest =>
    obtain ⟨hhead, htail⟩ := holds_append.mp h
    rw [Tree.length_nodes] at htail
    exact .cons (Tree.unfolds tree hhead) (Forest.unfolds rest htail)

end

mutual

def Tree.reason (depth : Nat) : Tree → Reason
  | .point p => .point p
  | .node op result entries => .node op result depth (Forest.reasons (depth + 1) entries)

def Forest.reasons (depth : Nat) : Forest → List Reason
  | [] => []
  | tree :: rest => tree.reason depth :: Forest.reasons depth rest

end

def Trace.reasonAt? (t : Trace) (handle : Nat) : Option Reason :=
  if h : handle < t.nodes.size then some (t.reasonAt handle h) else none

def Trace.reasonOf? (t : Trace) (handle : Nat) : Entry → Option Reason
  | .point p => some (.point p)
  | .node child => if handle < child then t.reasonAt? child else none

theorem Trace.reasonAt_eq {handle : Nat} {n : Node} (h : handle < t.nodes.size)
    (found : t.get? handle = some n) :
    t.reasonAt handle h =
      .node n.operator n.result n.depth (n.entries.toList.filterMap (t.reasonOf? handle)) := by
  have hn : t.nodes[handle] = n := by
    simpa [get?, h] using found
  rw [reasonAt, hn]
  congr 2
  funext entry
  cases entry with
  | point p => rfl
  | node child =>
    by_cases hlt : handle < child
    · by_cases hsize : child < t.nodes.size <;> simp [reasonOf?, reasonAt?, hlt, hsize]
    · simp [reasonOf?, hlt]

theorem Trace.lt_size_of_get? {handle : Nat} {n : Node} (h : t.get? handle = some n) :
    handle < t.nodes.size := by
  obtain ⟨hlt, _⟩ := Array.getElem?_eq_some_iff.mp h
  exact hlt

mutual

theorem Tree.reasonOf?_eq {parent : Option Nat} {depth handle above : Nat} (tree : Tree)
    (h : t.Holds handle (tree.nodes parent depth handle)) (hlt : above < handle) :
    t.reasonOf? above (tree.entry handle) = some (tree.reason depth) := by
  cases tree with
  | point p => rfl
  | node op result entries =>
    have hsize := lt_size_of_get? h.1
    have hbelow := Forest.filterMap_reasonOf? entries h.2 (Nat.lt_succ_self handle)
    simp only [Tree.entry, Trace.reasonOf?, Trace.reasonAt?, hlt, hsize, if_pos, dif_pos,
      Tree.reason]
    rw [reasonAt_eq hsize h.1]
    simp only [hbelow]

theorem Forest.filterMap_reasonOf? {parent : Option Nat} {depth handle above : Nat}
    (forest : Forest) (h : t.Holds handle (forest.nodes parent depth handle))
    (hlt : above < handle) :
    (forest.entries handle).filterMap (t.reasonOf? above) = forest.reasons depth := by
  cases forest with
  | nil => rfl
  | cons tree rest =>
    obtain ⟨hhead, htail⟩ := holds_append.mp h
    rw [Tree.length_nodes] at htail
    have hrest := Forest.filterMap_reasonOf? rest htail (Nat.lt_add_right tree.size hlt)
    simp [Forest.entries, Forest.reasons, Tree.reasonOf?_eq tree hhead hlt, hrest]

end

theorem Trace.holds_layout {op : Operator} {result : Value} {entries : Forest}
    (h : t.nodes.toList = (Tree.node op result entries).nodes none 0 0) :
    t.Holds 0 ((Tree.node op result entries).nodes none 0 0) := by
  obtain ⟨nodes⟩ := t
  rw [← h]
  simpa using holds_nodes [] nodes.toList

/-- An arena that is the layout of a tree unfolds to this tree, and its explanation is the tree with
its depths. -/
theorem Trace.unfolds_layout {op : Operator} {result : Value} {entries : Forest}
    (h : t.nodes.toList = (Tree.node op result entries).nodes none 0 0) :
    Entry.Unfolds t (.node 0) (.node op result entries) ∧
      t.explanation? = some ((Tree.node op result entries).reason 0) := by
  have hh := holds_layout h
  refine ⟨Tree.unfolds _ hh, ?_⟩
  have hsize := lt_size_of_get? hh.1
  rw [explanation?, dif_pos hsize, reasonAt_eq hsize hh.1, Tree.reason]
  simp only [Forest.filterMap_reasonOf? entries hh.2 Nat.zero_lt_one]

end JsonRules
