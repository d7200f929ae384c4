import JsonRules.Proofs.Arena
import JsonRules.Proofs.Log
import JsonRules.Proofs.Trace.Shape

/-!
The report of a trace by its lines. As far as no value that it shows has line breaks, the report splits
into the lines of a tree (`splitOn_report_layout`): one for the root, and one for each entry where a walk
through the trace gets to it, indented by the depth of the node that has the entry (`Forest.tells`).
Where a line starts and with which heading tells the shape of the tree (`Forest.map_mark_lines`).
-/
namespace JsonRules

def DataPoint.shown (p : DataPoint) : List Value :=
  p.tested.toList ++ [p.current, p.counterpart, p.result]

namespace Trace

def Node.shown (n : Node) : List Value := n.result :: n.points.flatMap DataPoint.shown

/-- The values that the report of a trace shows. -/
def shown (t : Trace) : List Value := t.nodes.toList.flatMap Node.shown

def Entry.heading : Entry → String
  | .node _ => "LOGIC: '"
  | .point _ => "DATA: '"

def Entry.start (depth : Nat) (entry : Entry) : List Char :=
  List.replicate (depth + 1) '\t' ++ ' ' :: entry.heading.toList

mutual

/-- The lines of all that stands below an entry: those of the entries of a node, and none below a data
point. -/
inductive Entry.Tells (t : Trace) : Entry → List (List Char) → Prop
  | point (p : DataPoint) : Entry.Tells t (.point p) []
  | node {handle : Nat} {n : Node} {lines : List (List Char)} (found : t.get? handle = some n)
      (entries : EntriesTell t n.depth n.entries.toList lines) : Entry.Tells t (.node handle) lines

/-- Each entry has a line of its own, with those of what stands below it before that of the next entry. -/
inductive EntriesTell (t : Trace) : Nat → List Entry → List (List Char) → Prop
  | nil {depth : Nat} : EntriesTell t depth [] []
  | cons {depth : Nat} {entry : Entry} {entries : List Entry} {line : List Char}
      {below rest : List (List Char)} (starts : entry.start depth <+: line)
      (head : Entry.Tells t entry below) (tail : EntriesTell t depth entries rest) :
      EntriesTell t depth (entry :: entries) (line :: (below ++ rest))

end

end Trace

open Trace Reason

def Tree.headline : Tree → List Char
  | .point p => p.line.toList
  | .node op result _ => ("LOGIC: '" ++ op.name ++ "', RESULT = " ++ result.display).toList

mutual

def Tree.linesBelow (depth : Nat) : Tree → List (List Char)
  | .point _ => []
  | .node _ _ entries => Forest.lines depth entries

def Forest.lines (depth : Nat) : Forest → List (List Char)
  | [] => []
  | tree :: rest =>
    ((indentation depth).toList ++ tree.headline) ::
      (tree.linesBelow (depth + 1) ++ Forest.lines depth rest)

end

mutual

theorem Tree.toList_report (depth : Nat) (tree : Tree) :
    (tree.reason depth).report.toList =
      tree.headline ++ (tree.linesBelow depth).flatMap ('\n' :: ·) := by
  cases tree with
  | point p => exact (List.append_nil _).symm
  | node op result entries =>
    have hentries := Forest.toList_reportEntries depth entries
    simp only [Tree.reason, Reason.report, Tree.headline, Tree.linesBelow, String.toList_append,
      hentries]

theorem Forest.toList_reportEntries (depth : Nat) (forest : Forest) :
    (reportEntries depth (forest.reasons (depth + 1))).toList =
      (forest.lines depth).flatMap ('\n' :: ·) := by
  cases forest with
  | nil => rfl
  | cons tree rest =>
    have htree := Tree.toList_report (depth + 1) tree
    have hrest := Forest.toList_reportEntries depth rest
    have hbreak : "\n".toList = ['\n'] := rfl
    simp only [Forest.reasons, reportEntries, Forest.lines, String.toList_append, htree, hrest,
      hbreak, List.flatMap_cons, List.flatMap_append, List.append_assoc, List.cons_append,
      List.nil_append]

end

theorem intercalate_cons {α : Type} (sep : α) (first : List α) (rest : List (List α)) :
    [sep].intercalate (first :: rest) = first ++ rest.flatMap (sep :: ·) := by
  induction rest generalizing first with
  | nil => simp
  | cons next rest ih => simp [List.intercalate_cons_cons, ih]

section Lines

variable {t : Trace}

theorem toList_indentation (depth : Nat) :
    (indentation depth).toList = List.replicate (depth + 1) '\t' ++ [' '] := by
  simp only [indentation, String.toList_ofList]

theorem DataPoint.toList_line (p : DataPoint) :
    p.line.toList = "DATA: '".toList ++ ((p.tested.map Value.display).getD "").toList ++
      "' data:".toList ++ (if p.current.isNull then "None" else p.current.display).toList ++
      " ".toList ++ p.operator.name.toList ++ " expected:".toList ++ p.counterpart.display.toList ++
      ",  RESULT = ".toList ++ p.result.display.toList := by
  simp only [← String.toList_append]
  rfl

theorem Tree.heading_prefix (handle : Nat) (tree : Tree) :
    (tree.entry handle).heading.toList <+: tree.headline := by
  cases tree with
  | point p =>
    simp only [Tree.entry, Entry.heading, Tree.headline, DataPoint.toList_line, List.append_assoc]
    exact List.prefix_append _ _
  | node op result entries =>
    simp only [Tree.entry, Entry.heading, Tree.headline, String.toList_append, List.append_assoc]
    exact List.prefix_append _ _

theorem Tree.start_prefix (depth handle : Nat) (tree : Tree) :
    (tree.entry handle).start depth <+: (indentation depth).toList ++ tree.headline := by
  rw [toList_indentation, List.append_assoc, List.singleton_append]
  exact (List.prefix_append_right_inj _).mpr
    (List.prefix_cons_inj _ |>.mpr (tree.heading_prefix handle))

mutual

/-- Where a trace holds the layout of a tree, the lines of the tree are those of its entries: the depth
that a node has in the trace is the one at which the tree is written. -/
theorem Tree.tells {parent : Option Nat} {depth handle : Nat} (tree : Tree)
    (h : t.Holds handle (tree.nodes parent depth handle)) :
    Entry.Tells t (tree.entry handle) (tree.linesBelow depth) := by
  cases tree with
  | point p => exact .point p
  | node op result entries => exact .node h.1 (Forest.tells entries h.2)

theorem Forest.tells {parent : Option Nat} {depth handle : Nat} (forest : Forest)
    (h : t.Holds handle (forest.nodes parent (depth + 1) handle)) :
    EntriesTell t depth (forest.entries handle) (forest.lines depth) := by
  cases forest with
  | nil => exact .nil
  | cons tree rest =>
    obtain ⟨hhead, htail⟩ := holds_append.mp h
    rw [Tree.length_nodes] at htail
    exact .cons (tree.start_prefix depth handle) (Tree.tells tree hhead) (Forest.tells rest htail)

end

mutual

theorem Tree.length_linesBelow (depth : Nat) (tree : Tree) :
    (tree.linesBelow depth).length + 1 = tree.size + tree.points.length := by
  cases tree with
  | point p => rfl
  | node op result entries =>
    have hentries := Forest.length_lines depth entries
    simp only [Tree.linesBelow, Tree.size, Tree.points]
    omega

theorem Forest.length_lines (depth : Nat) (forest : Forest) :
    (forest.lines depth).length = forest.size + (Forest.points forest).length := by
  cases forest with
  | nil => rfl
  | cons tree rest =>
    have htree := Tree.length_linesBelow (depth + 1) tree
    have hrest := Forest.length_lines depth rest
    simp only [Forest.lines, Forest.size, Forest.points, List.length_cons, List.length_append]
    omega

end

end Lines

section Breaks

theorem break_notMem_name (op : Operator) : '\n' ∉ op.name.toList := by
  cases op <;> decide

theorem break_notMem_indentation (depth : Nat) : '\n' ∉ (indentation depth).toList := by
  rw [toList_indentation]
  simp

theorem DataPoint.break_notMem_line {p : DataPoint}
    (h : ∀ v ∈ p.shown, '\n' ∉ v.display.toList) : '\n' ∉ p.line.toList := by
  have hname : '\n' ∉ ((p.tested.map Value.display).getD "").toList := by
    cases htested : p.tested with
    | none => simp
    | some name => exact h name (by simp [shown, htested])
  have hcurrent : '\n' ∉ (if p.current.isNull then "None" else p.current.display).toList := by
    split
    · decide
    · exact h p.current (by simp [shown])
  have hcounterpart := h p.counterpart (by simp [shown])
  have hresult := h p.result (by simp [shown])
  have hop := break_notMem_name p.operator
  simp only [toList_line, List.mem_append, not_or]
  refine ⟨⟨⟨⟨⟨⟨⟨⟨⟨?_, hname⟩, ?_⟩, hcurrent⟩, ?_⟩, hop⟩, ?_⟩, hcounterpart⟩, ?_⟩, hresult⟩ <;> decide

theorem Tree.break_notMem_headline {parent : Option Nat} {depth handle : Nat} (tree : Tree)
    (hleaves : ∀ p ∈ tree.leaves, ∀ v ∈ p.shown, '\n' ∉ v.display.toList)
    (hnodes : ∀ n ∈ tree.nodes parent depth handle, ∀ v ∈ n.shown, '\n' ∉ v.display.toList) :
    '\n' ∉ tree.headline := by
  cases tree with
  | point p => exact DataPoint.break_notMem_line (hleaves p (List.mem_singleton_self p))
  | node op result entries =>
    have hresult : '\n' ∉ result.display.toList :=
      hnodes _ List.mem_cons_self _ List.mem_cons_self
    simp only [headline, String.toList_append, List.mem_append, not_or]
    exact ⟨⟨⟨by decide, break_notMem_name op⟩, by decide⟩, hresult⟩

mutual

theorem Tree.break_notMem {parent : Option Nat} {depth handle : Nat} (tree : Tree)
    (h : ∀ n ∈ tree.nodes parent depth handle, ∀ v ∈ n.shown, '\n' ∉ v.display.toList) :
    ∀ line ∈ tree.linesBelow depth, '\n' ∉ line := by
  cases tree with
  | point p => exact List.forall_mem_nil _
  | node op result entries =>
    refine Forest.break_notMem entries ?_ fun n hn => h n (List.mem_cons_of_mem _ hn)
    intro p hp v hv
    refine h _ List.mem_cons_self v (List.mem_cons_of_mem _ ?_)
    rw [Forest.points_eq_leaves]
    exact List.mem_flatMap.mpr ⟨p, hp, hv⟩

theorem Forest.break_notMem {parent : Option Nat} {depth handle : Nat} (forest : Forest)
    (hleaves : ∀ p ∈ forest.leaves, ∀ v ∈ p.shown, '\n' ∉ v.display.toList)
    (hnodes : ∀ n ∈ forest.nodes parent (depth + 1) handle, ∀ v ∈ n.shown,
      '\n' ∉ v.display.toList) :
    ∀ line ∈ forest.lines depth, '\n' ∉ line := by
  cases forest with
  | nil => exact List.forall_mem_nil _
  | cons tree rest =>
    have hhead := Tree.break_notMem_headline tree
      (fun p hp => hleaves p (List.mem_append_left _ hp))
      (fun n hn => hnodes n (List.mem_append_left _ hn))
    have hbelow := Tree.break_notMem tree fun n hn => hnodes n (List.mem_append_left _ hn)
    have hrest := Forest.break_notMem rest (fun p hp => hleaves p (List.mem_append_right _ hp))
      (fun n hn => hnodes n (List.mem_append_right _ hn))
    intro line hline
    cases hline with
    | head =>
      rw [List.mem_append, not_or]
      exact ⟨break_notMem_indentation depth, hhead⟩
    | tail _ hline =>
      cases List.mem_append.mp hline with
      | inl hline => exact hbelow line hline
      | inr hline => exact hrest line hline

end

end Breaks

section Marks

def mark (line : List Char) : Nat × Bool :=
  ((line.takeWhile (· == '\t')).length, (line.dropWhile (· == '\t')).take 2 == [' ', 'L'])

theorem mark_of_start {depth handle : Nat} {tree : Tree} {line : List Char}
    (h : (tree.entry handle).start depth <+: line) :
    mark line = (depth + 1, tree.shape.isNode) := by
  obtain ⟨rest, rfl⟩ := h
  have htabs : ∀ c ∈ List.replicate (depth + 1) '\t', (c == '\t') = true := by
    intro c hc
    rw [List.eq_of_mem_replicate hc, beq_self_eq_true]
  simp only [mark, Entry.start, List.append_assoc, List.cons_append,
    List.takeWhile_append_of_pos htabs, List.dropWhile_append_of_pos htabs]
  cases tree with
  | point p => simp [Tree.entry, Entry.heading, Tree.shape, Shape.isNode]
  | node op result entries => simp [Tree.entry, Entry.heading, Tree.shape, Shape.isNode]

mutual

theorem Tree.map_mark_linesBelow (depth : Nat) (tree : Tree) :
    (tree.linesBelow depth).map mark = tree.shape.marks depth := by
  cases tree with
  | point p => rfl
  | node op result entries => exact Forest.map_mark_lines depth entries

theorem Forest.map_mark_lines (depth : Nat) (forest : Forest) :
    (forest.lines depth).map mark = Shape.marksBelow depth forest.shapes := by
  cases forest with
  | nil => rfl
  | cons tree rest =>
    simp only [Forest.lines, Forest.shapes, Shape.marksBelow, List.map_cons, List.map_append,
      mark_of_start (tree.start_prefix depth 0), Tree.map_mark_linesBelow,
      Forest.map_mark_lines]

end

end Marks

section Layout

variable {t : Trace} {op : Operator} {result : Value} {entries : Forest}
  (h : t.nodes.toList = (Tree.node op result entries).nodes none 0 0)

include h

theorem length_lines_layout :
    (entries.lines 0).length + 1 = t.size + (t.nodes.toList.flatMap Node.points).length := by
  have hpoints := (Tree.points_perm none 0 0 (Tree.node op result entries)).length_eq
  rw [← h] at hpoints
  have hlines := Tree.length_linesBelow 0 (Tree.node op result entries)
  rw [size_layout h]
  simp only [Tree.leaves, Tree.linesBelow, Tree.size, List.nil_append] at hpoints hlines
  omega

theorem splitOn_report_layout (hshown : ∀ v ∈ t.shown, '\n' ∉ v.display.toList) :
    t.report.toList.splitOn '\n' =
      (Tree.node op result entries).headline :: entries.lines 0 := by
  have hnodes : ∀ n ∈ (Tree.node op result entries).nodes none 0 0, ∀ v ∈ n.shown,
      '\n' ∉ v.display.toList := by
    intro n hn v hv
    rw [← h] at hn
    exact hshown v (List.mem_flatMap.mpr ⟨n, hn, hv⟩)
  have hfirst := Tree.break_notMem_headline _ (List.forall_mem_nil _) hnodes
  have hbelow := Tree.break_notMem _ hnodes
  rw [report_of_explanation? (unfolds_layout h).2, Tree.toList_report, ← intercalate_cons]
  exact List.splitOn_intercalate '\n' (List.forall_mem_cons.mpr ⟨hfirst, hbelow⟩)
    (List.cons_ne_nil _ _)

end Layout

/-- The report of a successful evaluation whose trace is not empty, as far as no value that it shows
has line breaks: a line for the root without indentation, and then one for each entry, where a walk
through the trace gets to it, indented by the depth of the node that has the entry. Two traces with
the same report are of the same shape. -/
theorem report_mirrors_tree (rule data : Value) (e : Evaluation)
    (h : (evaluate rule data).1 = .ok e) (hne : e.trace.isEmpty = false)
    (hshown : ∀ v ∈ e.trace.shown, '\n' ∉ v.display.toList) :
    (∃ first below, e.trace.report.toList.splitOn '\n' = first :: below ∧
      "LOGIC: '".toList <+: first ∧ Entry.Tells e.trace (.node 0) below ∧
      below.length + 1 = e.trace.size + (e.trace.nodes.toList.flatMap Node.points).length) ∧
    ∀ (rule' data' : Value) (e' : Evaluation), (evaluate rule' data').1 = .ok e' →
      e'.trace.isEmpty = false → (∀ v ∈ e'.trace.shown, '\n' ∉ v.display.toList) →
      e.trace.report = e'.trace.report →
      ∃ tree tree', Entry.Unfolds e.trace (.node 0) tree ∧
        Entry.Unfolds e'.trace (.node 0) tree' ∧ tree.shape = tree'.shape := by
  obtain ⟨op, result, entries, hnodes⟩ := exists_layout h hne
  have hlines := splitOn_report_layout hnodes hshown
  constructor
  · exact ⟨_, _, hlines, Tree.heading_prefix 0 (.node op result entries),
      Tree.tells _ (holds_layout hnodes), length_lines_layout hnodes⟩
  · intro rule' data' e' h' hne' hshown' hreport
    obtain ⟨op', result', entries', hnodes'⟩ := exists_layout h' hne'
    have hlines' := splitOn_report_layout hnodes' hshown'
    rw [← hreport, hlines] at hlines'
    -- The marks are read from the lines alone, so both trees have the same ones.
    have hmarks := congrArg (List.map mark) (List.cons.inj hlines').2
    rw [Forest.map_mark_lines, Forest.map_mark_lines] at hmarks
    exact ⟨_, _, (unfolds_layout hnodes).1, (unfolds_layout hnodes').1,
      congrArg Shape.node (Shape.marksBelow_injective 0 hmarks)⟩

theorem report_mirrors_tree_comparison :
    let a := Value.object [("var", .string "a")]
    let rule := fun operands => Value.object [("and", .array [.object [("<", .array operands)],
      .object [("!", .array [.object [("missing", .array [.string "a"])]])]])]
    let short := rule [a, .int 5]
    let long := rule [a, .int 7, .int 9, .int 5]
    let data := Value.object [("a", .int 3)]
    ∃ e e', (evaluate short data).1 = .ok e ∧ (evaluate long data).1 = .ok e' ∧
      e.trace.report = "LOGIC: 'and', RESULT = true\n" ++
        "\t DATA: 'a' data:3 < expected:5,  RESULT = true\n\t LOGIC: '!', RESULT = true" ∧
      (∃ first below, e.trace.report.toList.splitOn '\n' = first :: below ∧
        "LOGIC: '".toList <+: first ∧ Entry.Tells e.trace (.node 0) below ∧
        below.length + 1 = e.trace.size + (e.trace.nodes.toList.flatMap Node.points).length) ∧
      ∃ tree tree', Entry.Unfolds e.trace (.node 0) tree ∧
        Entry.Unfolds e'.trace (.node 0) tree' ∧ tree.shape = tree'.shape := by
  intro a rule short long data
  obtain ⟨e, h⟩ : ∃ e, (evaluate short data).1 = .ok e := ⟨_, rfl⟩
  obtain ⟨e', h'⟩ : ∃ e, (evaluate long data).1 = .ok e := ⟨_, rfl⟩
  let told (e : Evaluation) : Bool × Bool × String :=
    (e.trace.isEmpty, decide (∀ v ∈ e.trace.shown, '\n' ∉ v.display.toList), e.trace.report)
  let text := "LOGIC: 'and', RESULT = true\n" ++
    "\t DATA: 'a' data:3 < expected:5,  RESULT = true\n\t LOGIC: '!', RESULT = true"
  have hshort : (evaluate short data).1.map told = .ok (false, true, text) := by decide +kernel
  have hlong : (evaluate long data).1.map told = .ok (false, true, text) := by decide +kernel
  rw [h] at hshort
  rw [h'] at hlong
  simp only [Except.map, Except.ok.injEq, told, Prod.mk.injEq, decide_eq_true_iff] at hshort hlong
  obtain ⟨hne, hshown, hreport⟩ := hshort
  obtain ⟨hne', hshown', hreport'⟩ := hlong
  obtain ⟨hlines, hshapes⟩ := report_mirrors_tree short data e h hne hshown
  exact ⟨e, e', h, h', hreport, hlines,
    hshapes long data e' h' hne' hshown' (hreport.trans hreport'.symm)⟩

end JsonRules
