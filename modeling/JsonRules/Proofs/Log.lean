import JsonRules.Proofs.Evaluation

/-!
The log and the trace tell the same: what an evaluation writes to the log are the results of the data
points of `log` in its trace, in the order in which a reader of the trace comes across them.
-/
namespace JsonRules

mutual

def Tree.points : Tree → List DataPoint
  | .point p => [p]
  | .node _ _ entries => Forest.points entries

def Forest.points : Forest → List DataPoint
  | [] => []
  | tree :: rest => tree.points ++ Forest.points rest

end

theorem Forest.points_append (f g : Forest) :
    Forest.points (f ++ g) = Forest.points f ++ Forest.points g := by
  induction f with
  | nil => rfl
  | cons tree rest ih => simp only [List.cons_append, Forest.points, ih, List.append_assoc]

/-- The data points that are no part of a node of these trees. -/
def Tree.leaves : Tree → List DataPoint
  | .point p => [p]
  | .node _ _ _ => []

def Forest.leaves : Forest → List DataPoint
  | [] => []
  | tree :: rest => tree.leaves ++ Forest.leaves rest

theorem Forest.points_eq_leaves {op : Operator} {v : Value} {parent : Option Nat}
    {depth handle : Nat} {forest : Forest} :
    Trace.Node.points ⟨op, v, parent, depth, (forest.entries handle).toArray⟩ = forest.leaves := by
  unfold Trace.Node.points
  induction forest generalizing handle with
  | nil => rfl
  | cons tree rest ih =>
    cases tree <;> simpa [Forest.entries, Forest.leaves, Tree.entry, Tree.leaves] using ih

mutual

theorem Tree.points_perm (parent : Option Nat) (depth handle : Nat) (tree : Tree) :
    (tree.leaves ++ (tree.nodes parent depth handle).flatMap Trace.Node.points).Perm
      tree.points := by
  cases tree with
  | point p => exact .refl _
  | node op result entries =>
    have hbelow := Forest.points_perm (some handle) (depth + 1) (handle + 1) entries
    simpa only [Tree.leaves, Tree.nodes, Tree.points, List.flatMap_cons, List.nil_append,
      Forest.points_eq_leaves] using hbelow

theorem Forest.points_perm (parent : Option Nat) (depth handle : Nat) (forest : Forest) :
    (forest.leaves ++ (forest.nodes parent depth handle).flatMap Trace.Node.points).Perm
      (Forest.points forest) := by
  cases forest with
  | nil => exact .refl _
  | cons tree rest =>
    have htree := Tree.points_perm parent depth handle tree
    have hrest := Forest.points_perm parent depth (handle + tree.size) rest
    refine List.Perm.trans ?_ (htree.append hrest)
    simp only [Forest.leaves, Forest.nodes, List.flatMap_append, List.append_assoc]
    exact (List.perm_append_comm_assoc _ _ _).append_left _

end

def logOf (points : List DataPoint) : List String :=
  (points.filter fun p => p.operator = .log).map fun p => p.result.display

theorem logOf_append (ps qs : List DataPoint) : logOf (ps ++ qs) = logOf ps ++ logOf qs := by
  simp [logOf]

namespace Account

variable {α β : Type}

/-- The log has the lines of the data points among the entries. -/
def IsLogged (x : Account α) : Prop :=
  ∀ a entries, x.outcome = .ok (a, entries) → x.log = logOf (Forest.points entries)

theorem isLogged_bind {x : Account α} {f : α → Account β} (hx : x.IsLogged)
    (hf : ∀ a, (f a).IsLogged) : (x >>= f).IsLogged := by
  intro b entries h
  cases hout : x.outcome with
  | error e =>
    rw [bind_of_error hout] at h
    contradiction
  | ok r =>
    obtain ⟨a, before⟩ := r
    rw [bind_of_ok hout] at h ⊢
    obtain ⟨⟨_, more⟩, hmore, heq⟩ := Except.map_eq_ok.mp h
    obtain ⟨rfl, rfl⟩ := Prod.mk.inj heq
    rw [Forest.points_append, logOf_append, hx a before hout, hf a _ more hmore]

theorem logged_eq_logOf {op : Operator} {values : List Value} {result : Value}
    (h : op.result? values = some result) (operand data : Value) :
    op.logged values = logOf [Eval.dataPoint op operand data result] := by
  by_cases hop : op = .log
  · subst hop
    cases h
    rfl
  · simp [Operator.logged, logOf, Eval.dataPoint, hop]

theorem isLogged_settle (op : Operator) (operand data : Value) (values : List Value) :
    (settle op operand data values).IsLogged := by
  intro v entries h
  unfold settle at h ⊢
  cases hv : op.result? values with
  | none =>
    rw [hv] at h
    cases h
    rfl
  | some result =>
    rw [hv] at h
    cases h
    cases hc : op.isComposite with
    | false => exact logged_eq_logOf hv operand data
    | true =>
      have hop : op ≠ .log := by
        rintro rfl
        contradiction
      simp [Operator.logged, hop, Forest.points, logOf]

theorem isLogged_enclose (op : Operator) {x : Account Value} (hx : x.IsLogged) :
    (enclose op x).IsLogged := by
  cases hc : op.isComposite with
  | false => rwa [enclose_of_not_composite hc]
  | true =>
    rw [enclose_of_composite hc]
    intro v entries h
    obtain ⟨⟨_, below⟩, hbelow, heq⟩ := Except.map_eq_ok.mp h
    obtain ⟨rfl, rfl⟩ := Prod.mk.inj heq
    simpa [Forest.points, Tree.points] using hx _ below hbelow

theorem invariant_isLogged : Invariant @IsLogged where
  pure := fun a v entries h => by cases h; rfl
  fail := fun e v entries h => by contradiction
  bind := isLogged_bind
  settle := isLogged_settle
  enclose := isLogged_enclose

theorem points_root? {r data v : Value} {entries : Forest} {root : Tree}
    (h : (rule r data).outcome = .ok (v, entries)) (hroot : root? r entries = some root) :
    root.points = Forest.points entries := by
  cases hr : r.firstField? with
  | none => simp [root?, hr] at hroot
  | some field =>
    obtain ⟨name, operand⟩ := field
    obtain ⟨others, rfl⟩ := Value.eq_object_of_firstField? hr
    cases hop : Operator.named? name with
    | none => simp [root?, hr, hop] at hroot
    | some op =>
      cases hc : op.isComposite with
      | false =>
        obtain rfl : .node op _ entries = root := by simpa [root?, hr, hop, hc] using hroot
        rfl
      | true =>
        rw [rule_object hop, enclose_of_composite hc] at h
        obtain ⟨_, -, heq⟩ := Except.map_eq_ok.mp h
        obtain ⟨rfl, rfl⟩ := Prod.mk.inj heq
        obtain rfl : .node op _ _ = root := by simpa [root?, hr, hop, hc] using hroot
        simp [Forest.points]

end Account

open Trace

/-- The log of a successful evaluation has one line for each data point of `log` in its trace, in the
order of the trace. The tree is the one that the handles of the trace describe. -/
theorem log_eq_logged_points (rule data : Value) (e : Evaluation)
    (h : (evaluate rule data).1 = .ok e) :
    (e.trace.isEmpty = true ∧ (evaluate rule data).2 = []) ∨
      ∃ tree, Entry.Unfolds e.trace (.node 0) tree ∧
        (evaluate rule data).2 =
          (tree.points.filter fun p => p.operator = .log).map fun p => p.result.display := by
  obtain ⟨entries, hx, hroot⟩ := exists_entries h
  have hlog : (evaluate rule data).2 = logOf (Forest.points entries) := by
    rw [evaluate_eq_evaluation]
    exact Account.invariant_isLogged.rule rule data e.result entries hx
  rw [hlog]
  cases hr : Account.root? rule entries with
  | none =>
    rw [hr] at hroot
    obtain ⟨hempty, rfl⟩ := hroot
    exact .inl ⟨by simp [isEmpty, hempty], rfl⟩
  | some root =>
    rw [hr] at hroot
    obtain ⟨op, result, below, rfl, hnodes⟩ := hroot
    refine .inr ⟨_, (unfolds_layout hnodes).1, ?_⟩
    rw [Account.points_root? hx hr]
    rfl

theorem log_eq_logged_points_or :
    let inner := Value.object [("and", .array [.bool false, .object [("log", .string "second")]])]
    let rule := Value.object [("or", .array [.object [("log", .string "first")], inner,
      .object [("log", .string "third")]])]
    ∃ e, (evaluate rule .null).1 = .ok e ∧
      (evaluate rule .null).2 = ["first", "second", "third"] ∧
      ((e.trace.isEmpty = true ∧ (evaluate rule .null).2 = []) ∨
        ∃ tree, Entry.Unfolds e.trace (.node 0) tree ∧
          (evaluate rule .null).2 =
            (tree.points.filter fun p => p.operator = .log).map fun p => p.result.display) := by
  intro inner rule
  obtain ⟨e, h⟩ : ∃ e, (evaluate rule .null).1 = .ok e := ⟨_, rfl⟩
  exact ⟨e, h, rfl, log_eq_logged_points rule .null e h⟩

end JsonRules
