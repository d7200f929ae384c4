import JsonRules.Proofs.Outcome

/-!
The positions that evaluation goes through, and the law of failure: evaluation fails exactly if one of
them is an object whose first key is no operator, and its error names the first such key.
-/
namespace JsonRules

/-- A rule where evaluation meets it, with the data it meets it on. -/
structure Position where
  rule : Value
  data : Value

/-- The items that `map` gets from its first operand, if that has a value. -/
def itemsOf (source data : Value) : List Value :=
  match outcome source data with
  | .ok v => v.items
  | .error _ => []

mutual

/-- Depth first and from left to right: a rule comes before its operands, and of an object only the
first field counts. All operands are met, whatever the operator, except those of `map`. -/
def positions (r data : Value) : List Position :=
  ⟨r, data⟩ ::
    match r with
    | .object ((name, operand) :: _) =>
      match operand with
      | .array operands =>
        if name = "map" then positionsOfMap operands data else positionsOf operands data
      | lone => positions lone data
    | _ => []

def positionsOf (operands : List Value) (data : Value) : List Position :=
  match operands with
  | [] => []
  | r :: rest => positions r data ++ positionsOf rest data

def positionsOfMap (operands : List Value) (data : Value) : List Position :=
  match operands with
  | [] => []
  | [source] => positions source data
  | source :: body :: _ =>
    positions source data ++ (itemsOf source data).flatMap fun item => positions body item

end

theorem positionsOf_eq (rs : List Value) (data : Value) :
    positionsOf rs data = rs.flatMap fun r => positions r data := by
  induction rs with
  | nil => rfl
  | cons r rest ih => simp only [positionsOf, ih, List.flatMap_cons]

theorem positions_literal {r : Value} (h : r.firstField? = none) (data : Value) :
    positions r data = [⟨r, data⟩] := by
  unfold positions
  split
  · contradiction
  · rfl

theorem self_mem_positions (r data : Value) : ⟨r, data⟩ ∈ positions r data := by
  unfold positions
  exact List.mem_cons_self

theorem positions_object (name : String) (operand : Value) (others : List (String × Value))
    (data : Value) :
    positions (.object ((name, operand) :: others)) data =
      ⟨.object ((name, operand) :: others), data⟩ ::
        if name = "map" then
          positionsOfMap operand.operands data
        else
          operand.operands.flatMap fun r => positions r data := by
  rw [← positionsOf_eq]
  cases operand <;> by_cases hname : name = "map" <;>
    simp [positions, hname, Value.operands, positionsOf, positionsOfMap]

theorem positions_operator {name : String} {op : Operator} (h : Operator.named? name = some op)
    (hop : op ≠ .map) (operand : Value) (others : List (String × Value)) (data : Value) :
    positions (.object ((name, operand) :: others)) data =
      ⟨.object ((name, operand) :: others), data⟩ ::
        operand.operands.flatMap fun r => positions r data := by
  have hname : name ≠ "map" := by
    rintro rfl
    exact hop (Option.some.inj h).symm
  rw [positions_object, if_neg hname]

theorem positions_map {name : String} (h : Operator.named? name = some .map) (operand : Value)
    (others : List (String × Value)) (data : Value) :
    positions (.object ((name, operand) :: others)) data =
      ⟨.object ((name, operand) :: others), data⟩ :: positionsOfMap operand.operands data := by
  have hname : name = "map" := (Operator.name_of_named? h).symm
  rw [positions_object, if_pos hname]

theorem mem_positionsOfMap {rs : List Value} {data : Value} {p : Position}
    (h : p ∈ positionsOfMap rs data) :
    ∃ r ∈ rs, ∃ d, p ∈ positions r d ∧ positions r d ⊆ positionsOfMap rs data := by
  match rs, h with
  | [source], h => exact ⟨source, by simp, data, h, fun _ hq => hq⟩
  | source :: body :: _, h =>
    rcases List.mem_append.mp h with hsource | hbody
    · exact ⟨source, by simp, data, hsource, fun _ hq => List.mem_append_left _ hq⟩
    · obtain ⟨item, hitem, hp⟩ := List.mem_flatMap.mp hbody
      refine ⟨body, by simp, item, hp, fun q hq => ?_⟩
      exact List.mem_append_right _ (List.mem_flatMap.mpr ⟨item, hitem, hq⟩)

theorem mem_positions_object {name : String} {operand data : Value}
    {others : List (String × Value)} {p : Position}
    (hp : p ∈ positions (.object ((name, operand) :: others)) data) :
    p = ⟨.object ((name, operand) :: others), data⟩ ∨
      ∃ r ∈ operand.operands, ∃ d, p ∈ positions r d ∧
        positions r d ⊆ positions (.object ((name, operand) :: others)) data := by
  rw [positions_object] at hp ⊢
  rcases List.mem_cons.mp hp with rfl | hp
  · exact .inl rfl
  · right
    by_cases hname : name = "map"
    · rw [if_pos hname] at hp ⊢
      obtain ⟨r, hr, d, hpr, hsub⟩ := mem_positionsOfMap hp
      exact ⟨r, hr, d, hpr, fun q hq => List.mem_cons_of_mem _ (hsub hq)⟩
    · rw [if_neg hname] at hp ⊢
      obtain ⟨r, hr, hpr⟩ := List.mem_flatMap.mp hp
      refine ⟨r, hr, data, hpr, fun q hq => List.mem_cons_of_mem _ ?_⟩
      exact List.mem_flatMap.mpr ⟨r, hr, hq⟩

theorem positions_subset {r data : Value} {p : Position} (h : p ∈ positions r data) :
    positions p.rule p.data ⊆ positions r data := by
  induction r using Value.rule_induction generalizing data with
  | literal r hr =>
    rw [positions_literal hr] at h ⊢
    obtain rfl := List.mem_singleton.mp h
    rw [positions_literal hr]
    exact fun _ hq => hq
  | object name operand others ih =>
    rcases mem_positions_object h with rfl | ⟨r, hr, d, hp, hsub⟩
    · exact fun _ hq => hq
    · exact fun q hq => hsub (ih r hr hp hq)

def Value.unrecognized? : Value → Option String
  | .object ((name, _) :: _) => if (Operator.named? name).isSome then none else some name
  | _ => none

theorem Value.unrecognized?_literal {r : Value} (h : r.firstField? = none) :
    r.unrecognized? = none := by
  unfold unrecognized?
  split
  · contradiction
  · rfl

theorem Value.unrecognized?_object {name : String} {op : Operator}
    (h : Operator.named? name = some op) (operand : Value) (others : List (String × Value)) :
    unrecognized? (.object ((name, operand) :: others)) = none := by
  simp [unrecognized?, h]

def firstUnrecognized? (ps : List Position) : Option String :=
  ps.findSome? fun p => p.rule.unrecognized?

theorem firstUnrecognized?_append (ps qs : List Position) :
    firstUnrecognized? (ps ++ qs) = (firstUnrecognized? ps).or (firstUnrecognized? qs) :=
  List.findSome?_append

theorem firstUnrecognized?_flatMap {α : Type} (f : α → List Position) (xs : List α) :
    firstUnrecognized? (xs.flatMap f) = xs.findSome? fun x => firstUnrecognized? (f x) := by
  induction xs with
  | nil => rfl
  | cons x rest ih =>
    rw [List.flatMap_cons, firstUnrecognized?_append, ih, List.findSome?_cons]
    cases firstUnrecognized? (f x) <;> rfl

def failure? {α : Type} : Except EvalError α → Option String
  | .ok _ => none
  | .error (.unrecognized name) => some name

theorem error_iff_failure? {α : Type} {x : Except EvalError α} {name : String} :
    x = .error (.unrecognized name) ↔ failure? x = some name := by
  cases x with
  | error e =>
    cases e
    simp [failure?]
  | ok v => simp [failure?]

theorem ok_iff_failure? {α : Type} {x : Except EvalError α} :
    (∃ v, x = .ok v) ↔ failure? x = none := by
  cases x with
  | error e =>
    cases e
    simp [failure?]
  | ok v => simp [failure?]

theorem failure?_map {α β : Type} (f : α → β) (x : Except EvalError α) :
    failure? (f <$> x) = failure? x := by
  cases x <;> rfl

theorem failure?_mapM {α β : Type} {f : α → Except EvalError β} {g : α → Option String}
    (xs : List α) (h : ∀ x ∈ xs, failure? (f x) = g x) :
    failure? (xs.mapM f) = xs.findSome? g := by
  induction xs with
  | nil => rfl
  | cons x rest ih =>
    rw [List.mapM_cons, List.findSome?_cons, ← ih fun y hy => h y (List.mem_cons_of_mem x hy),
      ← h x List.mem_cons_self]
    cases f x with
    | error e => cases e; rfl
    | ok v => exact failure?_map (v :: ·) (rest.mapM f)

theorem failure?_mapItems {source data : Value} {f : Value → Except EvalError Value}
    {g : Value → Option String} (h : ∀ item, failure? (f item) = g item) :
    failure? (do let v ← outcome source data; Value.array <$> v.items.mapM f) =
      (failure? (outcome source data)).or ((itemsOf source data).findSome? g) := by
  unfold itemsOf
  cases outcome source data with
  | error e => cases e; rfl
  | ok v => exact (failure?_map Value.array _).trans (failure?_mapM v.items fun item _ => h item)

theorem firstUnrecognized?_literal {r : Value} (h : r.firstField? = none) (data : Value) :
    firstUnrecognized? (positions r data) = none := by
  simp [positions_literal h, firstUnrecognized?, Value.unrecognized?_literal h]

theorem firstUnrecognized?_positionsOfMap (rs : List Value) (data : Value) :
    firstUnrecognized? (positionsOfMap rs data) =
      (firstUnrecognized? (positions (Operator.operand rs 0) data)).or
        ((itemsOf (Operator.operand rs 0) data).findSome? fun item =>
          firstUnrecognized? (positions (Operator.operand rs 1) item)) := by
  have hnull (d : Value) : firstUnrecognized? (positions .null d) = none :=
    firstUnrecognized?_literal rfl d
  have hnone (items : List Value) :
      (items.findSome? fun item => firstUnrecognized? (positions .null item)) = none :=
    List.findSome?_eq_none_iff.mpr fun item _ => hnull item
  match rs with
  | [] =>
    have hoperand (i : Nat) : Operator.operand [] i = .null := rfl
    rw [hoperand, hoperand, hnone, hnull]
    rfl
  | [source] =>
    have hbody : Operator.operand [source] 1 = .null := rfl
    rw [hbody, hnone, Option.or_none]
    rfl
  | source :: body :: _ =>
    simp [positionsOfMap, Operator.operand, firstUnrecognized?_append,
      firstUnrecognized?_flatMap]

theorem failure?_outcome (r data : Value) :
    failure? (outcome r data) = firstUnrecognized? (positions r data) := by
  induction r using Value.rule_induction generalizing data with
  | literal r h =>
    rw [outcome_literal h, firstUnrecognized?_literal h]
    rfl
  | object name operand others ih =>
    cases h : Operator.named? name with
    | none =>
      rw [outcome_unrecognized h]
      unfold positions
      simp [firstUnrecognized?, Value.unrecognized?, h, failure?]
    | some op =>
      have hcons (ps : List Position) : firstUnrecognized?
          (⟨.object ((name, operand) :: others), data⟩ :: ps) = firstUnrecognized? ps := by
        simp [firstUnrecognized?, Value.unrecognized?_object h]
      by_cases hop : op = .map
      · subst hop
        have hnull (d : Value) :
            failure? (outcome .null d) = firstUnrecognized? (positions .null d) := by
          rw [firstUnrecognized?_literal rfl]
          rfl
        have hoperand (i : Nat) (d : Value) :
            failure? (outcome (Operator.operand operand.operands i) d) =
              firstUnrecognized? (positions (Operator.operand operand.operands i) d) :=
          Value.operand_of_forall (fun r hr => ih r hr d) (hnull d) i
        rw [outcome_map h, failure?_mapItems (hoperand 1), positions_map h, hcons,
          firstUnrecognized?_positionsOfMap, hoperand 0]
      · rw [outcome_operator h hop, failure?_map, positions_operator h hop, hcons,
          firstUnrecognized?_flatMap]
        exact failure?_mapM operand.operands fun r hr => ih r hr data

theorem failure?_eq_none_iff {r data : Value} :
    failure? (outcome r data) = none ↔ ∀ p ∈ positions r data, p.rule.unrecognized? = none := by
  rw [failure?_outcome]
  exact List.findSome?_eq_none_iff

theorem failure?_evaluate (rule data : Value) :
    failure? (evaluate rule data).1 = failure? (outcome rule data) := by
  rw [outcome_eq_map]
  exact (failure?_map Evaluation.result _).symm

theorem evaluate_eq_ok_iff {rule data : Value} :
    (∃ e, (evaluate rule data).1 = .ok e) ↔
      ∀ p ∈ positions rule data, p.rule.unrecognized? = none := by
  rw [ok_iff_failure?, failure?_evaluate, failure?_eq_none_iff]

/-- Evaluation fails exactly if it meets an object whose first key is no operator, and names the
first such key; otherwise it succeeds. -/
theorem evaluate_fails_iff (rule data : Value) :
    (∀ name, (evaluate rule data).1 = .error (.unrecognized name) ↔
        firstUnrecognized? (positions rule data) = some name) ∧
      ((∃ e, (evaluate rule data).1 = .ok e) ↔
        ∀ p ∈ positions rule data, p.rule.unrecognized? = none) := by
  refine ⟨fun name => ?_, evaluate_eq_ok_iff⟩
  rw [error_iff_failure?, failure?_evaluate, failure?_outcome]

-- The branch that is not chosen is met as well.
example :
    let rule := Value.object [("if", .array [.bool true, .int 1, .object [("nope", .null)]])]
    (evaluate rule .null).1 = .error (.unrecognized "nope") := rfl

end JsonRules
