import JsonRules.Proofs.Occurrence
import JsonRules.Proofs.Positions
import JsonRules.Proofs.Summaries

/-!
Rules without the fields that evaluation passes over. Of an object that stands where it is evaluated only
the first field counts: the rule that has no others comes to the same and logs the same (`summary_pruned`),
and evaluation goes through it as it goes through the whole one (`positions_pruned`).
-/
namespace JsonRules

namespace Value

mutual

/-- The rule without the fields behind the first one, at each place where evaluation gets to. Literals are
left as they are. -/
def pruned : Value → Value
  | .object ((name, operand) :: _) =>
    .object [(name,
      match operand with
      | .array operands =>
        .array (if name = "map" then prunedForMap operands else prunedAll operands)
      | lone => lone.pruned)]
  | literal => literal

def prunedAll : List Value → List Value
  | [] => []
  | r :: rest => r.pruned :: prunedAll rest

def prunedForMap : List Value → List Value
  | [] => []
  | [source] => [source.pruned]
  | source :: body :: rest => source.pruned :: body.pruned :: rest

end

def prunedOperand (name : String) : Value → Value
  | .array operands =>
    .array (if name = "map" then prunedForMap operands else prunedAll operands)
  | lone => lone.pruned

theorem prunedAll_eq (rs : List Value) : prunedAll rs = rs.map pruned := by
  induction rs with
  | nil => rfl
  | cons r rest ih => rw [prunedAll, ih, List.map_cons]

theorem pruned_literal {r : Value} (h : r.firstField? = none) : r.pruned = r := by
  unfold pruned
  split
  · contradiction
  · rfl

theorem pruned_object (name : String) (operand : Value) (others : List (String × Value)) :
    pruned (.object ((name, operand) :: others)) =
      .object [(name, prunedOperand name operand)] := by
  cases operand <;> simp [pruned, prunedOperand]

theorem operands_prunedOperand (name : String) (operand : Value) :
    (prunedOperand name operand).operands =
      if name = "map" then prunedForMap operand.operands else operand.operands.map pruned := by
  cases operand with
  | array rs => by_cases h : name = "map" <;> simp [prunedOperand, operands, h, prunedAll_eq]
  | object fields =>
    cases fields with
    | nil => simp [prunedOperand, operands, prunedForMap, pruned]
    | cons field rest =>
      cases field
      simp [prunedOperand, operands, prunedForMap, pruned_object]
  | _ => simp [prunedOperand, operands, prunedForMap, pruned]

theorem operand_prunedForMap (rs : List Value) :
    Operator.operand (prunedForMap rs) 0 = (Operator.operand rs 0).pruned ∧
      Operator.operand (prunedForMap rs) 1 = (Operator.operand rs 1).pruned := by
  have hnull : Value.null = Value.null.pruned := (pruned_literal rfl).symm
  match rs with
  | [] => exact ⟨hnull, hnull⟩
  | [source] => exact ⟨rfl, hnull⟩
  | source :: body :: rest => exact ⟨rfl, rfl⟩

theorem length_fields_pruned (v : Value) : v.pruned.fields.length ≤ 1 := by
  cases h : v.firstField? with
  | none =>
    rw [pruned_literal h]
    cases v with
    | object fields => cases fields <;> simp_all [firstField?, Value.fields]
    | _ => simp [Value.fields]
  | some field =>
    obtain ⟨others, rfl⟩ := eq_object_of_firstField? h
    rw [pruned_object]
    exact Nat.le_refl 1

end Value

open Value

theorem summary_pruned (r data : Value) : summary r.pruned data = summary r data := by
  induction r using Value.rule_induction generalizing data with
  | literal r h => rw [pruned_literal h]
  | object name operand others ih =>
    rw [pruned_object]
    cases h : Operator.named? name with
    | none => rw [summary_unrecognized h, summary_unrecognized h]
    | some op =>
      by_cases hop : op = .map
      · subst hop
        have hname : name = "map" := (Operator.name_of_named? h).symm
        have hnull (d : Value) : summary Value.null.pruned d = summary .null d := by
          rw [pruned_literal rfl]
        have hoperand (i : Nat) (d : Value) :
            summary (Operator.operand operand.operands i).pruned d =
              summary (Operator.operand operand.operands i) d :=
          Value.operand_of_forall (fun r hr => ih r hr d) (hnull d) i
        obtain ⟨hsource, hbody⟩ := operand_prunedForMap operand.operands
        rw [summary_map h, summary_map h, operands_prunedOperand, if_pos hname, hsource, hbody,
          hoperand 0, funext (hoperand 1)]
      · have hname : name ≠ "map" := by
          intro hmap
          subst hmap
          exact hop (Option.some.inj h).symm
        have hoperands : (operand.operands.mapM fun r => summary r.pruned data) =
            operand.operands.mapM fun r => summary r data := mapM_congr fun r hr => ih r hr data
        rw [summary_operator h hop, summary_operator h hop, operands_prunedOperand,
          if_neg hname, List.mapM_map, ← hoperands]
        rfl

theorem apply_pruned (r data : Value) : apply r.pruned data = apply r data :=
  apply_congr (summary_pruned r data)

def Position.pruned (p : Position) : Position := ⟨p.rule.pruned, p.data⟩

theorem itemsOf_pruned (source data : Value) :
    itemsOf source.pruned data = itemsOf source data := by
  rw [itemsOf, itemsOf, outcome, outcome, apply_pruned]

theorem positionsOfMap_prunedForMap (rs : List Value) (data : Value)
    (h : ∀ r ∈ rs, ∀ d, positions r.pruned d = (positions r d).map Position.pruned) :
    positionsOfMap (prunedForMap rs) data = (positionsOfMap rs data).map Position.pruned := by
  match rs, h with
  | [], _ => rfl
  | [source], h => exact h source (by simp) data
  | source :: body :: _, h =>
    simp only [prunedForMap, positionsOfMap, List.map_append, List.map_flatMap, itemsOf_pruned,
      h source (by simp), h body (by simp)]

theorem positions_pruned (r data : Value) :
    positions r.pruned data = (positions r data).map Position.pruned := by
  induction r using Value.rule_induction generalizing data with
  | literal r h =>
    rw [pruned_literal h, positions_literal h, List.map_singleton, Position.pruned,
      pruned_literal h]
  | object name operand others ih =>
    rw [pruned_object, positions_object, positions_object, operands_prunedOperand, List.map_cons,
      Position.pruned, pruned_object]
    by_cases hname : name = "map"
    · simp only [hname, if_true, positionsOfMap_prunedForMap operand.operands data ih]
    · simp only [hname, if_false, List.flatMap_map, List.map_flatMap]
      rw [List.flatMap_congr fun r hr => ih r hr data]

/-- A rule comes to the same result or the same error and writes the same log without the fields behind
the first one, at whatever depth and whatever they are; then no object that evaluation meets has any. So
rules that differ in nothing but such fields have one outcome. -/
theorem apply_first_fields (rule data : Value) :
    apply rule.pruned data = apply rule data ∧
      (∀ p ∈ positions rule.pruned data, p.rule.fields.length ≤ 1) ∧
      ∀ rule' : Value, rule'.pruned = rule.pruned → apply rule' data = apply rule data := by
  refine ⟨apply_pruned rule data, fun p hp => ?_, fun rule' h => ?_⟩
  · rw [positions_pruned] at hp
    obtain ⟨q, -, rfl⟩ := List.mem_map.mp hp
    exact length_fields_pruned q.rule
  · rw [← apply_pruned rule', h, apply_pruned]

theorem apply_first_fields_map :
    let rule (others : List (String × Value)) := Value.object [("map", .array [
      .object (("var", .string "names") :: others),
      .object (("log", .array [.object (("cat", .array [.object [("var", .string "")],
        .string "!"]) :: others)]) :: others)])]
    let others := [("var", .string "other"), ("nope", .object [("nope", .null), ("x", .null)])]
    let data := Value.object [("names", .array [.string "a", .string "b"])]
    let marked := Value.array [.string "a!", .string "b!"]
    (rule others).pruned = (rule []).pruned ∧
      apply (rule []) data = (.ok marked, ["a!", "b!"]) ∧
      apply (rule others) data = (.ok marked, ["a!", "b!"]) := by
  intro rule others data marked
  have hpruned : (rule others).pruned = (rule []).pruned := rfl
  have hshort : apply (rule []) data = (.ok marked, ["a!", "b!"]) := rfl
  obtain ⟨-, -, hsame⟩ := apply_first_fields (rule []) data
  exact ⟨hpruned, hshort, (hsame (rule others) hpruned).trans hshort⟩

-- The explanation is not the same, since it finds the key of a variable in any place.
example :
    let rule := Value.object [("==", .array [.object [("log", .int 1), ("var", .string "a")]])]
    let tested (r : Value) := (evaluate r .null).1.toOption.map fun e =>
      (e.trace.nodes.toList.flatMap Trace.Node.points).map fun p => p.tested.map Value.display
    tested rule = some [none, some "a"] ∧ tested rule.pruned = some [none, none] := by
  decide +kernel

end JsonRules
