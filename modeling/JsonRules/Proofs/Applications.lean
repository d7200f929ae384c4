import JsonRules.Proofs.Log
import JsonRules.Proofs.Occurrence
import JsonRules.Proofs.Positions

/-!
The data points of a trace and where they come from. The operators that evaluation applies are listed
in the order in which they are done, each on its data (`applications`); the data points of the trace
are those that these operators leave, one after the other (`leaves_rule`). What such a data point shows
for the reference that its operator tests is what the reference finds in these data.
-/
namespace JsonRules

mutual

/-- The operators of a rule, each after its operands, as far as evaluation gets to them. -/
def applications (r data : Value) : List Position :=
  match r with
  | .object ((name, operand) :: others) =>
    (match operand with
      | .array operands =>
        if name = "map" then applicationsOfMap operands data else applicationsOf operands data
      | lone => applications lone data) ++ [⟨.object ((name, operand) :: others), data⟩]
  | _ => []

def applicationsOf (operands : List Value) (data : Value) : List Position :=
  match operands with
  | [] => []
  | r :: rest => applications r data ++ applicationsOf rest data

/-- The first operand of `map` is applied on the data and the second one once on each item. -/
def applicationsOfMap (operands : List Value) (data : Value) : List Position :=
  match operands with
  | [] => []
  | [source] => applications source data
  | source :: body :: _ =>
    applications source data ++ (itemsOf source data).flatMap fun item => applications body item

end

theorem applicationsOf_eq (rs : List Value) (data : Value) :
    applicationsOf rs data = rs.flatMap fun r => applications r data := by
  induction rs with
  | nil => rfl
  | cons r rest ih => simp only [applicationsOf, ih, List.flatMap_cons]

theorem applications_literal {r : Value} (h : r.firstField? = none) (data : Value) :
    applications r data = [] := by
  unfold applications
  split
  · contradiction
  · rfl

theorem applicationsOfMap_eq (rs : List Value) (data : Value) :
    applicationsOfMap rs data = applications (Operator.operand rs 0) data ++
      (itemsOf (Operator.operand rs 0) data).flatMap fun item =>
        applications (Operator.operand rs 1) item := by
  have hnull (items : List Value) :
      (items.flatMap fun item => applications .null item) = [] :=
    List.flatMap_eq_nil_iff.mpr fun item _ => applications_literal rfl item
  match rs with
  | [] => exact (hnull _).symm
  | [source] =>
    have hbody : Operator.operand [source] 1 = .null := rfl
    rw [hbody, hnull, List.append_nil]
    rfl
  | source :: body :: _ => rfl

theorem applications_object (name : String) (operand : Value) (others : List (String × Value))
    (data : Value) :
    applications (.object ((name, operand) :: others)) data =
      (if name = "map" then
        applicationsOfMap operand.operands data
      else
        operand.operands.flatMap fun r => applications r data) ++
        [⟨.object ((name, operand) :: others), data⟩] := by
  rw [← applicationsOf_eq]
  cases operand <;> by_cases hname : name = "map" <;>
    simp [applications, hname, Value.operands, applicationsOf, applicationsOfMap]

def Position.point? (q : Position) : Option DataPoint := do
  let (name, operand) ← q.rule.firstField?
  let op ← Operator.named? name
  let result ← (outcome q.rule q.data).toOption
  if op.isComposite || op.readsData then none else some (Eval.dataPoint op operand q.data result)

theorem Position.point?_object {name : String} {op : Operator}
    (h : Operator.named? name = some op) {operand data v : Value}
    {others : List (String × Value)}
    (hv : outcome (.object ((name, operand) :: others)) data = .ok v) :
    Position.point? ⟨.object ((name, operand) :: others), data⟩ =
      if op.isComposite || op.readsData then none
      else some (Eval.dataPoint op operand data v) := by
  simp [Position.point?, Value.firstField?, h, hv, Except.toOption]

def pointsOf (qs : List Position) : List DataPoint := qs.filterMap Position.point?

theorem pointsOf_append (ps qs : List Position) :
    pointsOf (ps ++ qs) = pointsOf ps ++ pointsOf qs :=
  List.filterMap_append

theorem pointsOf_flatMap {α : Type} (f : α → List Position) (xs : List α) :
    pointsOf (xs.flatMap f) = xs.flatMap fun x => pointsOf (f x) :=
  List.filterMap_flatMap

namespace Account

variable {α β : Type} {ps qs : List DataPoint}

/-- If evaluation succeeds, these are the data points that it leaves. -/
def Leaves (x : Account α) (ps : List DataPoint) : Prop :=
  ∀ a entries, x.outcome = .ok (a, entries) → Forest.points entries = ps

theorem leaves_pure (a : α) : (pure a : Account α).Leaves [] := by
  intro b entries h
  obtain ⟨-, rfl⟩ := Prod.mk.inj (Except.ok.inj h)
  rfl

theorem leaves_bind {x : Account α} {f : α → Account β} (hx : x.Leaves ps)
    (hf : ∀ a, x.value = .ok a → (f a).Leaves qs) : (x >>= f).Leaves (ps ++ qs) := by
  intro b entries h
  cases hout : x.outcome with
  | error e =>
    rw [bind_of_error hout] at h
    contradiction
  | ok r =>
    obtain ⟨a, before⟩ := r
    rw [bind_of_ok hout] at h
    obtain ⟨⟨_, more⟩, hmore, heq⟩ := Except.map_eq_ok.mp h
    obtain ⟨rfl, rfl⟩ := Prod.mk.inj heq
    have hvalue : x.value = .ok a := by rw [value, hout]; rfl
    rw [Forest.points_append, hx a before hout, hf a hvalue _ more hmore]

theorem leaves_mapM {f : α → Account β} {points : α → List DataPoint} {xs : List α}
    (h : ∀ x ∈ xs, (f x).Leaves (points x)) : (xs.mapM f).Leaves (xs.flatMap points) := by
  induction xs with
  | nil => exact leaves_pure []
  | cons x rest ih =>
    have hrest := ih fun y hy => h y (List.mem_cons_of_mem x hy)
    rw [List.mapM_cons, List.flatMap_cons]
    refine leaves_bind (h x List.mem_cons_self) fun b _ => ?_
    simpa using leaves_bind hrest fun bs _ => leaves_pure (b :: bs)

theorem leaves_overItems {body : Meaning} {points : Value → List DataPoint}
    (h : ∀ item, (body item).Leaves (points item)) (v : Value) :
    (overItems v body).Leaves (v.items.flatMap points) := by
  cases v with
  | array items =>
    have hitems := leaves_bind (leaves_mapM fun item (_ : item ∈ items) => h item) fun values _ =>
      leaves_pure (Value.array values)
    rwa [List.append_nil] at hitems
  | _ => exact leaves_pure _

theorem leaves_settle (op : Operator) (operand data : Value) (values : List Value) :
    (settle op operand data values).Leaves
      (if op.isComposite || op.readsData then []
      else [Eval.dataPoint op operand data (op.valueOn data values)]) := by
  unfold settle
  cases hv : op.result? values with
  | none =>
    rw [(Operator.result?_eq_none_iff op values).mp hv, Bool.or_true, if_pos rfl]
    exact leaves_pure _
  | some result =>
    have hreads : op.readsData = false := by
      rw [← Bool.not_eq_true, ← Operator.result?_eq_none_iff op values, hv]
      exact Option.some_ne_none result
    have hvalue : op.valueOn data values = result := by rw [Operator.valueOn, hv]; rfl
    rw [hreads, hvalue, Bool.or_false]
    intro v entries h
    obtain ⟨-, rfl⟩ := Prod.mk.inj (Except.ok.inj h)
    cases op.isComposite <;> rfl

theorem leaves_enclose (op : Operator) {x : Account Value} (hx : x.Leaves ps) :
    (enclose op x).Leaves ps := by
  cases hc : op.isComposite with
  | false => rwa [enclose_of_not_composite hc]
  | true =>
    rw [enclose_of_composite hc]
    intro v entries h
    obtain ⟨⟨_, below⟩, hbelow, heq⟩ := Except.map_eq_ok.mp h
    obtain ⟨rfl, rfl⟩ := Prod.mk.inj heq
    simpa [Forest.points, Tree.points] using hx _ below hbelow

end Account

section Rules

variable {name : String} {op : Operator}

theorem leaves_operator (h : Operator.named? name = some op) (hop : op ≠ .map) (operand : Value)
    (others : List (String × Value)) (data : Value)
    (ih : ∀ r ∈ operand.operands, (Account.rule r data).Leaves (pointsOf (applications r data))) :
    (Account.rule (.object ((name, operand) :: others)) data).Leaves
      (pointsOf (applications (.object ((name, operand) :: others)) data)) := by
  have hname : name ≠ "map" := by
    rintro rfl
    exact hop (Option.some.inj h).symm
  rw [Account.rule_object h, Account.applied_rules hop, applications_object, if_neg hname,
    pointsOf_append, pointsOf_flatMap]
  refine Account.leaves_enclose op (Account.leaves_bind (Account.leaves_mapM ih) ?_)
  intro values hvalues
  have hout : outcome (.object ((name, operand) :: others)) data =
      .ok (op.valueOn data values) := by
    simp only [Account.value_mapM, ← outcome_eq_value] at hvalues
    rw [outcome_operator h hop, hvalues]
    rfl
  have hsettle := Account.leaves_settle op operand data values
  rw [pointsOf, List.filterMap_cons, Position.point?_object h hout]
  split at hsettle
  next hnone => rwa [if_pos hnone]
  next hsome => rwa [if_neg hsome]

theorem leaves_map (h : Operator.named? name = some .map) (operand : Value)
    (others : List (String × Value)) (data : Value)
    (ih : ∀ i d, (Account.rule (Operator.operand operand.operands i) d).Leaves
      (pointsOf (applications (Operator.operand operand.operands i) d))) :
    (Account.rule (.object ((name, operand) :: others)) data).Leaves
      (pointsOf (applications (.object ((name, operand) :: others)) data)) := by
  have hname : name = "map" := (Operator.name_of_named? h).symm
  have hself : pointsOf [⟨.object ((name, operand) :: others), data⟩] = [] := by
    simp [pointsOf, Position.point?, Value.firstField?, h, Operator.readsData]
  rw [Account.rule_object h, Account.enclose_of_not_composite rfl, Account.applied, if_pos rfl,
    Account.getD_map_rule, Account.getD_map_rule, applications_object, if_pos hname,
    applicationsOfMap_eq, pointsOf_append, hself, List.append_nil, pointsOf_append,
    pointsOf_flatMap]
  refine Account.leaves_bind (ih 0 data) fun source hsource => ?_
  have hitems : itemsOf (Operator.operand operand.operands 0) data = source.items := by
    rw [itemsOf, outcome_eq_value, hsource]
  rw [hitems]
  exact Account.leaves_overItems (ih 1) source

theorem leaves_rule (r data : Value) :
    (Account.rule r data).Leaves (pointsOf (applications r data)) := by
  induction r using Value.rule_induction generalizing data with
  | literal r h =>
    rw [Account.rule_literal h, applications_literal h]
    exact Account.leaves_pure r
  | object name operand others ih =>
    cases h : Operator.named? name with
    | none =>
      rw [Account.rule_unrecognized h]
      intro v entries hfail
      contradiction
    | some op =>
      by_cases hop : op = .map
      · subst hop
        have hnull (d : Value) :
            (Account.rule .null d).Leaves (pointsOf (applications .null d)) := by
          rw [Account.rule_literal rfl, applications_literal rfl]
          exact Account.leaves_pure Value.null
        exact leaves_map h operand others data fun i d =>
          Value.operand_of_forall (fun r hr => ih r hr d) (hnull d) i
      · exact leaves_operator h hop operand others data fun r hr => ih r hr data

end Rules

section Tested

variable {operand data x : Value}

/-- The operand that a data point is about: the middle one of three, else the first. -/
def testedOperand? : Value → Option Value
  | .array operands => operands[if operands.length = 3 then 1 else 0]?
  | _ => none

/-- What a reference finds in the data, null if that is nothing. Its value is what it finds, or its
default in the place of null. -/
def Resolves (x data found : Value) : Prop :=
  ∃ values, (x.operands.mapM fun r => outcome r data) = .ok values ∧
    found = (data.lookup? (Operator.operand values 0)).getD .null ∧
    outcome (.object [("var", x)]) data =
      .ok (if found.isNull then Operator.operand values 1 else found)

theorem testedVariable?_of_reference
    (h : testedOperand? operand = some (.object [("var", x)])) :
    Eval.testedVariable? operand = if x.readName.isNull then none else some x.readName := by
  cases operand with
  | array operands =>
    have hfound : operands[if operands.length = 3 then 1 else 0]? = some (.object [("var", x)]) := h
    simp only [Eval.testedVariable?, hfound]
    cases x with
    | array names => cases names <;> rfl
    | _ => rfl
  | _ => contradiction

theorem mem_operands_of_testedOperand? {r : Value} (h : testedOperand? operand = some r) :
    r ∈ operand.operands := by
  cases operand with
  | array operands => exact List.mem_of_getElem? h
  | _ => contradiction

theorem variableValue_eq (data name : Value) (default : Option Value) :
    data.variableValue name default =
      if ((data.lookup? name).getD .null).isNull then default.getD .null
      else (data.lookup? name).getD .null := by
  unfold Value.variableValue
  cases data.lookup? name <;> rfl

theorem operand_eq_readName {values : List Value} (hnull : x.readName.isNull = false)
    (hliteral : x.readName.firstField? = none)
    (h : (x.operands.mapM fun r => outcome r data) = .ok values) :
    Operator.operand values 0 = x.readName := by
  rw [Value.readName_eq_operand] at hnull hliteral ⊢
  cases hx : x.operands with
  | nil =>
    rw [hx] at hnull
    contradiction
  | cons name rest =>
    rw [hx] at hliteral h
    obtain ⟨v, _, hv, -, rfl⟩ := List.forall₂_cons_left_iff.mp (mapM_eq_ok_iff.mp h)
    exact Except.ok.inj (hv.symm.trans (outcome_literal hliteral data))

theorem resolves_of_ok {v : Value} (hnull : x.readName.isNull = false)
    (hliteral : x.readName.firstField? = none) (h : outcome (.object [("var", x)]) data = .ok v) :
    Resolves x data ((data.lookup? x.readName).getD .null) := by
  rw [outcome_var] at h
  obtain ⟨values, hvalues, -⟩ := Except.map_eq_ok.mp h
  have hname := operand_eq_readName hnull hliteral hvalues
  refine ⟨values, hvalues, by rw [hname], ?_⟩
  have hdefault : values[1]?.getD .null = Operator.operand values 1 :=
    (List.getD_eq_getElem?_getD ..).symm
  rw [outcome_var, hvalues, ← hname, ← hdefault, ← variableValue_eq]
  rfl

end Tested

/-- What a data point shows of the reference that it is about, if that stands in a list of operands and
writes the name of its variable. -/
structure DataPoint.ShowsTested (p : DataPoint) (data : Value) : Prop where
  named : ∀ x, testedOperand? p.expected = some (.object [("var", x)]) →
    x.readName.isNull = false → x.readName.firstField? = none → Resolves x data p.current
  nameless : ∀ x, testedOperand? p.expected = some (.object [("var", x)]) →
    x.readName.isNull = true → p.tested = none ∧ p.current = .null
  alone : (∀ operands, p.expected ≠ .array operands) → p.tested = none ∧ p.current = .null

theorem Position.exists_of_point? {q : Position} {p : DataPoint} (h : q.point? = some p) :
    ∃ name operand others op result, q.rule = .object ((name, operand) :: others) ∧
      Operator.named? name = some op ∧ op.readsData = false ∧
      outcome q.rule q.data = .ok result ∧ p = Eval.dataPoint op operand q.data result := by
  simp only [Position.point?, Option.bind_eq_bind, Option.bind_eq_some_iff] at h
  obtain ⟨⟨name, operand⟩, hfield, op, hop, result, hresult, hpoint⟩ := h
  obtain ⟨others, hrule⟩ := Value.eq_object_of_firstField? hfield
  split at hpoint
  · contradiction
  next hkind =>
    have hreads : op.readsData = false := by
      rw [Bool.or_eq_true, not_or] at hkind
      simpa using hkind.2
    refine ⟨name, operand, others, op, result, hrule, hop, hreads, ?_, (Option.some.inj hpoint).symm⟩
    cases hout : outcome q.rule q.data with
    | error e =>
      rw [hout] at hresult
      contradiction
    | ok v =>
      rw [hout] at hresult
      exact congrArg Except.ok (Option.some.inj hresult)

theorem showsTested_of_point? {q : Position} {p : DataPoint} (h : q.point? = some p) :
    p.ShowsTested q.data := by
  obtain ⟨name, operand, others, op, result, hrule, hop, hreads, hout, rfl⟩ :=
    Position.exists_of_point? h
  have htested {x : Value} (hx : testedOperand? operand = some (.object [("var", x)])) :=
    testedVariable?_of_reference hx
  constructor
  case named =>
    intro x hx hnull hliteral
    have hmap : op ≠ .map := by
      rintro rfl
      contradiction
    rw [hrule, outcome_operator hop hmap] at hout
    obtain ⟨values, hvalues, -⟩ := Except.map_eq_ok.mp hout
    obtain ⟨v, hv⟩ := exists_ok_of_mem hvalues (mem_operands_of_testedOperand? hx)
    have hcurrent : (Eval.dataPoint op operand q.data result).current =
        (q.data.lookup? x.readName).getD .null := by
      simp [Eval.dataPoint, htested hx, hnull]
    rw [hcurrent]
    exact resolves_of_ok hnull hliteral hv
  case nameless =>
    intro x hx hnull
    simp [Eval.dataPoint, htested hx, hnull]
  case alone =>
    intro hlone
    cases operand with
    | array operands => exact absurd rfl (hlone operands)
    | _ => exact ⟨rfl, rfl⟩

open Trace

/-- The data points of a trace are those of the operators that were applied, in the order in which they
were done, and each shows what the reference that its operator tests finds in the data of that
application, before a default takes its place. -/
theorem points_show_tested (rule data : Value) (e : Evaluation)
    (h : (evaluate rule data).1 = .ok e) :
    ((e.trace.isEmpty = true ∧ pointsOf (applications rule data) = []) ∨
      ∃ tree, Entry.Unfolds e.trace (.node 0) tree ∧
        tree.points = pointsOf (applications rule data)) ∧
      ∀ q ∈ applications rule data, ∀ p, q.point? = some p → p.ShowsTested q.data := by
  refine ⟨?_, fun q _ p hp => showsTested_of_point? hp⟩
  obtain ⟨entries, hx, hroot⟩ := exists_entries h
  have hpoints := leaves_rule rule data e.result entries hx
  cases hr : Account.root? rule entries with
  | none =>
    rw [hr] at hroot
    obtain ⟨hempty, rfl⟩ := hroot
    exact .inl ⟨by simp [isEmpty, hempty], hpoints.symm⟩
  | some root =>
    rw [hr] at hroot
    obtain ⟨op, result, below, rfl, hnodes⟩ := hroot
    exact .inr ⟨_, (unfolds_layout hnodes).1, (Account.points_root? hx hr).trans hpoints⟩

theorem points_show_tested_map :
    let point := Value.object [("log", .array [.object [("var", .array [.string "a", .int 7])]])]
    let rule := Value.object [("map", .array [.array [.object [("a", .int 1)], .null], point])]
    ∃ e, (evaluate rule .null).1 = .ok e ∧
      (pointsOf (applications rule .null)).map DataPoint.current = [.int 1, .null] ∧
      ((e.trace.isEmpty = true ∧ pointsOf (applications rule .null) = []) ∨
        ∃ tree, Entry.Unfolds e.trace (.node 0) tree ∧
          tree.points = pointsOf (applications rule .null)) ∧
      ∀ q ∈ applications rule .null, ∀ p, q.point? = some p → p.ShowsTested q.data := by
  intro point rule
  obtain ⟨e, h⟩ : ∃ e, (evaluate rule .null).1 = .ok e := ⟨_, rfl⟩
  exact ⟨e, h, rfl, points_show_tested rule .null e h⟩

/-- A reference without a name finds all the data, but the data point shows null; nor does it show what
a reference finds that stands alone, or whose name is computed (there the first data point is that of
the operator which computes the name). -/
theorem points_show_tested_not :
    let found (r data : Value) := (outcome r data).toOption.map Value.display
    let shown (r data : Value) := (evaluate r data).1.toOption.map fun e =>
      (e.trace.nodes.toList.flatMap Node.points).map fun p => p.current.display
    let nameless := Value.object [("var", .null)]
    let named := Value.object [("var", .string "a")]
    let computed := Value.object [("var", .object [("cat", .array [.string "a"])])]
    let data := Value.object [("a", .int 1)]
    (found nameless (.int 1) = some "1" ∧
      shown (.object [("log", .array [nameless])]) (.int 1) = some ["null"]) ∧
    (found named data = some "1" ∧ shown (.object [("log", named)]) data = some ["null"]) ∧
    (found computed data = some "1" ∧
      shown (.object [("log", .array [computed])]) data = some ["null", "null"]) := by
  decide +kernel

end JsonRules
