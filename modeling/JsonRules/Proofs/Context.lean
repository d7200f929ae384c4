import JsonRules.Proofs.Outcome

/-!
Rules in context. Of an operand only its outcome counts, so operands of equal outcome may stand for
each other; an operand may be replaced by its value unless that would be a rule itself.
-/
namespace JsonRules

/-- A rule with a hole among the operands of a recognised operator. The hole is an element of an array
of operands; an operand that holds it may be the only one and stand without an array. -/
inductive Context where
  | element (op : Operator) (before after : List Value) (others : List (String × Value))
  | under (op : Operator) (before : List Value) (inner : Context) (after : List Value)
      (others : List (String × Value))
  | alone (op : Operator) (inner : Context) (others : List (String × Value))

namespace Context

def fill : Context → Value → Value
  | .element op before after others, r =>
    .object ((op.name, .array (before ++ r :: after)) :: others)
  | .under op before inner after others, r =>
    .object ((op.name, .array (before ++ inner.fill r :: after)) :: others)
  | .alone op inner others, r => .object ((op.name, inner.fill r) :: others)

def isBody (op : Operator) (before : List Value) : Bool := op = .map && before.length = 1

def inBody : Context → Bool
  | .element op before _ _ => isBody op before
  | .under op before inner _ _ => isBody op before || inner.inBody
  | .alone _ inner _ => inner.inBody

theorem operands_fill (C : Context) (r : Value) :
    (C.fill r).operands = [] ++ C.fill r :: [] := by
  cases C <;> rfl

end Context

section Operand

variable {op : Operator} {operand operand' r r' : Value} {before after : List Value}

theorem outcome_congr_operand (others : List (String × Value)) (data : Value)
    (hbody : Context.isBody op before = false) (hoperand : operand.operands = before ++ r :: after)
    (hoperand' : operand'.operands = before ++ r' :: after) (h : outcome r data = outcome r' data) :
    outcome (.object ((op.name, operand) :: others)) data =
      outcome (.object ((op.name, operand') :: others)) data := by
  have hname := Operator.named?_name op
  by_cases hop : op = .map
  · subst hop
    rw [outcome_map hname, outcome_map hname, hoperand, hoperand']
    cases before with
    | nil =>
      have hsource (x : Value) : Operator.operand ([] ++ x :: after) 0 = x := rfl
      have hrest : Operator.operand ([] ++ r :: after) 1 =
          Operator.operand ([] ++ r' :: after) 1 := rfl
      rw [hsource, hsource, hrest, h]
    | cons source rest =>
      cases rest with
      | nil => simp [Context.isBody] at hbody
      | cons body rest => rfl
  · rw [outcome_operator hname hop, outcome_operator hname hop, hoperand, hoperand']
    simp only [List.mapM_append, List.mapM_cons, h]

theorem outcome_congr_operand_forall (others : List (String × Value)) (data : Value)
    (hoperand : operand.operands = before ++ r :: after)
    (hoperand' : operand'.operands = before ++ r' :: after)
    (h : ∀ d, outcome r d = outcome r' d) :
    outcome (.object ((op.name, operand) :: others)) data =
      outcome (.object ((op.name, operand') :: others)) data := by
  cases hbody : Context.isBody op before with
  | false => exact outcome_congr_operand others data hbody hoperand hoperand' (h data)
  | true =>
    simp only [Context.isBody, Bool.and_eq_true, decide_eq_true_eq] at hbody
    obtain ⟨rfl, hlength⟩ := hbody
    obtain ⟨source, rfl⟩ := List.length_eq_one_iff.mp hlength
    have hname := Operator.named?_name .map
    have hsource (x : Value) : Operator.operand ([source] ++ x :: after) 0 = source := rfl
    have hitem (x : Value) : Operator.operand ([source] ++ x :: after) 1 = x := rfl
    have hr : outcome r = outcome r' := funext h
    rw [outcome_map hname, outcome_map hname, hoperand, hoperand', hsource, hsource, hitem,
      hitem, hr]

end Operand

theorem Context.outcome_fill_forall (C : Context) {r r' : Value}
    (h : ∀ d, outcome r d = outcome r' d) (data : Value) :
    outcome (C.fill r) data = outcome (C.fill r') data := by
  induction C generalizing data with
  | element op before after others => exact outcome_congr_operand_forall others data rfl rfl h
  | under op before inner after others ih =>
    exact outcome_congr_operand_forall others data rfl rfl ih
  | alone op inner others ih =>
    exact outcome_congr_operand_forall others data (inner.operands_fill r)
      (inner.operands_fill r') ih

theorem Context.outcome_fill (C : Context) {r r' data : Value} (hbody : C.inBody = false)
    (h : outcome r data = outcome r' data) :
    outcome (C.fill r) data = outcome (C.fill r') data := by
  induction C with
  | element op before after others => exact outcome_congr_operand others data hbody rfl rfl h
  | under op before inner after others ih =>
    obtain ⟨hhere, hinner⟩ := Bool.or_eq_false_iff.mp hbody
    exact outcome_congr_operand others data hhere rfl rfl (ih hinner)
  | alone op inner others ih =>
    have hhere : Context.isBody op [] = false := Bool.and_false _
    exact outcome_congr_operand others data hhere (inner.operands_fill r)
      (inner.operands_fill r') (ih hbody)

/-- A rule in a context may be exchanged for one of equal outcome on all data. Outside of the bodies of
`map` it is enough that the outcomes are equal on the data of the evaluation, and so the value of the
rule may stand in its place, if that value is a literal. -/
theorem outcome_referentially_transparent (C : Context) (r : Value) :
    (∀ r', (∀ d, outcome r d = outcome r' d) →
      ∀ data, outcome (C.fill r) data = outcome (C.fill r') data) ∧
    (C.inBody = false → ∀ data,
      (∀ r', outcome r data = outcome r' data →
        outcome (C.fill r) data = outcome (C.fill r') data) ∧
      (∀ v, outcome r data = .ok v → v.firstField? = none →
        outcome (C.fill r) data = outcome (C.fill v) data)) := by
  refine ⟨fun r' h data => C.outcome_fill_forall h data, fun hbody data => ⟨fun r' h => ?_, ?_⟩⟩
  · exact C.outcome_fill hbody h
  · intro v hv hliteral
    have hfold : outcome r data = outcome v data := by rw [hv, outcome_literal hliteral]
    exact C.outcome_fill hbody hfold

theorem outcome_referentially_transparent_not :
    let r := Value.object [("!", .null)]
    let body := Context.under .and [] (.element .map [.array [.null, .bool true]] [] []) [] []
    let source := Context.under .or [.null] (.element .map [] [.null] []) [] []
    (∀ data, outcome (body.fill r) data = outcome (body.fill (.bool true)) data) ∧
      outcome r .null = .ok (.bool true) ∧
      outcome (source.fill r) .null = outcome (source.fill (.bool true)) .null :=
  ⟨(outcome_referentially_transparent _ _).1 _ fun _ => rfl, rfl,
    ((outcome_referentially_transparent _ _).2 rfl _).2 _ rfl rfl⟩

end JsonRules
