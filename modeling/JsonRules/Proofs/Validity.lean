import JsonRules.Proofs.Positions
import JsonRules.Validation

/-!
What the shape of a rule promises about its evaluation. A valid rule fails only where an array lets an
object pass as a reference although its first key is not the variable's.
-/
namespace JsonRules

namespace Value

theorem areValidItems_iff (items : List Value) :
    areValidItems items = true ↔
      ∀ item ∈ items, item.isValid = true ∨ item.isReference = true := by
  induction items with
  | nil => simp [areValidItems]
  | cons item rest ih => simp [areValidItems, ih]

theorem operand_isValid {v r : Value} (h : v.isValid = true) (hr : r ∈ v.operands) :
    r.isValid = true ∨ r.isReference = true := by
  cases v with
  | array items =>
    simp only [isValid] at h
    exact (areValidItems_iff items).mp h r hr
  | _ =>
    obtain rfl := List.mem_singleton.mp hr
    exact .inl h

theorem isValid_object {name : String} {operand : Value} {others : List (String × Value)}
    (h : isValid (.object ((name, operand) :: others)) = true) :
    (∃ op, Operator.named? name = some op) ∧ operand.isValid = true := by
  simp only [isValid, areValidFields, Bool.and_eq_true] at h
  obtain ⟨⟨hname, hoperand⟩, -⟩ := h
  exact ⟨Option.isSome_iff_exists.mp hname, hoperand⟩

/-- An object that an array lets pass as a reference to a variable, although it is no valid rule and
evaluation reads another key of it. -/
def isDisguised (v : Value) : Bool :=
  v.isReference && !v.isValid &&
    match v with
    | .object ((name, _) :: _) => name != "var"
    | _ => false

theorem isReference_var {operand : Value} {others : List (String × Value)}
    (h : isReference (.object (("var", operand) :: others)) = true) :
    operand.operands = [operand] ∧ operand.firstField? = none := by
  have hfield : field? "var" (.object (("var", operand) :: others)) = some operand := by
    simp [field?]
  unfold isReference at h
  rw [hfield] at h
  cases operand <;> simp_all [operands, firstField?]

theorem isDisguised_or_var {v : Value} (href : v.isReference = true) (hv : ¬ v.isValid = true) :
    v.isDisguised = true ∨ ∃ operand others, v = .object (("var", operand) :: others) := by
  unfold isReference at href
  cases v with
  | object fields =>
    cases fields with
    | nil => simp [field?] at href
    | cons field others =>
      obtain ⟨name, operand⟩ := field
      by_cases hname : name = "var"
      · subst hname
        exact .inr ⟨operand, others, rfl⟩
      · left
        unfold isDisguised isReference
        simp_all
  | _ => simp [field?] at href

end Value

theorem unrecognized?_positions_var {operand data : Value} {others : List (String × Value)}
    (h : Value.isReference (.object (("var", operand) :: others)) = true) :
    ∀ p ∈ positions (.object (("var", operand) :: others)) data, p.rule.unrecognized? = none := by
  obtain ⟨hoperands, hliteral⟩ := Value.isReference_var h
  have hvar : Operator.named? "var" = some .var := rfl
  intro p hp
  rcases mem_positions_object hp with rfl | ⟨r, hr, d, hpr, -⟩
  · exact Value.unrecognized?_object hvar operand others
  · rw [hoperands] at hr
    obtain rfl := List.mem_singleton.mp hr
    rw [positions_literal hliteral] at hpr
    obtain rfl := List.mem_singleton.mp hpr
    exact Value.unrecognized?_literal hliteral

theorem unrecognized?_positions_of_isValid {r data : Value} (hvalid : r.isValid = true)
    (hdisguised : ∀ p ∈ positions r data, p.rule.isDisguised = true →
      ∀ q ∈ positions p.rule p.data, q.rule.unrecognized? = none) :
    ∀ p ∈ positions r data, p.rule.unrecognized? = none := by
  induction r using Value.rule_induction generalizing data with
  | literal r hr =>
    intro p hp
    rw [positions_literal hr] at hp
    obtain rfl := List.mem_singleton.mp hp
    exact Value.unrecognized?_literal hr
  | object name operand others ih =>
    obtain ⟨⟨op, hop⟩, hoperand⟩ := Value.isValid_object hvalid
    intro p hp
    rcases mem_positions_object hp with rfl | ⟨r, hr, d, hpr, hsub⟩
    · exact Value.unrecognized?_object hop operand others
    · by_cases hrv : r.isValid = true
      · exact ih r hr hrv (fun q hq => hdisguised q (hsub hq)) p hpr
      · -- The array lets this operand pass, so it is left to where its variable stands.
        have href : r.isReference = true :=
          (Value.operand_isValid hoperand hr).resolve_left hrv
        rcases Value.isDisguised_or_var href hrv with hr' | ⟨reference, rest, rfl⟩
        · have hself := self_mem_positions r d
          exact hdisguised _ (hsub hself) hr' p hpr
        · exact unrecognized?_positions_var href p hpr

/-- A valid rule evaluates exactly if every disguised object that its evaluation meets does. -/
theorem isValid_evaluates_iff (rule data : Value) (h : rule.isValid = true) :
    (∃ e, (evaluate rule data).1 = .ok e) ↔
      ∀ p ∈ positions rule data, p.rule.isDisguised = true →
        ∃ e, (evaluate p.rule p.data).1 = .ok e := by
  simp only [evaluate_eq_ok_iff]
  constructor
  · intro hrule p hp _ q hq
    exact hrule q (positions_subset hp hq)
  · intro hdisguised
    exact unrecognized?_positions_of_isValid h hdisguised

theorem isValid_evaluates_iff_disguised :
    let rule := Value.object [("and", .array [.object [("+", .array []), ("nope", .null),
      ("var", .string "a")]])]
    rule.isValid = true ∧ ((∃ e, (evaluate rule .null).1 = .ok e) ↔
      ∀ p ∈ positions rule .null, p.rule.isDisguised = true →
        ∃ e, (evaluate p.rule p.data).1 = .ok e) :=
  ⟨by decide, isValid_evaluates_iff _ _ (by decide)⟩

theorem isValid_not_evaluates :
    let rule := Value.object [("and", .array [.object [("nope", .int 1), ("var", .string "a")]])]
    rule.isValid = true ∧ (evaluate rule .null).1 = .error (.unrecognized "nope") :=
  ⟨by decide, rfl⟩

end JsonRules
