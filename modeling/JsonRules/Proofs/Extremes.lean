import JsonRules.Proofs.Relations
import Mathlib.Data.List.Induction

/-!
Extremes. The operators `min` and `max` keep the operand that they have picked until a later one goes
beyond it, and leave out those without an order to it. Whatever the operands are, none goes beyond the
one picked in the end and no earlier one ties with it (`isFirstExtreme_foldl`); where all are ordered,
it is the earliest of the least, or of the greatest.
-/
namespace JsonRules

namespace Operator
open Value

variable {wanted : Ordering} {accepts : Ordering → Bool} {op : Operator} {args : List Value}
  {x y v : Value}

/-- An operand takes the place of the one picked so far if it goes beyond it. -/
def picked (wanted : Ordering) (best v : Value) : Value :=
  if v.order? best = some wanted then v else best

theorem extreme_cons (wanted : Ordering) (first : Value) (rest : List Value) :
    extreme wanted (first :: rest) = (rest.foldl (picked wanted) first).comparable := by
  simp only [extreme, List.map_cons, List.foldl_map]
  refine List.foldl_hom comparable fun best v => ?_
  simp only [picked, order?, beq_iff_eq]
  exact (apply_ite comparable _ v best).symm

/-- No operand goes beyond `x`, and those before it do not tie with it either. -/
def IsFirstExtreme (wanted : Ordering) (args : List Value) (x : Value) : Prop :=
  ∃ before after, args = before ++ x :: after ∧
    (∀ y ∈ before, y.order? x ≠ some wanted ∧ y.order? x ≠ some .eq) ∧
      ∀ y ∈ after, y.order? x ≠ some wanted

namespace IsFirstExtreme

theorem mem (h : IsFirstExtreme wanted args x) : x ∈ args := by
  obtain ⟨before, after, rfl, -, -⟩ := h
  exact List.mem_append_right before List.mem_cons_self

theorem not_beyond (hwanted : wanted ≠ .eq) (h : IsFirstExtreme wanted args x) (hy : y ∈ args) :
    y.order? x ≠ some wanted := by
  obtain ⟨before, after, rfl, hbefore, hafter⟩ := h
  rcases List.mem_append.mp hy with hy | hy
  · exact (hbefore y hy).1
  · rcases List.mem_cons.mp hy with rfl | hy
    · exact fun hself => hwanted (eq_of_order?_self hself)
    · exact hafter y hy

/-- One more operand: if it goes beyond the one picked, all the others are behind it. -/
theorem snoc (hwanted : wanted ≠ .eq) (h : IsFirstExtreme wanted args x) (v : Value) :
    IsFirstExtreme wanted (args ++ [v]) (picked wanted x v) := by
  unfold picked
  split
  next hv =>
    have hbehind {y : Value} (hy : y ∈ args) {o : Ordering} (ho : o = wanted ∨ o = .eq) :
        y.order? v ≠ some o := fun hyv =>
      h.not_beyond hwanted hy (order?_trans hwanted ho hyv hv)
    exact ⟨args, [], rfl, fun y hy => ⟨hbehind hy (.inl rfl), hbehind hy (.inr rfl)⟩, by simp⟩
  next hv =>
    obtain ⟨before, after, rfl, hbefore, hafter⟩ := h
    refine ⟨before, after ++ [v], by simp, hbefore, fun y hy => ?_⟩
    rcases List.mem_append.mp hy with hy | hy
    · exact hafter y hy
    · obtain rfl := List.mem_singleton.mp hy
      exact hv

theorem order?_of_ordered (hwanted : wanted ≠ .eq) (h : IsFirstExtreme wanted args x)
    (hordered : ∀ y ∈ args, ∀ z ∈ args, y.order? z ≠ none) (hy : y ∈ args) :
    x.order? y = some wanted ∨ x.order? y = some .eq := by
  have hbeyond := h.not_beyond hwanted hy
  rw [order?_swap x y] at hbeyond
  obtain ⟨o, ho⟩ := Option.ne_none_iff_exists'.mp (hordered x h.mem y hy)
  rw [ho, Option.map_some] at hbeyond
  rw [ho, Option.some.injEq, Option.some.injEq]
  have hnot : o.swap ≠ wanted := fun heq => hbeyond (congrArg some heq)
  clear ho hbeyond
  revert hwanted hnot
  cases wanted <;> cases o <;> decide

end IsFirstExtreme

theorem isFirstExtreme_foldl (hwanted : wanted ≠ .eq) (first : Value) (rest : List Value) :
    IsFirstExtreme wanted (first :: rest) (rest.foldl (picked wanted) first) := by
  induction rest using List.reverseRecOn with
  | nil => exact ⟨[], [], rfl, by simp, by simp⟩
  | append_singleton rest v ih =>
    rw [List.foldl_append, ← List.cons_append]
    exact ih.snoc hwanted v

theorem exists_firstExtreme (hwanted : wanted ≠ .eq) (hargs : args ≠ []) :
    ∃ x, IsFirstExtreme wanted args x ∧ extreme wanted args = x.comparable := by
  cases args with
  | nil => contradiction
  | cons first rest => exact ⟨_, isFirstExtreme_foldl hwanted first rest, extreme_cons ..⟩

/-- The operators that pick an extreme: the order in which an operand replaces the one picked, and the
orders in which the one picked may stand to the others. -/
inductive Picks : Operator → Ordering → (Ordering → Bool) → Prop
  | min : Picks .min .lt Ordering.isLE
  | max : Picks .max .gt Ordering.isGE

namespace Picks

theorem result?_eq (h : op.Picks wanted accepts) (args : List Value) :
    op.result? args = some (extreme wanted args) := by
  cases h <;> rfl

theorem wanted_ne_eq (h : op.Picks wanted accepts) : wanted ≠ .eq := by
  cases h <;> decide

theorem accepts_iff (h : op.Picks wanted accepts) (o : Ordering) :
    accepts o = true ↔ o = wanted ∨ o = .eq := by
  cases h <;> cases o <;> decide

theorem related_iff (h : op.Picks wanted accepts) :
    x.related y accepts = true ↔ x.order? y = some wanted ∨ x.order? y = some .eq := by
  rw [Value.related_iff]
  simp only [h.accepts_iff]
  constructor
  · rintro ⟨o, ho, rfl | rfl⟩
    · exact .inl ho
    · exact .inr ho
  · rintro (ho | ho)
    · exact ⟨wanted, ho, .inl rfl⟩
    · exact ⟨.eq, ho, .inr rfl⟩

theorem find?_of_ordered (h : op.Picks wanted accepts) (hx : IsFirstExtreme wanted args x)
    (hordered : ∀ y ∈ args, ∀ z ∈ args, y.order? z ≠ none) :
    (args.find? fun x => args.all fun y => x.related y accepts) = some x := by
  have hleads : ∀ y ∈ args, x.related y accepts = true := fun y hy =>
    h.related_iff.mpr (hx.order?_of_ordered h.wanted_ne_eq hordered hy)
  have hmem := hx.mem
  obtain ⟨before, after, heq, hbefore, -⟩ := hx
  refine List.find?_eq_some_iff_append.mpr
    ⟨List.all_eq_true.mpr hleads, before, after, heq, fun y hy => ?_⟩
  have hbehind : y.related x accepts = false := by
    have hnot := mt h.related_iff.mp (not_or.mpr (hbefore y hy))
    simpa using hnot
  simpa using ⟨x, hmem, hbehind⟩

end Picks

theorem order?_extremes_of_perm (hwanted : wanted ≠ .eq) {args' : List Value}
    (hperm : args'.Perm args) (hordered : ∀ y ∈ args, ∀ z ∈ args, y.order? z ≠ none)
    (hx : IsFirstExtreme wanted args x) (hy : IsFirstExtreme wanted args' y) :
    y.order? x = some .eq := by
  have hbeyond := hx.not_beyond hwanted (hperm.mem_iff.mp hy.mem)
  have hordered' : ∀ y ∈ args', ∀ z ∈ args', y.order? z ≠ none := fun y hy z hz =>
    hordered y (hperm.mem_iff.mp hy) z (hperm.mem_iff.mp hz)
  have hxy := hy.order?_of_ordered hwanted hordered' (hperm.mem_iff.mpr hx.mem)
  exact hxy.resolve_left hbeyond

/-- Of operands of any kind `min` and `max` return the comparable form of one that no other goes
beyond. If all of them are ordered, it is the earliest that is not behind any of them, and their
order makes no difference but for ties. -/
theorem min_max_extremal (op : Operator) (wanted : Ordering) (accepts : Ordering → Bool)
    (hop : op.Picks wanted accepts) (args : List Value) (hargs : args ≠ []) :
    ∃ v, op.result? args = some v ∧ (∃ x ∈ args, v = x.comparable) ∧
      (∀ y ∈ args, y.comparable.compare? v ≠ some wanted) ∧
      ((∀ y ∈ args, ∀ z ∈ args, y.comparable.compare? z.comparable ≠ none) →
        (args.find? fun x => args.all fun y => x.related y accepts).map comparable = some v ∧
        ∀ args' : List Value, args'.Perm args →
          ∃ v', op.result? args' = some v' ∧ v'.compare? v = some .eq) := by
  have hwanted := hop.wanted_ne_eq
  obtain ⟨x, hx, hextreme⟩ := exists_firstExtreme hwanted hargs
  refine ⟨x.comparable, ?_, ⟨x, hx.mem, rfl⟩, fun y hy => hx.not_beyond hwanted hy, ?_⟩
  · rw [hop.result?_eq, hextreme]
  intro hordered
  refine ⟨?_, fun args' hperm => ?_⟩
  · rw [hop.find?_of_ordered hx hordered]
    rfl
  · have hargs' : args' ≠ [] := fun hnil => hargs (List.nil_perm.mp (hnil ▸ hperm))
    obtain ⟨y, hy, hextreme'⟩ := exists_firstExtreme hwanted hargs'
    refine ⟨y.comparable, ?_, order?_extremes_of_perm hwanted hperm hordered hx hy⟩
    rw [hop.result?_eq, hextreme']

theorem min_max_extremal_mixed :
    let nested := [Value.array [.string "b"], .array [.string "a", .string "c"],
      .array [.string "a"]]
    let mixed := [Value.string "b", .float .nan, .object [], .string "c"]
    nested ≠ [] ∧ mixed ≠ [] ∧
      (∀ y ∈ nested, ∀ z ∈ nested, y.comparable.compare? z.comparable ≠ none) ∧
      Operator.min.result? nested = some (.array [.string "a"]) ∧
      (nested.find? fun x => nested.all fun y => x.related y Ordering.isLE).map comparable =
        some (.array [.string "a"]) ∧
      Operator.max.result? mixed = some (.string "c") ∧
      ∀ y ∈ mixed, y.comparable.compare? (.string "c") ≠ some .gt := by
  intro nested mixed
  have hordered : ∀ y ∈ nested, ∀ z ∈ nested, y.comparable.compare? z.comparable ≠ none := by
    decide +kernel
  have hmin : Operator.min.result? nested = some (.array [.string "a"]) := rfl
  have hmax : Operator.max.result? mixed = some (.string "c") := rfl
  obtain ⟨v, hv, -, -, hnested⟩ := min_max_extremal .min .lt _ .min nested (by simp [nested])
  obtain ⟨w, hw, -, hmixed, -⟩ := min_max_extremal .max .gt _ .max mixed (by simp [mixed])
  obtain rfl := Option.some.inj (hmin.symm.trans hv)
  obtain rfl := Option.some.inj (hmax.symm.trans hw)
  exact ⟨by simp [nested], by simp [mixed], hordered, hmin, (hnested hordered).1, hmax, hmixed⟩

end Operator
end JsonRules
