import JsonRules.Proofs.Connectives

/-!
Flattening. The operands of an operator may stand among those of another application of it, in place of the
inner application: for `cat` and `merge` any operands, for `and` and `or` those of an application that
has any (`Splices`). Whole rules can be flattened then, and errors and log lines come in the same order.
-/
namespace JsonRules

namespace Operator
open Value

variable {op : Operator} {stops : Value → Bool} {start : Value} {vs : List Value}

/-- The value of an inner application counts as much as its operands. -/
def Splices (op : Operator) (vs : List Value) : Prop :=
  ∀ data before after, op.valueOn data (before ++ [op.valueOn data vs] ++ after) =
    op.valueOn data (before ++ vs ++ after)

theorem splices_cat (vs : List Value) : cat.Splices vs := by
  intro data before after
  simp [valueOn, result?, concatenated, String.join_append, isNull, display]

theorem splices_merge (vs : List Value) : merge.Splices vs := by
  intro data before after
  simp [valueOn, result?, operands]

theorem Joins.splices (h : op.Joins stops start) (hvs : vs ≠ []) : op.Splices vs := by
  intro data before after
  simp [h.valueOn_eq, kept_foldl_kept h.stops_start hvs]

theorem splices_of_mem {ys : List Value}
    (hop : op ∈ [.cat, .merge] ∨ op ∈ [.and, .or] ∧ ys ≠ []) (hlength : vs.length = ys.length) :
    op.Splices vs := by
  simp only [List.mem_cons, List.not_mem_nil, or_false] at hop
  obtain (rfl | rfl) | ⟨hjoins, hys⟩ := hop
  · exact splices_cat vs
  · exact splices_merge vs
  · have hvs : vs ≠ [] := List.ne_nil_of_length_pos (hlength ▸ List.length_pos_iff.mpr hys)
    obtain rfl | rfl := hjoins
    · exact Joins.and.splices hvs
    · exact Joins.or.splices hvs

theorem summary_flattened (hmap : op ≠ .map) (hlog : op ≠ .log) {ys : List Value}
    (hsplices : ∀ vs : List Value, vs.length = ys.length → op.Splices vs) (xs zs : List Value)
    (data : Value) :
    summary (op.on (xs ++ [op.on ys] ++ zs)) data = summary (op.on (xs ++ ys ++ zs)) data := by
  simp only [summary_on hmap hlog, List.mapM_append, List.mapM_cons, List.mapM_nil, map_bind,
    bind_assoc, pure_bind, map_pure, bind_map_left]
  refine bind_congr fun before => mapM_bind_congr fun vs hlength => bind_congr fun after => ?_
  rw [hsplices vs hlength data before after]

end Operator

open Operator

/-- An application of the operator among its own operands may be written out. An empty conjunction or
disjunction may not, since it has a value of its own. -/
theorem apply_flattened (op : Operator) (ys : List Value)
    (hop : op ∈ [.cat, .merge] ∨ op ∈ [.and, .or] ∧ ys ≠ []) (xs zs : List Value) (data : Value) :
    apply (op.on (xs ++ [op.on ys] ++ zs)) data = apply (op.on (xs ++ ys ++ zs)) data := by
  have hmap : op ≠ .map := by
    rintro rfl
    simp at hop
  have hlog : op ≠ .log := by
    rintro rfl
    simp at hop
  exact apply_congr (summary_flattened hmap hlog (fun vs => splices_of_mem hop) xs zs data)

theorem apply_flattened_or :
    let line (text : String) := Value.object [("log", .string text)]
    let ys := [line "inner", .object [("nope", .null)]]
    let failed : Except EvalError Value × List String :=
      (.error (.unrecognized "nope"), ["outer", "inner"])
    ys ≠ [] ∧ apply (or.on ([line "outer"] ++ ys ++ [line "last"])) .null = failed ∧
      apply (or.on ([line "outer"] ++ [or.on ys] ++ [line "last"])) .null = failed := by
  intro line ys failed
  have hys : ys ≠ [] := List.cons_ne_nil _ _
  have hfailed : apply (or.on ([line "outer"] ++ ys ++ [line "last"])) .null = failed := rfl
  have hflat := apply_flattened .or ys (.inr ⟨by decide, hys⟩) [line "outer"] [line "last"] .null
  exact ⟨hys, hfailed, hflat.trans hfailed⟩

-- An empty conjunction is true, and not what stands before it.
example : apply (and.on ([.int 1] ++ [and.on []] ++ [])) .null = (.ok (.bool true), []) := rfl

end JsonRules
