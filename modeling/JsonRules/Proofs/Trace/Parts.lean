import JsonRules.Proofs.Trace.Unfolding

/-!
Parts of an explanation. A part is written in the report of the whole (`Reason.Within.report_infix`) and in
its JSON form (`Reason.Within.within_toJson`), and every node that a tree is laid out in is a part of the
explanation of the tree (`Tree.exists_within_reason`).
-/
namespace JsonRules

/-- The document is this one or stands somewhere in it. -/
inductive Json.Within (j : Json) : Json → Prop
  | self : Json.Within j j
  | item {k : Json} {items : List Json} (hk : k ∈ items) (h : Json.Within j k) :
    Json.Within j (.array items)
  | field {key : String} {k : Json} {fields : List (String × Json)} (hk : (key, k) ∈ fields)
    (h : Json.Within j k) : Json.Within j (.object fields)

namespace Reason

/-- The reason is this one or stands somewhere below it. -/
inductive Within (s : Reason) : Reason → Prop
  | self : Within s s
  | entry {r : Reason} {op : Operator} {result : Value} {depth : Nat} {reasons : List Reason}
    (hr : r ∈ reasons) (h : Within s r) : Within s (.node op result depth reasons)

variable {r s : Reason}

theorem report_infix_reportEntries {reasons : List Reason} (depth : Nat) (h : r ∈ reasons) :
    r.report.toList <:+: (reportEntries depth reasons).toList := by
  induction reasons with
  | nil => contradiction
  | cons entry rest ih =>
    simp only [reportEntries, String.toList_append]
    cases h with
    | head => exact List.infix_append _ _ _
    | tail _ h => exact (ih h).trans (List.suffix_append _ _).isInfix

theorem Within.report_infix (h : s.Within r) : s.report.toList <:+: r.report.toList := by
  induction h with
  | self => exact List.infix_refl _
  | entry hr _ ih =>
    rw [report, String.toList_append]
    exact (ih.trans (report_infix_reportEntries _ hr)).trans (List.suffix_append _ _).isInfix

theorem entriesToJson_eq (reasons : List Reason) : entriesToJson reasons = reasons.map toJson := by
  induction reasons with
  | nil => rfl
  | cons entry rest ih => rw [entriesToJson, ih, List.map_cons]

theorem Within.within_toJson (h : s.Within r) : s.toJson.Within r.toJson := by
  induction h with
  | self => exact .self
  | entry hr _ ih =>
    rw [toJson, entriesToJson_eq]
    have hreasons := Json.Within.item (List.mem_map_of_mem hr) ih
    exact .field (List.mem_of_getElem? (i := 3) rfl) hreasons

end Reason

mutual

theorem Tree.exists_within_reason {n : Trace.Node} {parent : Option Nat} {depth handle : Nat}
    (tree : Tree) (h : n ∈ tree.nodes parent depth handle) :
    ∃ reasons, (Reason.node n.operator n.result n.depth reasons).Within (tree.reason depth) := by
  cases tree with
  | point p => contradiction
  | node op result entries =>
    cases h with
    | head => exact ⟨_, .self⟩
    | tail _ h =>
      obtain ⟨r, hr, reasons, hwithin⟩ := Forest.exists_within_reasons entries h
      exact ⟨reasons, .entry hr hwithin⟩

theorem Forest.exists_within_reasons {n : Trace.Node} {parent : Option Nat} {depth handle : Nat}
    (forest : Forest) (h : n ∈ forest.nodes parent depth handle) :
    ∃ r ∈ forest.reasons depth,
      ∃ reasons, (Reason.node n.operator n.result n.depth reasons).Within r := by
  cases forest with
  | nil => contradiction
  | cons tree rest =>
    rcases List.mem_append.mp h with h | h
    · exact ⟨_, List.mem_cons_self, Tree.exists_within_reason tree h⟩
    · obtain ⟨r, hr, hwithin⟩ := Forest.exists_within_reasons rest h
      exact ⟨r, List.mem_cons_of_mem _ hr, hwithin⟩

end

namespace Trace

variable {t : Trace} {n : Node} {r : Reason} {reasons : List Reason}

/-- The report and the JSON form of the trace have a place for the node. -/
structure Mentions (t : Trace) (n : Node) : Prop where
  report : ("LOGIC: '" ++ n.operator.name ++ "', RESULT = " ++ n.result.display).toList <:+:
    t.report.toList
  toJson : ∃ reasons, (Json.object [("operator", .string n.operator.name),
    ("result", n.result.toJson), ("depth", .integer (Int64.ofNat n.depth)),
    ("reasons", .array reasons)]).Within t.toJson

theorem report_of_explanation? (h : t.explanation? = some r) : t.report = r.report := by
  rw [report, h, Option.map_some, Option.getD_some]

theorem toJson_of_explanation? (h : t.explanation? = some r) : t.toJson = r.toJson := by
  rw [toJson, h, Option.map_some, Option.getD_some]

theorem mentions_of_within (ht : t.explanation? = some r)
    (h : (Reason.node n.operator n.result n.depth reasons).Within r) : t.Mentions n where
  report := by
    have hreport := h.report_infix
    rw [Reason.report, String.toList_append] at hreport
    rw [report_of_explanation? ht]
    exact (List.prefix_append _ _).isInfix.trans hreport
  toJson := by
    rw [toJson_of_explanation? ht]
    exact ⟨_, h.within_toJson⟩

end Trace
end JsonRules
