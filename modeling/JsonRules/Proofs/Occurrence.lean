import JsonRules.Introspection
import JsonRules.Proofs.Account

/-!
What occurs in a rule: the values in it, its keys, and the names under its keys `var`. Operands have
nothing that the rule does not have (`parts_operand_subset`, `variableNames_operand_subset`), and a
variable that an operator tests is one of the names (`exists_name_of_testedVariable?`).
-/
namespace JsonRules.Value

mutual

/-- A value with all values in it, at any depth. -/
def parts : Value → List Value
  | .array items => .array items :: partsOfItems items
  | .object fields => .object fields :: partsOfFields fields
  | v => [v]

def partsOfItems : List Value → List Value
  | [] => []
  | item :: rest => item.parts ++ partsOfItems rest

def partsOfFields : List (String × Value) → List Value
  | [] => []
  | (_, value) :: rest => value.parts ++ partsOfFields rest

end

def isObject : Value → Bool
  | .object _ => true
  | _ => false

def fields : Value → List (String × Value)
  | .object fields => fields
  | _ => []

def keys (v : Value) : List String := v.parts.flatMap fun part => part.fields.map Prod.fst

/-- No value under a key `var` contains an object, so that each states the name that is read. -/
def HasPlainReferences (v : Value) : Prop :=
  ∀ part ∈ v.parts, ∀ field ∈ part.fields, field.1 = "var" →
    ∀ inner ∈ field.2.parts, inner.isObject = false

instance (v : Value) : Decidable v.HasPlainReferences :=
  inferInstanceAs (Decidable (∀ part ∈ v.parts, ∀ field ∈ part.fields, field.1 = "var" →
    ∀ inner ∈ field.2.parts, inner.isObject = false))

theorem self_mem_parts (v : Value) : v ∈ v.parts := by
  cases v <;> exact List.mem_cons_self

theorem partsOfItems_eq (items : List Value) : partsOfItems items = items.flatMap parts := by
  induction items with
  | nil => rfl
  | cons item rest ih => simp only [partsOfItems, ih, List.flatMap_cons]

theorem partsOfFields_eq (fields : List (String × Value)) :
    partsOfFields fields = fields.flatMap fun field => field.2.parts := by
  induction fields with
  | nil => rfl
  | cons field rest ih => simp only [partsOfFields, ih, List.flatMap_cons]

theorem forall_parts_array_iff {P : Value → Prop} {items : List Value} :
    (∀ part ∈ parts (.array items), P part) ↔
      P (.array items) ∧ ∀ item ∈ items, ∀ part ∈ item.parts, P part := by
  rw [parts, partsOfItems_eq, List.forall_mem_cons, List.forall_mem_flatMap]

theorem forall_parts_object_iff {P : Value → Prop} {fields : List (String × Value)} :
    (∀ part ∈ parts (.object fields), P part) ↔
      P (.object fields) ∧ ∀ field ∈ fields, ∀ part ∈ field.2.parts, P part := by
  rw [parts, partsOfFields_eq, List.forall_mem_cons, List.forall_mem_flatMap]

theorem parts_item_subset {items : List Value} {item : Value} (h : item ∈ items) :
    item.parts ⊆ parts (.array items) := by
  intro part hpart
  rw [parts, partsOfItems_eq]
  exact List.mem_cons_of_mem _ (List.mem_flatMap.mpr ⟨item, h, hpart⟩)

theorem parts_field_subset {fields : List (String × Value)} {field : String × Value}
    (h : field ∈ fields) : field.2.parts ⊆ parts (.object fields) := by
  intro part hpart
  rw [parts, partsOfFields_eq]
  exact List.mem_cons_of_mem _ (List.mem_flatMap.mpr ⟨field, h, hpart⟩)

theorem parts_subset_of_mem_operands {v r : Value} (h : r ∈ v.operands) : r.parts ⊆ v.parts := by
  cases v with
  | array items => exact parts_item_subset h
  | _ =>
    obtain rfl := List.mem_singleton.mp h
    exact List.Subset.refl _

theorem parts_operand_subset {name : String} {operand r : Value}
    {others : List (String × Value)} (h : r ∈ operand.operands) :
    r.parts ⊆ parts (.object ((name, operand) :: others)) := by
  intro part hpart
  have hfield : (name, operand) ∈ (name, operand) :: others := List.mem_cons_self
  exact parts_field_subset hfield (parts_subset_of_mem_operands h hpart)

theorem keys_subset {v w : Value} (h : v.parts ⊆ w.parts) : v.keys ⊆ w.keys := by
  intro key hkey
  obtain ⟨part, hpart, hin⟩ := List.mem_flatMap.mp hkey
  exact List.mem_flatMap.mpr ⟨part, h hpart, hin⟩

theorem name_mem_keys (name : String) (operand : Value) (others : List (String × Value)) :
    name ∈ keys (.object ((name, operand) :: others)) :=
  List.mem_flatMap.mpr ⟨_, self_mem_parts _, by simp [fields]⟩

theorem HasPlainReferences.mono {v w : Value} (hw : w.HasPlainReferences)
    (h : v.parts ⊆ w.parts) : v.HasPlainReferences :=
  fun part hpart => hw part (h hpart)

theorem HasPlainReferences.firstField?_eq_none {operand r : Value}
    {others : List (String × Value)}
    (h : HasPlainReferences (.object (("var", operand) :: others))) (hr : r ∈ operand.operands) :
    r.firstField? = none := by
  have hinner : r ∈ operand.parts := parts_subset_of_mem_operands hr r.self_mem_parts
  have hobject : r.isObject = false :=
    h _ (self_mem_parts _) ("var", operand) List.mem_cons_self rfl r hinner
  cases r with
  | object fields => contradiction
  | _ => rfl

theorem namesInItems_eq (items : List Value) : namesInItems items = items.flatMap variableNames := by
  induction items with
  | nil => rfl
  | cons item rest ih => simp only [namesInItems, ih, List.flatMap_cons]

theorem namesInFields_eq (fields : List (String × Value)) :
    namesInFields fields = fields.flatMap fun field =>
      if field.1 = "var" then [field.2] else field.2.variableNames := by
  induction fields with
  | nil => rfl
  | cons field rest ih => simp only [namesInFields, ih, List.flatMap_cons]

theorem variableNames_subset_of_mem_operands {v r : Value} (h : r ∈ v.operands) :
    r.variableNames ⊆ v.variableNames := by
  cases v with
  | array items =>
    intro name hname
    rw [variableNames, namesInItems_eq]
    exact List.mem_flatMap.mpr ⟨r, h, hname⟩
  | _ =>
    obtain rfl := List.mem_singleton.mp h
    exact List.Subset.refl _

theorem mem_variableNames_of_field? {v name : Value} (h : v.field? "var" = some name) :
    name ∈ v.variableNames := by
  cases v with
  | object fields =>
    obtain ⟨before, after, rfl, -⟩ := List.lookup_eq_some_iff.mp h
    rw [variableNames, namesInFields_eq]
    exact List.mem_flatMap.mpr ⟨("var", name), by simp, by simp⟩
  | _ => contradiction

theorem variableNames_operand_subset {name : String} (hname : name ≠ "var") (operand : Value)
    (others : List (String × Value)) :
    operand.variableNames ⊆ variableNames (.object ((name, operand) :: others)) := by
  rw [variableNames, namesInFields, if_neg hname]
  exact List.subset_append_left _ _

/-- The name that is read where this stands under a key `var`: of an array the first element, which
is null if there is none. -/
def readName : Value → Value
  | .array names => names.headD .null
  | name => name

theorem readName_eq_operand (name : Value) : name.readName = Operator.operand name.operands 0 := by
  cases name with
  | array names => cases names <;> rfl
  | _ => rfl

theorem exists_name_of_testedVariable? {operand name : Value}
    (h : Eval.testedVariable? operand = some name) :
    ∃ listed ∈ operand.variableNames, listed.readName = name := by
  cases operand with
  | array operands =>
    simp only [Eval.testedVariable?, Option.bind_eq_bind, Option.bind_eq_some_iff] at h
    obtain ⟨reference, hreference, listed, hlisted, hname⟩ := h
    have hmem := mem_variableNames_of_field? hlisted
    have hreference' : reference ∈ (Value.array operands).operands :=
      List.mem_of_getElem? hreference
    refine ⟨listed, variableNames_subset_of_mem_operands hreference' hmem, ?_⟩
    have hfound {x : Value} (hx : (if x.isNull then none else some x) = some name) :
        x = name := by
      split at hx
      · contradiction
      · exact Option.some.inj hx
    cases listed with
    | array names =>
      obtain ⟨first, hfirst, hx⟩ := Option.bind_eq_some_iff.mp hname
      cases names with
      | nil => contradiction
      | cons head rest =>
        obtain rfl := Option.some.inj hfirst
        exact hfound hx
    | _ => exact hfound hname
  | _ => contradiction

end JsonRules.Value
