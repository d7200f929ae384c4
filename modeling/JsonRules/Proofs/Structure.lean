import JsonRules.Value

/-!
Values by their structure. A value is a leaf, an array or an object, and what passes from the items
and from the fields to the whole holds of every value (`structural_induction`). Among the leaves the
integers and the binary numbers are of one kind (`number?`). A change of the leaves leaves the rest as it
is (`mapLeaves_array`, `mapLeaves_object`), and two of them in a row are one (`mapLeaves_mapLeaves`).
-/
namespace JsonRules.Value

def isLeaf : Value → Bool
  | .array _ => false
  | .object _ => false
  | _ => true

def number? : Value → Option Binary64
  | .int n => some (ofInt64 n)
  | .float x => some x
  | _ => none

theorem sizeOf_item_lt {items : List Value} {item : Value} (h : item ∈ items) :
    sizeOf item < sizeOf (Value.array items) := by
  have := List.sizeOf_lt_of_mem h
  simp only [array.sizeOf_spec]
  omega

theorem sizeOf_field_lt {fields : List (String × Value)} {field : String × Value}
    (h : field ∈ fields) : sizeOf field.2 < sizeOf (Value.object fields) := by
  obtain ⟨key, value⟩ := field
  have := List.sizeOf_lt_of_mem h
  simp only [object.sizeOf_spec, Prod.mk.sizeOf_spec] at this ⊢
  omega

theorem structural_induction {P : Value → Prop} (leaf : ∀ v : Value, v.isLeaf = true → P v)
    (array : ∀ items, (∀ item ∈ items, P item) → P (.array items))
    (object : ∀ fields : List (String × Value), (∀ field ∈ fields, P field.2) → P (.object fields)) :
    ∀ v : Value, P v
  | .array items => array items fun item _ => structural_induction leaf array object item
  | .object fields => object fields fun field _ => structural_induction leaf array object field.2
  | .null => leaf _ rfl
  | .bool _ => leaf _ rfl
  | .int _ => leaf _ rfl
  | .float _ => leaf _ rfl
  | .string _ => leaf _ rfl
  | .date _ => leaf _ rfl
termination_by v => sizeOf v
decreasing_by
  · exact sizeOf_item_lt ‹_›
  · exact sizeOf_field_lt ‹_›

section Leaves

variable (f : Value → Value)

theorem mapLeaves_of_isLeaf {v : Value} (h : v.isLeaf = true) : v.mapLeaves f = f v := by
  cases v with
  | array => contradiction
  | object => contradiction
  | _ => rfl

theorem mapItems_eq (items : List Value) : mapItems f items = items.map (mapLeaves f) := by
  induction items with
  | nil => rfl
  | cons item rest ih => rw [mapItems, ih, List.map_cons]

theorem mapFields_eq (fields : List (String × Value)) :
    mapFields f fields = fields.map fun field => (field.1, field.2.mapLeaves f) := by
  induction fields with
  | nil => rfl
  | cons field rest ih => rw [mapFields, ih, List.map_cons]

theorem mapLeaves_array (items : List Value) :
    (Value.array items).mapLeaves f = .array (items.map (mapLeaves f)) :=
  congrArg Value.array (mapItems_eq f items)

theorem mapLeaves_object (fields : List (String × Value)) :
    (Value.object fields).mapLeaves f =
      .object (fields.map fun field => (field.1, field.2.mapLeaves f)) :=
  congrArg Value.object (mapFields_eq f fields)

theorem mapLeaves_id (v : Value) : v.mapLeaves id = v := by
  induction v using structural_induction with
  | leaf v hleaf => rw [mapLeaves_of_isLeaf id hleaf, id]
  | array items ih => rw [mapLeaves_array, List.map_congr_left ih, List.map_id']
  | object fields ih =>
    have hfields : ∀ field ∈ fields, (field.1, field.2.mapLeaves id) = field :=
      fun field hfield => by rw [ih field hfield]
    rw [mapLeaves_object, List.map_congr_left hfields, List.map_id']

theorem mapLeaves_mapLeaves {g : Value → Value}
    (hg : ∀ v : Value, v.isLeaf = true → (g v).isLeaf = true) (v : Value) :
    (v.mapLeaves g).mapLeaves f = v.mapLeaves (f ∘ g) := by
  induction v using structural_induction with
  | leaf v hleaf =>
    rw [mapLeaves_of_isLeaf g hleaf, mapLeaves_of_isLeaf f (hg v hleaf),
      mapLeaves_of_isLeaf (f ∘ g) hleaf, Function.comp_apply]
  | array items ih =>
    rw [mapLeaves_array, mapLeaves_array, mapLeaves_array, List.map_map]
    exact congrArg Value.array (List.map_congr_left ih)
  | object fields ih =>
    have hfields : ∀ field ∈ fields, (field.1, (field.2.mapLeaves g).mapLeaves f) =
        (field.1, field.2.mapLeaves (f ∘ g)) := fun field hfield => by rw [ih field hfield]
    rw [mapLeaves_object, mapLeaves_object, mapLeaves_object, List.map_map]
    exact congrArg Value.object (List.map_congr_left hfields)

end Leaves

end JsonRules.Value
