import JsonRules.Proofs.Keys
import JsonRules.Value.Display
import JsonRules.Value.Json

/-!
Values as documents. A value has the text of its document (`compact_toJson`). The document leads back
to the value except that texts stand for dates and null for NaN and the infinities (`normalized`), and
a document that is read and written is the same document. What a text writes has distinct keys.
-/
namespace JsonRules.Value

def jsonLeaf : Value → Value
  | .date d => .string (Value.date d).display
  | .float (.finite x) => .float (.finite x)
  | .float _ => .null
  | v => v

/-- The value with texts for its dates and null for NaN and the infinities. -/
def normalized (v : Value) : Value := v.mapLeaves jsonLeaf

def isExpressible : Value → Bool
  | .date _ => false
  | .float (.finite _) => true
  | .float _ => false
  | _ => true

section Writing

mutual

theorem compact_toJson : ∀ v : Value, v.toJson.compact = v.compact
  | .null => rfl
  | .bool _ => rfl
  | .int _ => rfl
  | .float (.finite _) => rfl
  | .float .nan => rfl
  | .float (.infinity _) => rfl
  | .string _ => rfl
  | .date _ => rfl
  | .array items => congrArg Json.bracketed (compactItems_itemsToJson items)
  | .object fields => congrArg Json.braced (compactFields_fieldsToJson fields)

theorem compactItems_itemsToJson :
    ∀ items : List Value, Json.compactItems (itemsToJson items) = compactItems items
  | [] => rfl
  | item :: rest => by
    rw [itemsToJson, Json.compactItems, compactItems, compact_toJson item,
      compactItems_itemsToJson rest]

theorem compactFields_fieldsToJson :
    ∀ fields : List (String × Value), Json.compactFields (fieldsToJson fields) = compactFields fields
  | [] => rfl
  | (key, value) :: rest => by
    rw [fieldsToJson, Json.compactFields, compactFields, compact_toJson value,
      compactFields_fieldsToJson rest]

end

end Writing

section RoundTrip

mutual

theorem ofJson_toJson : ∀ v : Value, ofJson v.toJson = v.normalized
  | .null => rfl
  | .bool _ => rfl
  | .int _ => rfl
  | .float (.finite _) => rfl
  | .float .nan => rfl
  | .float (.infinity _) => rfl
  | .string _ => rfl
  | .date _ => rfl
  | .array items => congrArg Value.array (itemsOfJson_itemsToJson items)
  | .object fields => congrArg Value.object (fieldsOfJson_fieldsToJson fields)

theorem itemsOfJson_itemsToJson :
    ∀ items : List Value, itemsOfJson (itemsToJson items) = mapItems jsonLeaf items
  | [] => rfl
  | item :: rest => congrArg₂ List.cons (ofJson_toJson item) (itemsOfJson_itemsToJson rest)

theorem fieldsOfJson_fieldsToJson :
    ∀ fields : List (String × Value), fieldsOfJson (fieldsToJson fields) = mapFields jsonLeaf fields
  | [] => rfl
  | (key, value) :: rest =>
    congrArg₂ List.cons (congrArg (Prod.mk key) (ofJson_toJson value))
      (fieldsOfJson_fieldsToJson rest)

end

mutual

theorem toJson_ofJson : ∀ j : Json, (ofJson j).toJson = j
  | .null => rfl
  | .bool _ => rfl
  | .integer _ => rfl
  | .number _ => rfl
  | .string _ => rfl
  | .array items => congrArg Json.array (itemsToJson_itemsOfJson items)
  | .object fields => congrArg Json.object (fieldsToJson_fieldsOfJson fields)

theorem itemsToJson_itemsOfJson : ∀ items : List Json, itemsToJson (itemsOfJson items) = items
  | [] => rfl
  | item :: rest => congrArg₂ List.cons (toJson_ofJson item) (itemsToJson_itemsOfJson rest)

theorem fieldsToJson_fieldsOfJson :
    ∀ fields : List (String × Json), fieldsToJson (fieldsOfJson fields) = fields
  | [] => rfl
  | (key, value) :: rest =>
    congrArg₂ List.cons (congrArg (Prod.mk key) (toJson_ofJson value))
      (fieldsToJson_fieldsOfJson rest)

end

theorem jsonLeaf_eq_self_iff {v : Value} : jsonLeaf v = v ↔ v.isExpressible = true := by
  cases v with
  | float x => cases x <;> simp [jsonLeaf, isExpressible]
  | _ => simp [jsonLeaf, isExpressible]

theorem mapLeaves_eq_iff (f g : Value → Value) (v : Value) :
    v.mapLeaves f = v.mapLeaves g ↔ ∀ part ∈ v.parts, part.isLeaf = true → f part = g part := by
  induction v using structural_induction with
  | leaf v hleaf =>
    rw [mapLeaves_of_isLeaf f hleaf, mapLeaves_of_isLeaf g hleaf, parts_of_isLeaf hleaf,
      List.forall_mem_singleton, imp_iff_right hleaf]
  | array items ih =>
    have hself : ¬ (Value.array items).isLeaf = true := Bool.false_ne_true
    rw [forall_parts_array_iff, and_iff_right fun h => absurd h hself, mapLeaves_array,
      mapLeaves_array, array.injEq, List.map_inj_left]
    exact forall₂_congr ih
  | object fields ih =>
    have hself : ¬ (Value.object fields).isLeaf = true := Bool.false_ne_true
    rw [forall_parts_object_iff, and_iff_right fun h => absurd h hself, mapLeaves_object,
      mapLeaves_object, object.injEq, List.map_inj_left]
    refine forall₂_congr fun field hfield => ?_
    rw [← ih field hfield, Prod.mk.injEq, and_iff_right rfl]

theorem mapLeaves_eq_self_iff (f : Value → Value) (v : Value) :
    v.mapLeaves f = v ↔ ∀ part ∈ v.parts, part.isLeaf = true → f part = part := by
  have hid := mapLeaves_eq_iff f id v
  rwa [mapLeaves_id] at hid

theorem isExpressible_of_not_isLeaf {v : Value} (h : ¬ v.isLeaf = true) : v.isExpressible = true := by
  cases v with
  | array => rfl
  | object => rfl
  | _ => exact absurd rfl h

theorem normalized_eq_self_iff (v : Value) :
    v.normalized = v ↔ ∀ part ∈ v.parts, part.isExpressible = true := by
  rw [normalized, mapLeaves_eq_self_iff]
  refine forall₂_congr fun part _ => ?_
  rw [jsonLeaf_eq_self_iff]
  exact ⟨fun h => Decidable.byCases h isExpressible_of_not_isLeaf, fun h _ => h⟩

end RoundTrip

/-- A value and its document have one text, and the document leads back to the value with texts for its
dates and null for NaN and the infinities: to the value itself if it has none of these, and from there
to the same value again. -/
theorem json_round_trip (v : Value) :
    v.compact = v.toJson.compact ∧ ofJson v.toJson = v.normalized ∧
      (ofJson v.toJson = v ↔ ∀ part ∈ v.parts, part.isExpressible = true) ∧
      ofJson (ofJson v.toJson).toJson = ofJson v.toJson := by
  refine ⟨(compact_toJson v).symm, ofJson_toJson v, ?_, ?_⟩
  · rw [ofJson_toJson, normalized_eq_self_iff]
  · rw [toJson_ofJson]

section Reading

variable {key : String} {j : Json} {fields : List (String × Json)} {cs rest : List Char}

theorem mem_put {field : String × Json} (h : field ∈ Json.put key j fields) :
    field = (key, j) ∨ field ∈ fields := by
  induction fields with
  | nil => exact .inl (List.mem_singleton.mp h)
  | cons first others ih =>
    rw [Json.put] at h
    split at h
    · rename_i hkey
      rcases List.mem_cons.mp h with rfl | h
      · exact .inl (hkey ▸ rfl)
      · exact .inr (List.mem_cons_of_mem first h)
    · rcases List.mem_cons.mp h with rfl | h
      · exact .inr List.mem_cons_self
      · exact (ih h).imp_right (List.mem_cons_of_mem first)

theorem nodup_keys_put (h : (fields.map Prod.fst).Nodup) :
    ((Json.put key j fields).map Prod.fst).Nodup := by
  induction fields with
  | nil => simp [Json.put]
  | cons first others ih =>
    obtain ⟨hfirst, hothers⟩ := List.nodup_cons.mp h
    rw [Json.put]
    split
    · exact h
    · rename_i hne
      refine List.nodup_cons.mpr ⟨fun hmem => ?_, ih hothers⟩
      obtain ⟨field, hfield, hkey⟩ := List.mem_map.mp hmem
      rcases mem_put hfield with rfl | hfield
      · exact hne hkey.symm
      · exact hfirst (hkey ▸ List.mem_map_of_mem hfield)

theorem collected_spec {P : Json → Prop} (h : ∀ field ∈ fields, P field.2) :
    let collected := fields.foldl (fun object (key, value) => Json.put key value object) []
    (collected.map Prod.fst).Nodup ∧ ∀ field ∈ collected, P field.2 := by
  refine List.foldlRecOn (motive := fun object : List (String × Json) =>
    (object.map Prod.fst).Nodup ∧ ∀ field ∈ object, P field.2) fields _ ⟨List.nodup_nil, ?_⟩ ?_
  · simp
  · rintro object ⟨hkeys, hobject⟩ field hfield
    refine ⟨nodup_keys_put hkeys, fun other hother => ?_⟩
    rcases mem_put hother with rfl | hother
    · exact h field hfield
    · exact hobject other hother

theorem isLeaf_of_binary? {negative : Bool} {n : Nat} {exponent : Int}
    (h : Json.binary? negative n exponent = some j) : (ofJson j).isLeaf = true := by
  unfold Json.binary? at h
  split at h
  · obtain rfl := Option.some.inj h
    rfl
  · contradiction

theorem isLeaf_of_numberOf? {negative : Bool} {whole fraction : List Char} {exponent : Option Int}
    (h : Json.numberOf? negative whole fraction exponent = some j) : (ofJson j).isLeaf = true := by
  unfold Json.numberOf? at h
  dsimp only at h
  split at h
  · split at h
    · obtain rfl := Option.some.inj h
      rfl
    · exact isLeaf_of_binary? h
  · exact isLeaf_of_binary? h

theorem isLeaf_of_unsigned? {negative : Bool} (h : Json.unsigned? negative cs = some (j, rest)) :
    (ofJson j).isLeaf = true := by
  simp only [Json.unsigned?, Option.bind_eq_bind, Option.bind_eq_some_iff, Option.pure_def,
    Option.some.injEq, Prod.mk.injEq] at h
  obtain ⟨_, _, _, _, _, _, j, hj, rfl, -⟩ := h
  exact isLeaf_of_numberOf? hj

theorem isLeaf_of_number? (h : Json.number? cs = some (j, rest)) : (ofJson j).isLeaf = true := by
  unfold Json.number? at h
  split at h
  · exact isLeaf_of_unsigned? h
  · exact isLeaf_of_unsigned? h

theorem itemsOfJson_eq (items : List Json) : itemsOfJson items = items.map ofJson := by
  induction items with
  | nil => rfl
  | cons item rest ih => rw [itemsOfJson, ih, List.map_cons]

theorem fieldsOfJson_eq (fields : List (String × Json)) :
    fieldsOfJson fields = fields.map fun field => (field.1, ofJson field.2) := by
  induction fields with
  | nil => rfl
  | cons field rest ih => rw [fieldsOfJson, ih, List.map_cons]

theorem hasDistinctKeys_ofJson_array {items : List Json}
    (h : ∀ item ∈ items, (ofJson item).HasDistinctKeys) :
    (ofJson (.array items)).HasDistinctKeys := by
  rw [ofJson, itemsOfJson_eq, hasDistinctKeys_array_iff]
  simpa using h

theorem hasDistinctKeys_ofJson_object (hkeys : (fields.map Prod.fst).Nodup)
    (h : ∀ field ∈ fields, (ofJson field.2).HasDistinctKeys) :
    (ofJson (.object fields)).HasDistinctKeys := by
  rw [ofJson, fieldsOfJson_eq, hasDistinctKeys_object_iff, List.forall_mem_map, List.map_map]
  exact ⟨hkeys, h⟩

structure ReadsDistinct (fuel : Nat) : Prop where
  value {depth : Nat} {cs rest : List Char} {j : Json} :
    Json.value? depth fuel cs = some (j, rest) → (ofJson j).HasDistinctKeys
  items {depth : Nat} {cs rest : List Char} {items : List Json} :
    Json.items? depth fuel cs = some (items, rest) → ∀ item ∈ items, (ofJson item).HasDistinctKeys
  fields {depth : Nat} {cs rest : List Char} {fields : List (String × Json)} :
    Json.fields? depth fuel cs = some (fields, rest) →
      ∀ field ∈ fields, (ofJson field.2).HasDistinctKeys

theorem hasDistinctKeys_of_value? {depth fuel : Nat} (hfuel : ReadsDistinct fuel)
    (h : Json.value? depth (fuel + 1) cs = some (j, rest)) : (ofJson j).HasDistinctKeys := by
  rw [Json.value?.eq_def] at h
  dsimp only at h
  split at h
  · obtain ⟨rfl, -⟩ := Prod.mk.inj (Option.some.inj h)
    exact hasDistinctKeys_of_isLeaf rfl
  · obtain ⟨rfl, -⟩ := Prod.mk.inj (Option.some.inj h)
    exact hasDistinctKeys_of_isLeaf rfl
  · obtain ⟨rfl, -⟩ := Prod.mk.inj (Option.some.inj h)
    exact hasDistinctKeys_of_isLeaf rfl
  · obtain ⟨_, -, h⟩ := Option.map_eq_some_iff.mp h
    obtain ⟨rfl, -⟩ := Prod.mk.inj h
    exact hasDistinctKeys_of_isLeaf rfl
  · split at h
    · contradiction
    · split at h
      · obtain ⟨rfl, -⟩ := Prod.mk.inj (Option.some.inj h)
        exact hasDistinctKeys_ofJson_array nofun
      · obtain ⟨_, hitems, h⟩ := Option.map_eq_some_iff.mp h
        obtain ⟨rfl, -⟩ := Prod.mk.inj h
        exact hasDistinctKeys_ofJson_array (hfuel.items hitems)
  · split at h
    · contradiction
    · split at h
      · obtain ⟨rfl, -⟩ := Prod.mk.inj (Option.some.inj h)
        exact hasDistinctKeys_ofJson_object List.nodup_nil nofun
      · obtain ⟨_, hfields, h⟩ := Option.map_eq_some_iff.mp h
        obtain ⟨rfl, -⟩ := Prod.mk.inj h
        obtain ⟨hkeys, hvalues⟩ :=
          collected_spec (P := fun j => (ofJson j).HasDistinctKeys) (hfuel.fields hfields)
        exact hasDistinctKeys_ofJson_object hkeys hvalues
  · exact hasDistinctKeys_of_isLeaf (isLeaf_of_number? h)

theorem hasDistinctKeys_of_items? {depth fuel : Nat} {items : List Json}
    (hfuel : ReadsDistinct fuel) (h : Json.items? depth (fuel + 1) cs = some (items, rest)) :
    ∀ item ∈ items, (ofJson item).HasDistinctKeys := by
  rw [Json.items?] at h
  simp only [Option.bind_eq_bind, Option.bind_eq_some_iff] at h
  obtain ⟨⟨item, rest₁⟩, hitem, h⟩ := h
  dsimp only at h
  split at h
  · simp only [Option.bind_eq_some_iff, Option.pure_def, Option.some.injEq, Prod.mk.injEq] at h
    obtain ⟨⟨others, _⟩, hothers, rfl, -⟩ := h
    exact List.forall_mem_cons.mpr ⟨hfuel.value hitem, hfuel.items hothers⟩
  · simp only [Option.pure_def, Option.some.injEq, Prod.mk.injEq] at h
    obtain ⟨rfl, -⟩ := h
    exact List.forall_mem_singleton.mpr (hfuel.value hitem)
  · contradiction

theorem hasDistinctKeys_of_fields? {depth fuel : Nat} (hfuel : ReadsDistinct fuel)
    (h : Json.fields? depth (fuel + 1) cs = some (fields, rest)) :
    ∀ field ∈ fields, (ofJson field.2).HasDistinctKeys := by
  rw [Json.fields?] at h
  split at h
  · simp only [Option.bind_eq_bind, Option.bind_eq_some_iff] at h
    obtain ⟨⟨key, rest₁⟩, -, h⟩ := h
    dsimp only at h
    split at h
    · simp only [Option.bind_eq_some_iff] at h
      obtain ⟨⟨value, rest₂⟩, hvalue, h⟩ := h
      dsimp only at h
      split at h
      · simp only [Option.bind_eq_some_iff, Option.pure_def, Option.some.injEq, Prod.mk.injEq] at h
        obtain ⟨⟨others, _⟩, hothers, rfl, -⟩ := h
        exact List.forall_mem_cons.mpr ⟨hfuel.value hvalue, hfuel.fields hothers⟩
      · simp only [Option.pure_def, Option.some.injEq, Prod.mk.injEq] at h
        obtain ⟨rfl, -⟩ := h
        exact List.forall_mem_singleton.mpr (hfuel.value hvalue)
      · contradiction
    · contradiction
  · contradiction

theorem readsDistinct (fuel : Nat) : ReadsDistinct fuel := by
  induction fuel with
  | zero => exact ⟨nofun, nofun, nofun⟩
  | succ fuel ih =>
    exact ⟨hasDistinctKeys_of_value? ih, hasDistinctKeys_of_items? ih, hasDistinctKeys_of_fields? ih⟩

theorem hasDistinctKeys_of_parse? {text : String} {v : Value} (h : parse? text = some v) :
    v.HasDistinctKeys := by
  obtain ⟨j, hj, rfl⟩ := Option.map_eq_some_iff.mp h
  simp only [Json.parse?, Option.bind_eq_bind, Option.bind_eq_some_iff] at hj
  obtain ⟨⟨j', rest⟩, hread, hj⟩ := hj
  dsimp only at hj
  split at hj
  · obtain rfl := Option.some.inj hj
    exact (readsDistinct _).value hread
  · contradiction

end Reading

end JsonRules.Value
