import JsonRules.Proofs.Occurrence
import JsonRules.Proofs.Structure

/-!
Objects with distinct keys. In such an object the only field of a key is the one that looking it up
finds.
-/
namespace JsonRules

section Fields

variable {α : Type} {fields : List (String × α)} {key : String} {v : α}

theorem mem_of_lookup (h : fields.lookup key = some v) : (key, v) ∈ fields := by
  obtain ⟨before, after, rfl, -⟩ := List.lookup_eq_some_iff.mp h
  exact List.mem_append_right before List.mem_cons_self

theorem lookup_eq_some_iff_mem (h : (fields.map Prod.fst).Nodup) :
    fields.lookup key = some v ↔ (key, v) ∈ fields := by
  refine ⟨mem_of_lookup, fun hmem => ?_⟩
  obtain ⟨before, after, rfl⟩ := List.append_of_mem hmem
  refine List.lookup_eq_some_iff.mpr ⟨before, after, rfl, fun field hfield => ?_⟩
  have hdisjoint := (List.nodup_append.mp (List.map_append ▸ h)).2.2
  have hne := hdisjoint field.1 (List.mem_map_of_mem hfield) key (by simp)
  simpa using hne.symm

end Fields

namespace Value

/-- No object in the value has a key twice. -/
def HasDistinctKeys (v : Value) : Prop := ∀ part ∈ v.parts, (part.fields.map Prod.fst).Nodup

instance (v : Value) : Decidable v.HasDistinctKeys :=
  inferInstanceAs (Decidable (∀ part ∈ v.parts, (part.fields.map Prod.fst).Nodup))

theorem parts_of_isLeaf {v : Value} (h : v.isLeaf = true) : v.parts = [v] := by
  cases v with
  | array => contradiction
  | object => contradiction
  | _ => rfl

theorem hasDistinctKeys_of_isLeaf {v : Value} (h : v.isLeaf = true) : v.HasDistinctKeys := by
  intro part hpart
  rw [parts_of_isLeaf h] at hpart
  obtain rfl := List.mem_singleton.mp hpart
  cases part with
  | object => contradiction
  | _ => exact List.nodup_nil

theorem hasDistinctKeys_array_iff {items : List Value} :
    (Value.array items).HasDistinctKeys ↔ ∀ item ∈ items, item.HasDistinctKeys :=
  forall_parts_array_iff.trans (and_iff_right List.nodup_nil)

theorem hasDistinctKeys_object_iff {fields : List (String × Value)} :
    (Value.object fields).HasDistinctKeys ↔
      (fields.map Prod.fst).Nodup ∧ ∀ field ∈ fields, field.2.HasDistinctKeys :=
  forall_parts_object_iff

end Value
end JsonRules
