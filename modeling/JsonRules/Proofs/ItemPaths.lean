import JsonRules.Proofs.Outcome
import JsonRules.Proofs.Paths

/-!
References in the body of `map`. A variable that is read in an item of an array is read in the whole data
by the path that goes through the place of the item, so `map` with a reference for its body collects what
these paths refer to.
-/
namespace JsonRules

namespace Value

def reference (name : String) : Value := .object [("var", .string name)]

variable {data item : Value} {items : List Value} {i : UInt64} {p q : String}

theorem toString_ne_empty (n : Nat) : toString n ≠ "" := by
  intro hempty
  have hdigits := congrArg String.toList hempty
  rw [Nat.toString_eq_repr, Nat.toList_repr] at hdigits
  exact Nat.toDigits_ne_nil hdigits

theorem lookup?_place (h : items[i.toNat]? = some item) :
    (Value.array items).lookup? (.string (toString i.toNat)) = some item := by
  have hreaches : Reaches (.array items) [.place i] item := .place h (.here item)
  exact hreaches.lookup?_eq (toString_ne_empty i.toNat)

/-- The name of a variable of an item, with the path of the array and the place of the item before it. -/
def itemName (q : String) (i : UInt64) (p : String) : String :=
  q ++ "." ++ toString i.toNat ++ "." ++ p

theorem lookup?_itemName (hq : q ≠ "") (hp : p ≠ "")
    (h : data.lookup? (.string q) = some (.array items)) (hitem : items[i.toNat]? = some item) :
    data.lookup? (.string (itemName q i p)) = item.lookup? (.string p) := by
  rw [itemName, lookup?_append (append_point_ne_empty q _) hp,
    lookup?_append hq (toString_ne_empty i.toNat), h, Option.bind_some, lookup?_place hitem,
    Option.bind_some]

end Value

open Value

theorem outcome_reference (name : String) (data : Value) :
    outcome (reference name) data = .ok (data.variableValue (.string name) none) := by
  have hoperands : (Value.string name).operands = [.string name] := rfl
  have hname : outcome (.string name) data = .ok (.string name) := outcome_literal rfl data
  rw [reference, outcome_var, hoperands, List.mapM_cons, hname]
  rfl

theorem outcome_map_reference {operand data : Value} {items : List Value}
    (h : outcome operand data = .ok (.array items)) (name : String) :
    outcome (.object [("map", .array [operand, reference name])]) data =
      .ok (.array (items.map fun item => item.variableValue (.string name) none)) := by
  have hnamed : Operator.named? "map" = some .map := rfl
  have hsource : Operator.operand [operand, reference name] 0 = operand := rfl
  have hbody : Operator.operand [operand, reference name] 1 = reference name := rfl
  rw [outcome_map hnamed, Value.operands, hsource, hbody, h]
  change Value.array <$> items.mapM (outcome (reference name)) = _
  rw [mapM_congr fun item _ => outcome_reference name item]
  exact congrArg (Value.array <$> ·) List.mapM_pure

/-- The results of `map` with the reference to a variable for its body are the values of the paths that
go through the places of the items. Places are numbers of 64 bits. -/
theorem map_reference_eq_itemNames {data : Value} {items : List Value} {q p : String} (hq : q ≠ "")
    (hp : p ≠ "") (h : data.lookup? (.string q) = some (.array items)) :
    ∃ results,
      outcome (.object [("map", .array [reference q, reference p])]) data = .ok (.array results) ∧
        results.length = items.length ∧
        ∀ (i : UInt64) (hi : i.toNat < results.length),
          outcome (reference (itemName q i p)) data = .ok results[i.toNat] := by
  have hsource : outcome (reference q) data = .ok (.array items) := by
    rw [outcome_reference, variableValue, h]
    rfl
  refine ⟨_, outcome_map_reference hsource p, List.length_map _, fun i hi => ?_⟩
  rw [List.length_map] at hi
  have hitem : items[i.toNat]? = some items[i.toNat] := List.getElem?_eq_getElem hi
  rw [outcome_reference, List.getElem_map, variableValue, variableValue,
    lookup?_itemName hq hp h hitem]

theorem map_reference_eq_itemNames_ages :
    let person (age : Value) := Value.object [("age", .object [("years", age)])]
    let people := [person (.int 41), person .null, .object [], .string "age"]
    let data := Value.object [("team", .array [.array people])]
    outcome (.object [("map", .array [reference "team.0", reference "age.years"])]) data =
        .ok (.array [.int 41, .null, .null, .null]) ∧
      outcome (reference "team.0.0.age.years") data = .ok (.int 41) ∧
      outcome (reference "team.0.2.age.years") data = .ok .null := by
  intro person people data
  have hlookup : data.lookup? (.string "team.0") = some (.array people) := rfl
  obtain ⟨results, hmap, -, hpaths⟩ :=
    map_reference_eq_itemNames (p := "age.years") (by decide) (by decide) hlookup
  have hresults : results = [.int 41, .null, .null, .null] := by
    have hvalues := hmap.symm.trans (outcome_map_reference (outcome_reference "team.0" data) "age.years")
    exact Value.array.inj (Except.ok.inj hvalues)
  obtain rfl := hresults
  exact ⟨hmap, hpaths 0 (by decide), hpaths 2 (by decide)⟩

end JsonRules
