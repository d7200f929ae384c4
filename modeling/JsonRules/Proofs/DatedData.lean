import JsonRules.Evaluation
import JsonRules.Proofs.Dates

/-!
Data with dates in the place of their texts. Such data survives JSON: its document has texts for the
dates again, and no other text is read as a date, so what is lost on the way is NaN and the infinities
only (`withDates_ofJson_toJson_iff`). Names find in it what they find in the data with the texts, with dates in
that, whether keys look like dates and paths run into them or not (`variableValue_withDates`), so it
lacks the same names.
-/
namespace JsonRules

theorem Date.parse?_text (d : Date) : parse? d.text = some d := parse?_eq_some_iff.mpr (.inl rfl)

namespace Value

section RoundTrip

def isFinite : Value → Bool
  | .float (.finite _) => true
  | .float _ => false
  | _ => true

theorem isFinite_of_not_isLeaf {v : Value} (h : ¬ v.isLeaf = true) : v.isFinite = true := by
  cases v with
  | array => rfl
  | object => rfl
  | _ => exact absurd rfl h

theorem isLeaf_jsonLeaf {v : Value} (h : v.isLeaf = true) : (jsonLeaf v).isLeaf = true := by
  cases v with
  | float x => cases x <;> rfl
  | _ => exact h

theorem dateOfText_jsonLeaf_iff {v : Value} :
    dateOfText (jsonLeaf (dateOfText v)) = dateOfText v ↔ v.isFinite = true := by
  cases v with
  | string s =>
    refine iff_of_true ?_ rfl
    cases hparse : Date.parse? s with
    | none =>
      rw [dateOfText_of_none hparse]
      exact dateOfText_of_none hparse
    | some d =>
      rw [dateOfText_of_parse? hparse]
      exact dateOfText_of_parse? d.parse?_text
  | date d => exact iff_of_true (dateOfText_of_parse? d.parse?_text) rfl
  | float x => cases x <;> simp [dateOfText, jsonLeaf, isFinite]
  | _ => exact iff_of_true rfl rfl

theorem withDates_ofJson_toJson (v : Value) :
    (ofJson v.withDates.toJson).withDates =
      v.mapLeaves (dateOfText ∘ jsonLeaf ∘ dateOfText) := by
  have hdates (v : Value) : v.isLeaf = true → (dateOfText v).isLeaf = true := isLeaf_dateOfText
  have hjson (v : Value) (h : v.isLeaf = true) : ((jsonLeaf ∘ dateOfText) v).isLeaf = true :=
    isLeaf_jsonLeaf (hdates v h)
  rw [ofJson_toJson, normalized, withDates, withDates, mapLeaves_mapLeaves _ hdates,
    mapLeaves_mapLeaves _ hjson]

theorem withDates_ofJson_toJson_iff (v : Value) :
    (ofJson v.withDates.toJson).withDates = v.withDates ↔ ∀ part ∈ v.parts, part.isFinite = true := by
  rw [withDates_ofJson_toJson, withDates, mapLeaves_eq_iff]
  refine forall₂_congr fun part _ => ?_
  rw [Function.comp_apply, Function.comp_apply, dateOfText_jsonLeaf_iff]
  exact ⟨fun h => Decidable.byCases h isFinite_of_not_isLeaf, fun h _ => h⟩

end RoundTrip

section Resolution

variable (data name : Value) (names : List Value)

theorem variableValue_withDates (default : Option Value) :
    data.withDates.variableValue name (default.map withDates) =
      (data.variableValue name default).withDates := by
  have hdefault : (default.map withDates).getD .null = (default.getD .null).withDates := by
    cases default <;> rfl
  unfold variableValue
  rw [lookup?_withDates, hdefault]
  cases data.lookup? name with
  | none => rfl
  | some v =>
    simp only [Option.map_some, isNull_withDates]
    split <;> rfl

theorem isMissing_withDates : data.withDates.isMissing name = data.isMissing name := by
  unfold isMissing
  rw [lookup?_withDates]
  cases data.lookup? name with
  | none => rfl
  | some v => exact isNull_withDates v

theorem missing_withDates : data.withDates.missing names = data.missing names :=
  List.filter_congr fun name _ => data.isMissing_withDates name

theorem missingSome_withDates (threshold : Value) :
    data.withDates.missingSome threshold names = data.missingSome threshold names := by
  simp only [missingSome, isMissing_withDates, missing_withDates]

end Resolution

/-- Data with dates is the same data after it has been a document, if and only if there is no NaN and no
infinity in it. Every date of the calendar is read back from its text. -/
theorem dates_survive_json (v : Value) :
    ((ofJson v.withDates.toJson).withDates = v.withDates ↔ ∀ part ∈ v.parts, part.isFinite = true) ∧
      ∀ d : Date, (Value.date d).toJson = .string d.text ∧ Date.parse? d.text = some d :=
  ⟨withDates_ofJson_toJson_iff v, fun d => ⟨rfl, d.parse?_text⟩⟩

end Value

open Value Eval

/-- Names are resolved alike before and after dates are read: what is found is the same, with dates in it, a
default that takes its place is it as well, and the same names are missing. -/
theorem resolution_commutes_with_dates (data name : Value) (default : Option Value) :
    data.withDates.lookup? name = (data.lookup? name).map withDates ∧
      data.withDates.variableValue name (default.map withDates) =
        (data.variableValue name default).withDates ∧
      data.withDates.isMissing name = data.isMissing name ∧
      ∀ op ∈ [Operator.missing, .missingSome], ∀ values : List Value,
        readData op data.withDates values = readData op data values := by
  refine ⟨lookup?_withDates data name, variableValue_withDates data name default,
    isMissing_withDates data name, ?_⟩
  simp only [List.forall_mem_cons]
  refine ⟨fun values => ?_, fun values => ?_, nofun⟩
  · exact congrArg Value.array (missing_withDates data values)
  · exact congrArg Value.array (missingSome_withDates data _ _)

end JsonRules
