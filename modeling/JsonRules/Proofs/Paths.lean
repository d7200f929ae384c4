import JsonRules.Value.Lookup

/-!
Paths. The segments of a path are the only texts without points that the points of the path join
(`isSplit_iff`), and a path finds what its segments lead to one after the other, in an object by a key and
in an array by a place (`lookup?_eq_some_iff`). So every part of the data is found under its address,
if that is not the empty text, and what a path finds behind a point it finds in what it finds before it
(`lookup?_append`).
-/
namespace JsonRules.Value

section Segments

variable {p : List Char}

theorem segments_eq_splitOn (p : List Char) : segments p = p.splitOn '.' := by
  induction p with
  | nil => rfl
  | cons c cs ih =>
    rw [List.splitOn_cons_eq_if_modifyHead, ← ih, segments]
    simp only [beq_iff_eq]

theorem segments_append (p q : List Char) : segments (p ++ '.' :: q) = segments p ++ segments q := by
  simp only [segments_eq_splitOn]
  exact List.splitOn_append_cons_self p q

theorem not_mem_of_mem_segments {segment : List Char} (h : segment ∈ segments p) :
    '.' ∉ segment := by
  induction p generalizing segment with
  | nil =>
    obtain rfl := List.mem_singleton.mp h
    exact List.not_mem_nil
  | cons c cs ih =>
    rw [segments] at h
    by_cases hpoint : c = '.'
    · rw [if_pos hpoint] at h
      cases h with
      | head => exact List.not_mem_nil
      | tail _ h => exact ih h
    · rw [if_neg hpoint] at h
      cases hcs : segments cs with
      | nil => simp [hcs] at h
      | cons first rest =>
        rw [hcs, List.modifyHead_cons] at h
        cases h with
        | head =>
          have hfirst : '.' ∉ first := ih (hcs ▸ List.mem_cons_self)
          simp [hfirst, Ne.symm hpoint]
        | tail _ h => exact ih (hcs ▸ List.mem_cons_of_mem first h)

def IsSplit (p : String) (segments : List String) : Prop :=
  (∀ segment ∈ segments, '.' ∉ segment.toList) ∧ ".".intercalate segments = p

def segmentTexts (p : String) : List String := (segments p.toList).map String.ofList

theorem map_toList_segmentTexts (p : String) :
    (segmentTexts p).map String.toList = segments p.toList := by
  simp [segmentTexts]

theorem isSplit_segmentTexts (p : String) : IsSplit p (segmentTexts p) := by
  constructor
  · intro segment hsegment
    obtain ⟨cs, hcs, rfl⟩ := List.mem_map.mp hsegment
    rw [String.toList_ofList]
    exact not_mem_of_mem_segments hcs
  · rw [← String.toList_inj, String.toList_intercalate, map_toList_segmentTexts, segments_eq_splitOn]
    exact List.intercalate_splitOn '.'

theorem isSplit_iff {p : String} (hp : p ≠ "") {ss : List String} :
    IsSplit p ss ↔ ss = segmentTexts p := by
  constructor
  · rintro ⟨hpoints, rfl⟩
    have hne : ss.map String.toList ≠ [] := by
      intro hnil
      rw [List.map_eq_nil_iff.mp hnil] at hp
      contradiction
    have hpoints' : ∀ segment ∈ ss.map String.toList, '.' ∉ segment := by
      simpa using hpoints
    have hsplit : (['.'].intercalate (ss.map String.toList)).splitOn '.' = ss.map String.toList :=
      List.splitOn_intercalate '.' hpoints' hne
    have hpoint : ".".toList = ['.'] := rfl
    rw [segmentTexts, String.toList_intercalate, segments_eq_splitOn, hpoint, hsplit]
    simp
  · rintro rfl
    exact isSplit_segmentTexts p

end Segments

section Following

variable {data v : Value} {segment : String}

def WritesNumber (digits : List Char) (i : Nat) : Prop :=
  digits ≠ [] ∧ (∀ c ∈ digits, c.isDigit = true) ∧ Nat.ofDigitChars 10 digits 0 = i ∧
    i < UInt64.size

def WritesPlace (segment : String) (i : Nat) : Prop :=
  ∃ digits, (segment.toList = digits ∨ segment.toList = '+' :: digits) ∧ WritesNumber digits i

/-- The segments lead from one value to another, each in an object by a key and in an array by a place. -/
inductive Follows : Value → List String → Value → Prop
  | here (v : Value) : Follows v [] v
  | key {fields : List (String × Value)} {segment : String} {rest : List String} {below v : Value}
    (hkey : fields.lookup segment = some below) (hrest : Follows below rest v) :
    Follows (.object fields) (segment :: rest) v
  | place {items : List Value} {segment : String} {rest : List String} {i : Nat} {below v : Value}
    (hplace : WritesPlace segment i) (hitem : items[i]? = some below)
    (hrest : Follows below rest v) : Follows (.array items) (segment :: rest) v

theorem not_writesNumber_plus {digits : List Char} {i : Nat} : ¬ WritesNumber ('+' :: digits) i :=
  fun h => nomatch h.2.1 '+' List.mem_cons_self

theorem index?_eq_some_iff {i : Nat} : index? segment.toList = some i ↔ WritesPlace segment i := by
  have hread (digits : List Char) :
      (if !digits.isEmpty && digits.all Char.isDigit && Text.digitsValue digits < UInt64.size then
        some (Text.digitsValue digits) else none) = some i ↔ WritesNumber digits i := by
    simp only [Option.ite_none_right_eq_some, Bool.and_eq_true, Bool.not_eq_true',
      List.isEmpty_eq_false_iff, List.all_eq_true, decide_eq_true_eq, Option.some.injEq]
    constructor
    · rintro ⟨⟨⟨hne, hall⟩, hlt⟩, rfl⟩
      exact ⟨hne, hall, rfl, hlt⟩
    · rintro ⟨hne, hall, rfl, hlt⟩
      exact ⟨⟨⟨hne, hall⟩, hlt⟩, rfl⟩
  unfold index? WritesPlace
  dsimp only
  split
  next rest hplus =>
    rw [hread, hplus]
    constructor
    · intro h
      exact ⟨rest, .inr rfl, h⟩
    · rintro ⟨digits, rfl | hdigits, h⟩
      · exact absurd h not_writesNumber_plus
      · rwa [List.cons.inj hdigits |>.2]
  next hplus =>
    rw [hread]
    constructor
    · intro h
      exact ⟨_, .inl rfl, h⟩
    · rintro ⟨digits, hdigits | hdigits, h⟩
      · rwa [hdigits]
      · exact absurd hdigits (hplus digits)

theorem follows_cons_iff {rest : List String} :
    Follows data (segment :: rest) v ↔
      ∃ below, data.step? segment.toList = some below ∧ Follows below rest v := by
  constructor
  · intro h
    cases h with
    | key hkey hrest => exact ⟨_, by simpa [step?] using hkey, hrest⟩
    | place hplace hitem hrest =>
      exact ⟨_, Option.bind_eq_some_iff.mpr ⟨_, index?_eq_some_iff.mpr hplace, hitem⟩, hrest⟩
  · rintro ⟨below, hstep, hrest⟩
    cases data with
    | object fields => exact .key (by simpa [step?] using hstep) hrest
    | array items =>
      obtain ⟨i, hindex, hitem⟩ := Option.bind_eq_some_iff.mp hstep
      exact .place (index?_eq_some_iff.mp hindex) hitem hrest
    | _ => contradiction

theorem foldlM_step?_eq_some_iff {ss : List String} :
    (ss.map String.toList).foldlM step? data = some v ↔ Follows data ss v := by
  induction ss generalizing data with
  | nil =>
    constructor
    · intro h
      obtain rfl := Option.some.inj h
      exact .here data
    · rintro ⟨⟩
      rfl
  | cons segment rest ih =>
    rw [List.map_cons, List.foldlM_cons, follows_cons_iff, Option.bind_eq_bind,
      Option.bind_eq_some_iff]
    simp only [ih]

theorem lookup?_string {p : String} (hp : p ≠ "") :
    data.lookup? (.string p) = (segments p.toList).foldlM step? data :=
  if_neg (by simpa [path] using hp)

theorem append_point_ne_empty (p q : String) : p ++ "." ++ q ≠ "" := by
  intro hempty
  have hmem : '.' ∈ (p ++ "." ++ q).toList := by simp
  rw [hempty] at hmem
  contradiction

theorem lookup?_append {p q : String} (hp : p ≠ "") (hq : q ≠ "") :
    data.lookup? (.string (p ++ "." ++ q)) =
      (data.lookup? (.string p)).bind fun v => v.lookup? (.string q) := by
  have hpoint : ".".toList = ['.'] := rfl
  rw [lookup?_string (append_point_ne_empty p q), lookup?_string hp, String.toList_append,
    String.toList_append, hpoint, List.append_assoc, List.singleton_append, segments_append,
    List.foldlM_append]
  exact Option.bind_congr fun v _ => (lookup?_string hq).symm

theorem lookup?_eq_some_iff {p : String} (hp : p ≠ "") :
    data.lookup? (.string p) = some v ↔ Follows data (segmentTexts p) v := by
  rw [lookup?_string hp, ← map_toList_segmentTexts, foldlM_step?_eq_some_iff]

end Following

section Addresses

/-- A step down, to the value of a key or to an item. -/
inductive Step where
  | key (name : String)
  | place (i : UInt64)

def Step.text : Step → String
  | .key name => name
  | .place i => toString i.toNat

/-- The address of a value in the data. A key with a point in it is part of no address. -/
inductive Reaches : Value → List Step → Value → Prop
  | here (v : Value) : Reaches v [] v
  | key {fields : List (String × Value)} {name : String} {rest : List Step} {below v : Value}
    (hname : '.' ∉ name.toList) (hkey : fields.lookup name = some below)
    (hrest : Reaches below rest v) : Reaches (.object fields) (.key name :: rest) v
  | place {items : List Value} {i : UInt64} {rest : List Step} {below v : Value}
    (hitem : items[i.toNat]? = some below) (hrest : Reaches below rest v) :
    Reaches (.array items) (.place i :: rest) v

def pathText (address : List Step) : String := ".".intercalate (address.map Step.text)

theorem writesPlace_toString (i : UInt64) : WritesPlace (toString i.toNat) i.toNat := by
  refine ⟨Nat.toDigits 10 i.toNat, .inl ?_, Nat.toDigits_ne_nil, fun c hc => ?_, ?_, i.toNat_lt⟩
  · rw [Nat.toString_eq_repr, Nat.toList_repr]
  · exact Nat.isDigit_of_mem_toDigits (by decide) (by decide) hc
  · exact Nat.ofDigitChars_toDigits (by decide) (by decide)

theorem not_mem_toString (n : Nat) : '.' ∉ (toString n).toList := by
  intro h
  rw [Nat.toString_eq_repr, Nat.toList_repr] at h
  have hdigit := Nat.isDigit_of_mem_toDigits (by decide) (by decide) h
  contradiction

variable {data v : Value} {address : List Step}

theorem Reaches.follows (h : Reaches data address v) : Follows data (address.map Step.text) v := by
  induction h with
  | here v => exact .here v
  | key _ hkey _ ih => exact .key hkey ih
  | place hitem _ ih => exact .place (writesPlace_toString _) hitem ih

theorem Reaches.isSplit (h : Reaches data address v) :
    IsSplit (pathText address) (address.map Step.text) := by
  refine ⟨?_, rfl⟩
  induction h with
  | here => exact List.forall_mem_nil _
  | key hname _ _ ih => exact List.forall_mem_cons.mpr ⟨hname, ih⟩
  | place _ _ ih => exact List.forall_mem_cons.mpr ⟨not_mem_toString _, ih⟩

theorem Reaches.lookup?_eq (h : Reaches data address v) (hne : pathText address ≠ "") :
    data.lookup? (.string (pathText address)) = some v := by
  rw [lookup?_eq_some_iff hne, ← (isSplit_iff hne).mp h.isSplit]
  exact h.follows

end Addresses

/-- A path finds what its segments lead to, and nothing else. What has an address is found under the path
of that address, if it is not the empty text. -/
theorem lookup?_reaches (data : Value) :
    (∀ (address : List Step) (v : Value), Reaches data address v → pathText address ≠ "" →
      data.lookup? (.string (pathText address)) = some v) ∧
      ∀ p : String, p ≠ "" → ∃ ss, (∀ other, IsSplit p other ↔ other = ss) ∧
        (∀ v, data.lookup? (.string p) = some v ↔ Follows data ss v) ∧
        (data.lookup? (.string p) = none ↔ ∀ v, ¬ Follows data ss v) := by
  refine ⟨fun address v h hne => h.lookup?_eq hne, fun p hp => ?_⟩
  refine ⟨segmentTexts p, fun other => isSplit_iff hp, fun v => lookup?_eq_some_iff hp, ?_⟩
  rw [Option.eq_none_iff_forall_ne_some]
  exact forall_congr' fun v => not_congr (lookup?_eq_some_iff hp)

theorem lookup?_reaches_nested :
    let pair := Value.array [.null, .string "x"]
    let data := Value.object [("a", .object [("", .array [.int 1, pair])]), ("b.c", .int 2)]
    (Reaches data [.key "a", .key "", .place 1, .place 0] .null ∧
      data.lookup? (.string "a..1.0") = some .null) ∧
      (Follows data ["a", "", "+01"] pair ∧ data.lookup? (.string "a..+01") = some pair) ∧
      (¬ Follows data ["b", "c"] (.int 2) ∧ data.lookup? (.string "b.c") = none) := by
  intro pair data
  have haddress : Reaches data [.key "a", .key "", .place 1, .place 0] .null :=
    .key (by decide) rfl (.key (by decide) rfl (.place rfl (.place rfl (.here _))))
  have hdigits : ∀ c ∈ ['0', '1'], c.isDigit = true := List.all_eq_true.mp rfl
  have hplace : WritesPlace "+01" 1 :=
    ⟨['0', '1'], .inr rfl, List.cons_ne_nil _ _, hdigits, rfl, by decide⟩
  have hfollows : Follows data ["a", "", "+01"] pair := .key rfl (.key rfl (.place hplace rfl (.here _)))
  have hnot : ∀ v, ¬ Follows data ["b", "c"] v := by
    intro v h
    obtain ⟨below, hstep, -⟩ := follows_cons_iff.mp h
    have hnone : data.step? "b".toList = none := rfl
    exact Option.some_ne_none below (hstep.symm.trans hnone)
  obtain ⟨hreaches, hpaths⟩ := lookup?_reaches data
  obtain ⟨ss, hss, hfound, -⟩ := hpaths "a..+01" (by decide)
  obtain ⟨ss', hss', -, hnone⟩ := hpaths "b.c" (by decide)
  obtain rfl := (hss ["a", "", "+01"]).mp ⟨by decide, by decide⟩
  obtain rfl := (hss' ["b", "c"]).mp ⟨by decide, by decide⟩
  exact ⟨⟨haddress, hreaches _ _ haddress (by decide)⟩, ⟨hfollows, (hfound pair).mpr hfollows⟩,
    ⟨hnot _, hnone.mpr hnot⟩⟩

end JsonRules.Value
