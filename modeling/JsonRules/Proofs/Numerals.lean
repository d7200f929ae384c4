import JsonRules.Proofs.Decimals
import JsonRules.Text.Blank
import JsonRules.Text.Numeral
import JsonRules.Text.Scan
import Mathlib.Data.List.TakeDrop

/-!
Texts that write a number (`Writes`): perhaps a sign, digits with perhaps a point, and perhaps a power of
ten. Every such text is read as a whole, as the number nearest to what it writes (`number?_of_writes`).
-/
namespace JsonRules.Text

def IsDigits (cs : List Char) : Prop := cs ≠ [] ∧ ∀ c ∈ cs, c.isDigit = true

inductive WritesSign : List Char → Bool → Prop
  | absent : WritesSign [] false
  | plus : WritesSign ['+'] false
  | minus : WritesSign ['-'] true

/-- Digits before a point, behind a point or on both sides. A point stands before a digit. -/
inductive WritesDigits : List Char → List Char → List Char → Prop
  | whole {whole : List Char} : IsDigits whole → WritesDigits whole whole []
  | both {whole fraction : List Char} : IsDigits whole → IsDigits fraction →
      WritesDigits (whole ++ '.' :: fraction) whole fraction
  | fraction {fraction : List Char} : IsDigits fraction → WritesDigits ('.' :: fraction) [] fraction

inductive WritesExponent : List Char → Int → Prop
  | absent : WritesExponent [] 0
  | power {letter : Char} {sign digits : List Char} {negative : Bool} :
      isExponentLetter letter = true → WritesSign sign negative → IsDigits digits →
      WritesExponent (letter :: (sign ++ digits))
        (if negative then -(digitsValue digits : Int) else digitsValue digits)

/-- The characters are a number, with this sign and these digits. -/
inductive Writes : List Char → Bool → Numeral → Prop
  | number {sign digits power whole fraction : List Char} {negative : Bool} {exponent : Int} :
      WritesSign sign negative → WritesDigits digits whole fraction → WritesExponent power exponent →
      Writes (sign ++ (digits ++ power)) negative ⟨whole, fraction, exponent⟩

inductive WritesFraction : List Char → List Char → Prop
  | absent : WritesFraction [] []
  | digits {fraction : List Char} : IsDigits fraction → WritesFraction ('.' :: fraction) fraction

theorem writesDigits_iff {cs whole fraction : List Char} :
    WritesDigits cs whole fraction ↔
      ∃ part, cs = whole ++ part ∧ (∀ c ∈ whole, c.isDigit = true) ∧ WritesFraction part fraction ∧
        (whole ≠ [] ∨ part ≠ []) := by
  constructor
  · intro h
    cases h with
    | whole hwhole => exact ⟨[], (List.append_nil _).symm, hwhole.2, .absent, .inl hwhole.1⟩
    | both hwhole hfraction => exact ⟨_, rfl, hwhole.2, .digits hfraction, .inl hwhole.1⟩
    | fraction hfraction =>
      exact ⟨_, rfl, List.forall_mem_nil _, .digits hfraction, .inr (List.cons_ne_nil _ _)⟩
  · rintro ⟨part, rfl, hwhole, hpart, hne⟩
    cases hpart with
    | absent =>
      rw [List.append_nil]
      exact .whole ⟨hne.resolve_right fun h => h rfl, hwhole⟩
    | digits hfraction =>
      cases whole with
      | nil => exact .fraction hfraction
      | cons c whole => exact .both ⟨List.cons_ne_nil _ _, hwhole⟩ hfraction

section Heads

/-! What the first character of a part can be. -/

variable {cs rest fraction : List Char} {c : Char} {negative : Bool} {exponent : Int}

theorem isExponentLetter_iff : isExponentLetter c = true ↔ c = 'e' ∨ c = 'E' := by
  rw [isExponentLetter, Bool.or_eq_true, beq_iff_eq, beq_iff_eq]

theorem WritesExponent.head?_not {is : Char → Bool} (h : WritesExponent cs exponent)
    (he : is 'e' = false) (hE : is 'E' = false) : cs.head?.any is = false := by
  cases h with
  | absent => rfl
  | power hletter =>
    rcases isExponentLetter_iff.mp hletter with rfl | rfl
    · exact he
    · exact hE

theorem WritesFraction.head?_not {is : Char → Bool} (h : WritesFraction cs fraction)
    (hpoint : is '.' = false) (hrest : rest.head?.any is = false) :
    (cs ++ rest).head?.any is = false := by
  cases h with
  | absent => exact hrest
  | digits => exact hpoint

theorem WritesExponent.eq_nil_of_head? {is : Char → Bool} (h : WritesExponent cs exponent)
    (he : is 'e' = false) (hE : is 'E' = false) (hon : (cs ++ rest).head?.any is = true) : cs = [] := by
  cases cs with
  | nil => rfl
  | cons c cs => exact absurd ((h.head?_not he hE).symm.trans hon) Bool.false_ne_true

theorem WritesFraction.eq_nil_of_head? {is : Char → Bool} (h : WritesFraction cs fraction)
    (hpoint : is '.' = false) (hon : (cs ++ rest).head?.any is = true) : cs = [] := by
  cases h with
  | absent => rfl
  | digits => exact absurd (hpoint.symm.trans hon) Bool.false_ne_true

theorem IsDigits.head?_not {is : Char → Bool} (h : IsDigits cs)
    (hdigit : ∀ c, c.isDigit = true → is c = false) : (cs ++ rest).head?.any is = false := by
  cases cs with
  | nil => exact absurd rfl h.1
  | cons c cs => exact hdigit c (h.2 c List.mem_cons_self)

theorem WritesDigits.head?_not {is : Char → Bool} {whole : List Char}
    (h : WritesDigits cs whole fraction) (hdigit : ∀ c, c.isDigit = true → is c = false)
    (hpoint : is '.' = false) : (cs ++ rest).head?.any is = false := by
  cases h with
  | whole hwhole => exact hwhole.head?_not hdigit
  | both hwhole =>
    rw [List.append_assoc]
    exact hwhole.head?_not hdigit
  | fraction => exact hpoint

theorem isSign_eq_false (c : Char) (h : c.isDigit = true) : isSign c = false := by
  rw [isSign, Bool.or_eq_false_iff]
  constructor <;> exact beq_false_of_ne fun hc => nomatch hc ▸ h

theorem isBlank_eq_false (c : Char) (h : c.isDigit = true) : isBlank c = false := by
  obtain ⟨hlow, hhigh⟩ : 48 ≤ c.toNat ∧ c.toNat ≤ 57 := Char.isDigit_iff_toNat.mp h
  simp only [isBlank, Bool.or_eq_false_iff, Bool.and_eq_false_iff, decide_eq_false_iff_not,
    beq_eq_false_iff_ne]
  omega

theorem takeWhile_of_head? {is : Char → Bool} (h : cs.head?.any is = false) :
    cs.takeWhile is = [] := by
  cases cs with
  | nil => rfl
  | cons c cs => exact List.takeWhile_cons_of_neg (Bool.eq_false_iff.mp h)

theorem dropWhile_of_head? {is : Char → Bool} (h : cs.head?.any is = false) :
    cs.dropWhile is = cs := by
  cases cs with
  | nil => rfl
  | cons c cs => exact List.dropWhile_cons_of_neg (Bool.eq_false_iff.mp h)

theorem Writes.dropWhile_isBlank {numeral : Numeral} (h : Writes cs negative numeral) :
    cs.dropWhile isBlank = cs := by
  obtain ⟨hsign, hdigits, -⟩ := h
  refine dropWhile_of_head? ?_
  cases hsign with
  | absent => exact hdigits.head?_not isBlank_eq_false rfl
  | plus => rfl
  | minus => rfl

end Heads

section Reading

variable {cs rest whole fraction : List Char} {negative : Bool} {exponent : Int} {numeral : Numeral}

theorem spanDigits_append (h : ∀ c ∈ cs, c.isDigit = true)
    (hrest : rest.head?.any Char.isDigit = false) : spanDigits (cs ++ rest) = (cs, rest) := by
  rw [spanDigits, List.span_eq_takeWhile_dropWhile, List.takeWhile_append_of_pos h,
    List.dropWhile_append_of_pos h, takeWhile_of_head? hrest, dropWhile_of_head? hrest,
    List.append_nil]

theorem sign_append (h : WritesSign cs negative) (hrest : rest.head?.any isSign = false) :
    sign (cs ++ rest) = (negative, rest) := by
  cases h with
  | plus => rfl
  | minus => rfl
  | absent =>
    rw [List.nil_append]
    unfold sign
    split
    · exact nomatch hrest
    · exact nomatch hrest
    · rfl

theorem pointed_append (h : WritesFraction cs fraction)
    (hpoint : rest.head?.any isPoint = false) (hdigit : rest.head?.any Char.isDigit = false) :
    pointed (cs ++ rest) = (fraction, rest) := by
  cases h with
  | digits hfraction => exact spanDigits_append hfraction.2 hdigit
  | absent =>
    rw [List.nil_append]
    unfold pointed
    split
    · exact nomatch hpoint
    · rfl

theorem exponent?_of_writes (h : WritesExponent cs exponent) (hne : cs ≠ []) :
    exponent? cs = some (exponent, []) := by
  cases h with
  | absent => exact absurd rfl hne
  | @power letter sign digits negative hletter hsign hdigits =>
    have hread : Text.sign (sign ++ digits) = (negative, digits) := by
      refine sign_append hsign ?_
      rw [← List.append_nil digits]
      exact hdigits.head?_not isSign_eq_false
    have hspan : spanDigits digits = (digits, []) := by
      rw [← spanDigits_append hdigits.2 rfl, List.append_nil]
    obtain ⟨d, digits, rfl⟩ := List.exists_cons_of_ne_nil hdigits.1
    rcases isExponentLetter_iff.mp hletter with rfl | rfl <;> simp only [exponent?, hread, hspan]

theorem numeral?_of_writes (hdigits : WritesDigits cs whole fraction)
    (hexponent : WritesExponent rest exponent) :
    numeral? (cs ++ rest) = some ⟨whole, fraction, exponent⟩ := by
  obtain ⟨part, rfl, hwhole, hpart, hne⟩ := writesDigits_iff.mp hdigits
  have hstop : rest.head?.any Char.isDigit = false := hexponent.head?_not rfl rfl
  have hspan : spanDigits (whole ++ (part ++ rest)) = (whole, part ++ rest) :=
    spanDigits_append hwhole (hpart.head?_not rfl hstop)
  have hpointed : pointed (part ++ rest) = (fraction, rest) :=
    pointed_append hpart (hexponent.head?_not rfl rfl) hstop
  have hsome : ¬ (whole.isEmpty = true ∧ fraction.isEmpty = true) := by
    simp only [List.isEmpty_iff]
    rintro ⟨rfl, rfl⟩
    cases hpart with
    | absent => exact hne.elim (fun h => h rfl) fun h => h rfl
    | digits hfraction => exact hfraction.1 rfl
  simp only [numeral?, List.append_assoc, hspan, hpointed, if_neg hsome]
  cases hexponent with
  | absent => rfl
  | power hletter hsign hpower =>
    rw [exponent?_of_writes (.power hletter hsign hpower) (List.cons_ne_nil _ _)]
    rfl

theorem number?_of_writes (h : Writes cs negative numeral) :
    number? (String.ofList cs) = some (numeral.decimal.rounded negative) := by
  obtain ⟨hsign, hdigits, hexponent⟩ := h
  unfold number?
  rw [String.toList_ofList, sign_append hsign (hdigits.head?_not isSign_eq_false rfl)]
  dsimp only
  rw [numeral?_of_writes hdigits hexponent]
  exact congrArg some (Binary64.ofDecimal_eq_rounded _ _)

end Reading

end JsonRules.Text
