import JsonRules.Proofs.Numerals
import JsonRules.Value.Number

/-!
The number that a text starts with. A scan over bytes takes each part of a number as far as it goes
(`Takes`). What comes behind a part cannot go on with it, and so the parts together are the longest front
of the text that writes a number. That front ends between two characters, and it is read as what it writes.
-/
namespace JsonRules.Text

section Bytes

variable {bs : List UInt8} {i : Nat} {c : Char} {cs part rest : List Char} {is : Char → Bool}

theorem bytes_ofList_append (cs cs' : List Char) :
    bytes (String.ofList (cs ++ cs')) = bytes (String.ofList cs) ++ bytes (String.ofList cs') := by
  simp only [bytes_ofList, List.flatMap_append]

theorem bytes_ofList_cons (c : Char) (cs : List Char) :
    bytes (String.ofList (c :: cs)) = String.utf8EncodeChar c ++ bytes (String.ofList cs) := by
  simp only [bytes_ofList, List.flatMap_cons]

theorem toNat_ofUInt8 (b : UInt8) : (Char.ofUInt8 b).toNat = b.toNat := UInt8.toNat_toUInt32 b

/-- The first byte of a character is the whole character, or it is that of no character of one byte. -/
theorem exists_utf8EncodeChar_eq (c : Char) :
    ∃ b rest, String.utf8EncodeChar c = b :: rest ∧
      (c.toNat < 128 ∧ Char.ofUInt8 b = c ∧ rest = [] ∨
        128 ≤ c.toNat ∧ 128 ≤ (Char.ofUInt8 b).toNat) := by
  have hbyte {n : Nat} (h : n < 256) : (Char.ofUInt8 (UInt8.ofNat n)).toNat = n := by
    rw [toNat_ofUInt8, UInt8.toNat_ofNat', Nat.mod_eq_of_lt h]
  have hlead {n : Nat} (rest : List UInt8) (hc : 128 ≤ c.toNat) (hlow : 128 ≤ n) (hhigh : n < 256) :
      ∃ b rest', UInt8.ofNat n :: rest = b :: rest' ∧
        (c.toNat < 128 ∧ Char.ofUInt8 b = c ∧ rest' = [] ∨
          128 ≤ c.toNat ∧ 128 ≤ (Char.ofUInt8 b).toNat) :=
    ⟨_, _, rfl, .inr ⟨hc, by rwa [hbyte hhigh]⟩⟩
  have hval : c.val.toNat = c.toNat := rfl
  unfold String.utf8EncodeChar
  dsimp only
  rw [hval]
  split
  next => exact ⟨_, [], rfl, .inl ⟨by omega, Char.toNat_inj.mp (hbyte (by omega)), rfl⟩⟩
  next =>
    split
    next => exact hlead _ (by omega) (by omega) (by omega)
    next =>
      split
      next => exact hlead _ (by omega) (by omega) (by omega)
      next => exact hlead _ (by omega) (by omega) (by omega)

def IsAscii (is : Char → Bool) : Prop := ∀ c, is c = true → c.toNat < 128

theorem isAscii_isDigit : IsAscii Char.isDigit := by
  intro c hc
  obtain ⟨-, hhigh⟩ : 48 ≤ c.toNat ∧ c.toNat ≤ 57 := Char.isDigit_iff_toNat.mp hc
  omega

theorem isAscii_isSign : IsAscii isSign := by
  intro c hc
  rw [isSign, Bool.or_eq_true, beq_iff_eq, beq_iff_eq] at hc
  rcases hc with rfl | rfl <;> decide

theorem isAscii_isPoint : IsAscii isPoint := by
  intro c hc
  rw [isPoint, beq_iff_eq] at hc
  subst hc
  decide

theorem isAscii_isExponentLetter : IsAscii isExponentLetter := by
  intro c hc
  rcases isExponentLetter_iff.mp hc with rfl | rfl <;> decide

theorem IsAscii.apply_ofUInt8 (his : IsAscii is) {b : UInt8} {tail : List UInt8}
    (h : String.utf8EncodeChar c = b :: tail) : is (Char.ofUInt8 b) = is c := by
  obtain ⟨b', tail', heq, hb⟩ := exists_utf8EncodeChar_eq c
  obtain ⟨rfl, -⟩ := List.cons.inj (h.symm.trans heq)
  rcases hb with ⟨-, hb, -⟩ | ⟨hc, hb⟩
  · rw [hb]
  · have hnot {c : Char} (hle : 128 ≤ c.toNat) : is c = false :=
      Bool.eq_false_iff.mpr fun hc => Nat.not_lt.mpr hle (his c hc)
    rw [hnot hc, hnot hb]

theorem IsAscii.length_utf8EncodeChar (his : IsAscii is) (hc : is c = true) :
    (String.utf8EncodeChar c).length = 1 := by
  obtain ⟨b, tail, heq, ⟨-, -, rfl⟩ | ⟨hle, -⟩⟩ := exists_utf8EncodeChar_eq c
  · rw [heq, List.length_singleton]
  · exact absurd (his c hc) (Nat.not_lt.mpr hle)

def Behind (bs : List UInt8) (i : Nat) (cs : List Char) : Prop := bs.drop i = bytes (String.ofList cs)

theorem Behind.drop (h : Behind bs i (part ++ rest)) :
    Behind bs (i + (bytes (String.ofList part)).length) rest := by
  rw [Behind, ← List.drop_drop, h, bytes_ofList_append, List.drop_left]

theorem Behind.tail (h : Behind bs i (c :: cs)) (his : IsAscii is) (hc : is c = true) :
    Behind bs (i + 1) cs := by
  rw [Behind, ← List.drop_drop, h, bytes_ofList_cons, ← his.length_utf8EncodeChar hc, List.drop_left]

theorem Behind.isAt (h : Behind bs i cs) (his : IsAscii is) : isAt bs i is = cs.head?.any is := by
  rw [Text.isAt, ← List.head?_drop, h]
  cases cs with
  | nil => rfl
  | cons c cs =>
    obtain ⟨b, tail, heq, -⟩ := exists_utf8EncodeChar_eq c
    rw [bytes_ofList_cons, heq]
    exact his.apply_ofUInt8 heq

theorem takeWhile_bytes (his : IsAscii is) (cs : List Char) :
    ((bytes (String.ofList cs)).takeWhile fun b => is (Char.ofUInt8 b)) =
      bytes (String.ofList (cs.takeWhile is)) := by
  induction cs with
  | nil => rfl
  | cons c cs ih =>
    obtain ⟨b, tail, heq, hb⟩ := exists_utf8EncodeChar_eq c
    have hclass : is (Char.ofUInt8 b) = is c := his.apply_ofUInt8 heq
    rw [bytes_ofList_cons, heq, List.cons_append, List.takeWhile_cons, List.takeWhile_cons, hclass]
    split
    next hc =>
      obtain ⟨-, -, rfl⟩ | ⟨hle, -⟩ := hb
      · rw [bytes_ofList_cons, heq, List.nil_append, ih, List.singleton_append]
      · exact absurd (his c hc) (Nat.not_lt.mpr hle)
    next => rfl

end Bytes

section Greedy

variable {IsPart : List Char → Prop} {goesOn : Char → Bool} {part rest part' rest' : List Char}

/-- A part stands at the front of a text as long as it can be: where a shorter one stops, the text goes on
with a character that can stand in such a part. -/
structure Takes (IsPart : List Char → Prop) (goesOn : Char → Bool) (part rest : List Char) : Prop where
  isPart : IsPart part
  longest : ∀ {part' rest'}, IsPart part' → part' ++ rest' = part ++ rest →
    (part' = part ∧ rest' = rest) ∨ (part'.length < part.length ∧ rest'.head?.any goesOn = true)

theorem Takes.eq_of_stops (h : Takes IsPart goesOn part rest) (hpart : IsPart part')
    (heq : part' ++ rest' = part ++ rest) (hstop : rest'.head?.any goesOn = false) :
    part' = part ∧ rest' = rest := by
  rcases h.longest hpart heq with hsame | ⟨-, hon⟩
  · exact hsame
  · exact absurd (hstop.symm.trans hon) Bool.false_ne_true

theorem Takes.length_le (h : Takes IsPart goesOn part rest) (hpart : IsPart part')
    (heq : part' ++ rest' = part ++ rest) : part'.length ≤ part.length := by
  rcases h.longest hpart heq with ⟨rfl, -⟩ | ⟨hlt, -⟩
  · exact Nat.le_refl _
  · exact Nat.le_of_lt hlt

def IsRun (cs : List Char) : Prop := ∀ c ∈ cs, c.isDigit = true

def IsSignPart (cs : List Char) : Prop := ∃ negative, WritesSign cs negative

def IsFractionPart (cs : List Char) : Prop := ∃ fraction, WritesFraction cs fraction

def IsExponentPart (cs : List Char) : Prop := ∃ exponent, WritesExponent cs exponent

def standsInFraction (c : Char) : Bool := isPoint c || c.isDigit

def standsInPower (c : Char) : Bool := isExponentLetter c || c.isDigit

theorem head?_any_mono {cs : List Char} {is is' : Char → Bool} (h : ∀ c, is c = true → is' c = true)
    (hon : cs.head?.any is = true) : cs.head?.any is' = true := by
  cases cs with
  | nil => exact hon
  | cons c cs => exact h c hon

theorem isSignPart_iff {cs : List Char} : IsSignPart cs ↔ cs = [] ∨ ∃ c, isSign c = true ∧ cs = [c] := by
  constructor
  · rintro ⟨negative, _ | _ | _⟩
    · exact .inl rfl
    · exact .inr ⟨'+', rfl, rfl⟩
    · exact .inr ⟨'-', rfl, rfl⟩
  · rintro (rfl | ⟨c, hc, rfl⟩)
    · exact ⟨false, .absent⟩
    · rw [isSign, Bool.or_eq_true, beq_iff_eq, beq_iff_eq] at hc
      rcases hc with rfl | rfl
      · exact ⟨false, .plus⟩
      · exact ⟨true, .minus⟩

theorem takes_run_iff : Takes IsRun Char.isDigit part rest ↔
    IsRun part ∧ rest.head?.any Char.isDigit = false := by
  constructor
  · intro h
    refine ⟨h.isPart, ?_⟩
    cases rest with
    | nil => rfl
    | cons c rest =>
      refine Bool.eq_false_iff.mpr fun hc => ?_
      have hmore : IsRun (part ++ [c]) := by
        intro d hd
        rcases List.mem_append.mp hd with hd | hd
        · exact h.isPart d hd
        · exact List.mem_singleton.mp hd ▸ hc
      have hlength := h.length_le hmore (List.append_assoc part [c] rest)
      rw [List.length_append, List.length_singleton] at hlength
      omega
  · rintro ⟨hpart, hrest⟩
    refine ⟨hpart, fun hpart' heq => ?_⟩
    rcases List.append_eq_append_iff.mp heq with ⟨more, rfl, rfl⟩ | ⟨more, rfl, rfl⟩
    · cases more with
      | nil => exact .inl ⟨(List.append_nil _).symm, rfl⟩
      | cons c more =>
        refine .inr ⟨?_, hpart c (List.mem_append_right _ List.mem_cons_self)⟩
        rw [List.length_append, List.length_cons]
        omega
    · cases more with
      | nil => exact .inl ⟨List.append_nil _, rfl⟩
      | cons c more =>
        have hc : c.isDigit = true := hpart' c (List.mem_append_right _ List.mem_cons_self)
        exact absurd (hrest.symm.trans hc) Bool.false_ne_true

theorem takes_sign {c : Char} (hc : isSign c = true) (rest : List Char) :
    Takes IsSignPart isSign [c] rest := by
  refine ⟨isSignPart_iff.mpr (.inr ⟨c, hc, rfl⟩), fun hpart' heq => ?_⟩
  rcases isSignPart_iff.mp hpart' with rfl | ⟨c', -, rfl⟩
  · obtain rfl := heq
    exact .inr ⟨Nat.one_pos, hc⟩
  · obtain ⟨rfl, rfl⟩ := List.cons.inj heq
    exact .inl ⟨rfl, rfl⟩

theorem takes_no_sign (hrest : rest.head?.any isSign = false) : Takes IsSignPart isSign [] rest := by
  refine ⟨⟨false, .absent⟩, fun hpart' heq => ?_⟩
  rcases isSignPart_iff.mp hpart' with rfl | ⟨c, hc, rfl⟩
  · exact .inl ⟨rfl, heq⟩
  · obtain rfl := heq
    exact absurd (hrest.symm.trans hc) Bool.false_ne_true

theorem takes_fraction (h : Takes IsRun Char.isDigit part rest) (hne : part ≠ []) :
    Takes IsFractionPart standsInFraction ('.' :: part) rest := by
  refine ⟨⟨part, .digits ⟨hne, h.isPart⟩⟩, fun hpart' heq => ?_⟩
  obtain ⟨fraction, _ | hfraction⟩ := hpart'
  · obtain rfl := heq
    exact .inr ⟨Nat.succ_pos _, rfl⟩
  · rcases h.longest hfraction.2 (List.cons.inj heq).2 with ⟨rfl, rfl⟩ | ⟨hlt, hon⟩
    · exact .inl ⟨rfl, rfl⟩
    · have hdigit (c : Char) (hc : c.isDigit = true) : standsInFraction c = true :=
        Bool.or_eq_true_iff.mpr (.inr hc)
      exact .inr ⟨Nat.succ_lt_succ hlt, head?_any_mono hdigit hon⟩

theorem takes_no_fraction
    (hrest : ∀ c cs, rest = '.' :: c :: cs → c.isDigit = false) :
    Takes IsFractionPart standsInFraction [] rest := by
  refine ⟨⟨[], .absent⟩, fun hpart' heq => ?_⟩
  obtain ⟨fraction, _ | hfraction⟩ := hpart'
  · exact .inl ⟨rfl, heq⟩
  · obtain ⟨c, fraction, rfl⟩ := List.exists_cons_of_ne_nil hfraction.1
    have hc := hrest c _ heq.symm
    exact absurd (hc.symm.trans (hfraction.2 c List.mem_cons_self)) Bool.false_ne_true

theorem Takes.sign_eq {sign sign' digits' : List Char} {negative : Bool}
    (h : Takes IsSignPart isSign sign rest) (hsign' : WritesSign sign' negative)
    (hdigits' : IsDigits digits') (heq : sign' ++ digits' ++ rest' = sign ++ rest) :
    sign' = sign ∧ digits' ++ rest' = rest := by
  rw [List.append_assoc] at heq
  exact h.eq_of_stops ⟨negative, hsign'⟩ heq (hdigits'.head?_not isSign_eq_false)

theorem takes_exponent {sign : List Char} {letter : Char} (hletter : isExponentLetter letter = true)
    (hsign : Takes IsSignPart isSign sign (part ++ rest)) (hpart : Takes IsRun Char.isDigit part rest)
    (hne : part ≠ []) :
    Takes IsExponentPart standsInPower (letter :: (sign ++ part)) rest := by
  obtain ⟨negative, hwrites⟩ := hsign.isPart
  refine ⟨⟨_, .power hletter hwrites ⟨hne, hpart.isPart⟩⟩, fun hpart' heq => ?_⟩
  obtain ⟨exponent, _ | ⟨hletter', hsign', hdigits'⟩⟩ := hpart'
  · obtain rfl := heq
    exact .inr ⟨Nat.succ_pos _, Bool.or_eq_true_iff.mpr (.inl hletter)⟩
  · obtain ⟨rfl, htail⟩ := List.cons.inj heq
    obtain ⟨rfl, hdigits⟩ :=
      hsign.sign_eq hsign' hdigits' (htail.trans (List.append_assoc sign part rest))
    rcases hpart.longest hdigits'.2 hdigits with ⟨rfl, rfl⟩ | ⟨hlt, hon⟩
    · exact .inl ⟨rfl, rfl⟩
    · have hdigit (c : Char) (hc : c.isDigit = true) : standsInPower c = true :=
        Bool.or_eq_true_iff.mpr (.inr hc)
      refine .inr ⟨?_, head?_any_mono hdigit hon⟩
      simp only [List.length_cons, List.length_append]
      omega

theorem takes_no_exponent
    (hrest : ∀ letter cs, rest = letter :: cs → isExponentLetter letter = true →
      ∃ sign behind, cs = sign ++ behind ∧ Takes IsSignPart isSign sign behind ∧
        behind.head?.any Char.isDigit = false) :
    Takes IsExponentPart standsInPower [] rest := by
  refine ⟨⟨0, .absent⟩, fun hpart' heq => ?_⟩
  obtain ⟨exponent, _ | ⟨hletter, hsign', hdigits'⟩⟩ := hpart'
  · exact .inl ⟨rfl, heq⟩
  · obtain ⟨sign, behind, hbehind, hsign, hstop⟩ := hrest _ _ heq.symm hletter
    obtain ⟨-, rfl⟩ := hsign.sign_eq hsign' hdigits' hbehind
    obtain ⟨c, digits, rfl⟩ := List.exists_cons_of_ne_nil hdigits'.1
    exact absurd (hstop.symm.trans (hdigits'.2 c List.mem_cons_self)) Bool.false_ne_true

end Greedy

section Scans

variable {bs : List UInt8} {i : Nat} {cs : List Char}

theorem length_bytes_eq_zero_iff (cs : List Char) :
    (bytes (String.ofList cs)).length = 0 ↔ cs = [] := by
  cases cs with
  | nil => exact iff_of_true rfl rfl
  | cons c cs =>
    obtain ⟨b, tail, heq, -⟩ := exists_utf8EncodeChar_eq c
    rw [bytes_ofList_cons, heq]
    exact iff_of_false (Nat.succ_ne_zero _) (List.cons_ne_nil _ _)

/-- A scan ends behind the part that the text takes where the scan starts. -/
def Scans (IsPart : List Char → Prop) (goesOn : Char → Bool) (bs : List UInt8) (i stop : Nat) : Prop :=
  ∀ {cs}, Behind bs i cs → ∃ part rest, cs = part ++ rest ∧
    stop = i + (bytes (String.ofList part)).length ∧ Takes IsPart goesOn part rest

theorem scans_sign (bs : List UInt8) (i : Nat) : Scans IsSignPart isSign bs i (signEnd bs i) := by
  intro cs h
  rw [signEnd, h.isAt isAscii_isSign]
  split
  next hsign =>
    cases cs with
    | nil => exact nomatch hsign
    | cons c cs =>
      refine ⟨[c], cs, rfl, ?_, takes_sign hsign cs⟩
      rw [bytes_ofList_cons, List.length_append, isAscii_isSign.length_utf8EncodeChar hsign]
      rfl
  next hsign => exact ⟨[], cs, rfl, rfl, takes_no_sign (Bool.eq_false_iff.mpr hsign)⟩

theorem scans_digits (bs : List UInt8) (i : Nat) :
    Scans IsRun Char.isDigit bs i (digitsEnd bs i) := by
  intro cs h
  have hstop : (cs.dropWhile Char.isDigit).head?.any Char.isDigit = false := by
    have hnot := List.head?_dropWhile_not Char.isDigit cs
    cases hhead : (cs.dropWhile Char.isDigit).head? with
    | none => rfl
    | some c =>
      rw [hhead] at hnot
      exact hnot
  refine ⟨cs.takeWhile Char.isDigit, cs.dropWhile Char.isDigit,
    List.takeWhile_append_dropWhile.symm, ?_, takes_run_iff.mpr ⟨?_, hstop⟩⟩
  · rw [digitsEnd, h, takeWhile_bytes isAscii_isDigit]
  · exact List.all_eq_true.mp List.all_takeWhile

theorem scans_fraction (bs : List UInt8) (i : Nat) :
    Scans IsFractionPart standsInFraction bs i (fractionEnd bs i) := by
  intro cs h
  unfold fractionEnd
  split
  next hat =>
    rw [Bool.and_eq_true, h.isAt isAscii_isPoint] at hat
    obtain ⟨hpoint, hdigit⟩ := hat
    cases cs with
    | nil => exact nomatch hpoint
    | cons c cs =>
      have hnext : Behind bs (i + 1) cs := h.tail isAscii_isPoint hpoint
      obtain rfl : c = '.' := beq_iff_eq.mp hpoint
      obtain ⟨part, rest, rfl, hstop, htakes⟩ := scans_digits bs (i + 1) hnext
      have hne : part ≠ [] := by
        rintro rfl
        rw [hnext.isAt isAscii_isDigit] at hdigit
        exact absurd ((takes_run_iff.mp htakes).2.symm.trans hdigit) Bool.false_ne_true
      refine ⟨'.' :: part, rest, rfl, ?_, takes_fraction htakes hne⟩
      rw [hstop, bytes_ofList_cons, List.length_append, isAscii_isPoint.length_utf8EncodeChar hpoint,
        Nat.add_assoc]
  next hat =>
    refine ⟨[], cs, rfl, rfl, takes_no_fraction ?_⟩
    rintro c cs rfl
    have hnext : Behind bs (i + 1) (c :: cs) := h.tail isAscii_isPoint rfl
    rw [h.isAt isAscii_isPoint, hnext.isAt isAscii_isDigit] at hat
    exact Bool.eq_false_iff.mpr hat

theorem scans_exponent (bs : List UInt8) (i : Nat) :
    Scans IsExponentPart standsInPower bs i (exponentEnd bs i) := by
  intro cs h
  unfold exponentEnd
  rw [h.isAt isAscii_isExponentLetter]
  split
  next hletter =>
    cases cs with
    | nil => exact nomatch hletter
    | cons c cs =>
      have hnext : Behind bs (i + 1) cs := h.tail isAscii_isExponentLetter hletter
      obtain ⟨sign, behind, rfl, hstart, hsign⟩ := scans_sign bs (i + 1) hnext
      have hbehind : Behind bs (signEnd bs (i + 1)) behind := hstart ▸ hnext.drop
      obtain ⟨part, rest, rfl, hstop, hpart⟩ := scans_digits bs _ hbehind
      dsimp only
      split
      next hlt =>
        have hne : part ≠ [] := by
          rintro rfl
          exact absurd (hstop ▸ hlt) (Nat.lt_irrefl _)
        refine ⟨c :: (sign ++ part), rest, ?_, ?_, takes_exponent hletter hsign hpart hne⟩
        · rw [List.cons_append, List.append_assoc]
        · rw [hstop, hstart, bytes_ofList_cons, bytes_ofList_append, List.length_append,
            List.length_append, isAscii_isExponentLetter.length_utf8EncodeChar hletter]
          omega
      next hle =>
        obtain rfl : part = [] := (length_bytes_eq_zero_iff part).mp (by omega)
        refine ⟨[], _, rfl, rfl, takes_no_exponent ?_⟩
        intro letter cs heq hletter'
        obtain ⟨-, rfl⟩ := List.cons.inj heq
        exact ⟨sign, rest, rfl, hsign, (takes_run_iff.mp hpart).2⟩
  next hletter =>
    refine ⟨[], cs, rfl, rfl, takes_no_exponent ?_⟩
    rintro letter cs rfl hletter'
    exact absurd hletter' hletter

end Scans

section Longest

variable {cs p sign whole fraction power rest rest' : List Char} {negative : Bool} {numeral : Numeral}

/-- The longest front of a text that is a number, with its sign and its digits. -/
structure LongestNumber (cs p : List Char) (negative : Bool) (numeral : Numeral) : Prop where
  front : p <+: cs
  writes : Writes p negative numeral
  longest : ∀ {q negative' numeral'}, q <+: cs → Writes q negative' numeral' → q.length ≤ p.length

structure Parts (sign whole fraction power rest : List Char) : Prop where
  sign : Takes IsSignPart isSign sign (whole ++ (fraction ++ (power ++ rest)))
  whole : Takes IsRun Char.isDigit whole (fraction ++ (power ++ rest))
  fraction : Takes IsFractionPart standsInFraction fraction (power ++ rest)
  power : Takes IsExponentPart standsInPower power rest

theorem Parts.exists_writes (h : Parts sign whole fraction power rest)
    (hne : whole ≠ [] ∨ fraction ≠ []) :
    ∃ negative numeral, Writes (sign ++ (whole ++ (fraction ++ power))) negative numeral := by
  obtain ⟨negative, hsign⟩ := h.sign.isPart
  obtain ⟨behind, hfraction⟩ := h.fraction.isPart
  obtain ⟨exponent, hpower⟩ := h.power.isPart
  have hdigits : WritesDigits (whole ++ fraction) whole behind :=
    writesDigits_iff.mpr ⟨fraction, rfl, h.whole.isPart, hfraction, hne⟩
  refine ⟨negative, ⟨whole, behind, exponent⟩, ?_⟩
  rw [← List.append_assoc whole]
  exact .number hsign hdigits hpower

theorem Parts.length_le (h : Parts sign whole fraction power rest) (hp : Writes p negative numeral)
    (heq : p ++ rest' = sign ++ (whole ++ (fraction ++ (power ++ rest)))) :
    p.length ≤ (sign ++ (whole ++ (fraction ++ power))).length ∧ (whole ≠ [] ∨ fraction ≠ []) := by
  obtain ⟨hsign', hdigits', hpower'⟩ := hp
  rw [List.append_assoc, List.append_assoc] at heq
  obtain ⟨rfl, hunsigned⟩ := h.sign.eq_of_stops ⟨_, hsign'⟩ heq
    (hdigits'.head?_not isSign_eq_false rfl)
  obtain ⟨part, rfl, hwhole', hpart, hne⟩ := writesDigits_iff.mp hdigits'
  rw [List.append_assoc] at hunsigned
  simp only [List.length_append]
  rcases h.whole.longest hwhole' hunsigned with ⟨rfl, hbehind⟩ | ⟨hlt, hon⟩
  · rcases h.fraction.longest ⟨_, hpart⟩ hbehind with ⟨rfl, hlast⟩ | ⟨hlt, hon⟩
    · have hlength := h.power.length_le ⟨_, hpower'⟩ hlast
      exact ⟨by omega, hne⟩
    · -- A digit or a point behind a shorter fraction leaves no place for a power.
      obtain rfl := hpower'.eq_nil_of_head? rfl rfl hon
      refine ⟨by rw [List.length_nil]; omega, .inr ?_⟩
      exact List.ne_nil_of_length_pos (Nat.zero_lt_of_lt hlt)
  · -- A digit behind a shorter whole part leaves no place for a fraction either.
    obtain rfl := hpart.eq_nil_of_head? rfl hon
    obtain rfl := hpower'.eq_nil_of_head? rfl rfl hon
    refine ⟨by simp only [List.length_nil]; omega, .inl ?_⟩
    exact List.ne_nil_of_length_pos (Nat.zero_lt_of_lt hlt)

theorem Parts.longestNumber (h : Parts sign whole fraction power rest)
    (hp : Writes (sign ++ (whole ++ (fraction ++ power))) negative numeral) :
    LongestNumber (sign ++ (whole ++ (fraction ++ (power ++ rest))))
      (sign ++ (whole ++ (fraction ++ power))) negative numeral where
  front := ⟨rest, by simp only [List.append_assoc]⟩
  writes := hp
  longest := fun ⟨_, heq⟩ hq => (h.length_le hq heq).1

theorem exists_parts (cs : List Char) :
    ∃ sign whole fraction power rest, cs = sign ++ (whole ++ (fraction ++ (power ++ rest))) ∧
      Parts sign whole fraction power rest ∧
      numberEnd? (bytes (String.ofList cs)) =
        if whole = [] ∧ fraction = [] then none
        else some (bytes (String.ofList (sign ++ (whole ++ (fraction ++ power))))).length := by
  generalize hbs : bytes (String.ofList cs) = bs
  have hstart : Behind bs 0 cs := hbs.symm
  obtain ⟨sign, cs, rfl, hsignEnd, hsign⟩ := scans_sign bs 0 hstart
  have hbehind : Behind bs (signEnd bs 0) cs := hsignEnd ▸ hstart.drop
  obtain ⟨whole, cs, rfl, hdigitsEnd, hwhole⟩ := scans_digits bs _ hbehind
  have hbehind : Behind bs (digitsEnd bs (signEnd bs 0)) cs := hdigitsEnd ▸ hbehind.drop
  obtain ⟨fraction, cs, rfl, hfractionEnd, hfraction⟩ := scans_fraction bs _ hbehind
  have hbehind : Behind bs (fractionEnd bs (digitsEnd bs (signEnd bs 0))) cs :=
    hfractionEnd ▸ hbehind.drop
  obtain ⟨power, rest, rfl, hexponentEnd, hpower⟩ := scans_exponent bs _ hbehind
  refine ⟨sign, whole, fraction, power, rest, rfl, ⟨hsign, hwhole, hfraction, hpower⟩, ?_⟩
  have hempty : fractionEnd bs (digitsEnd bs (signEnd bs 0)) = signEnd bs 0 ↔
      whole = [] ∧ fraction = [] := by
    rw [hfractionEnd, hdigitsEnd, ← length_bytes_eq_zero_iff whole,
      ← length_bytes_eq_zero_iff fraction]
    omega
  have hstop : exponentEnd bs (fractionEnd bs (digitsEnd bs (signEnd bs 0))) =
      (bytes (String.ofList (sign ++ (whole ++ (fraction ++ power))))).length := by
    rw [hexponentEnd, hfractionEnd, hdigitsEnd, hsignEnd]
    simp only [bytes_ofList_append, List.length_append]
    omega
  rw [numberEnd?, hstop]
  exact if_congr hempty rfl rfl

theorem numberEnd?_longest (cs : List Char) :
    (∃ p negative numeral, LongestNumber cs p negative numeral ∧
        numberEnd? (bytes (String.ofList cs)) = some (bytes (String.ofList p)).length) ∨
      (∀ p negative numeral, p <+: cs → ¬ Writes p negative numeral) ∧
        numberEnd? (bytes (String.ofList cs)) = none := by
  obtain ⟨sign, whole, fraction, power, rest, rfl, hparts, hend⟩ := exists_parts cs
  rw [hend]
  by_cases hempty : whole = [] ∧ fraction = []
  · refine .inr ⟨?_, if_pos hempty⟩
    rintro p negative numeral ⟨rest', heq⟩ hp
    exact (hparts.length_le hp heq).2.elim (fun h => h hempty.1) fun h => h hempty.2
  · obtain ⟨negative, numeral, hp⟩ := hparts.exists_writes (not_and_or.mp hempty)
    exact .inl ⟨_, negative, numeral, hparts.longestNumber hp, if_neg hempty⟩

end Longest

end JsonRules.Text

namespace JsonRules.Value

open Text

variable {s : String} {p : List Char} {negative : Bool} {numeral : Numeral}

theorem upTo?_of_front {cs : List Char} (h : p <+: cs) :
    upTo? (String.ofList cs) (bytes (String.ofList p)).length = some (String.ofList p) := by
  obtain ⟨rest, rfl⟩ := h
  rw [String.ofList_append]
  exact upTo?_append _ _

theorem toNumber_string_of_front (hfront : p <+: s.toList.dropWhile isBlank)
    (hend : numberEnd? (bytes (String.ofList (s.toList.dropWhile isBlank))) =
      some (bytes (String.ofList p)).length)
    (hp : Writes p negative numeral) :
    (Value.string s).toNumber = numeral.decimal.rounded negative := by
  rw [toNumber, leadingNumber, hend]
  dsimp only
  rw [upTo?_of_front hfront, Option.bind_some, number?_of_writes hp, Option.getD_some]

theorem toNumber_string_of_writes (h : Writes s.toList negative numeral) :
    (Value.string s).toNumber = numeral.decimal.rounded negative := by
  have htext : s.toList.dropWhile isBlank = s.toList := h.dropWhile_isBlank
  have hfront : s.toList <+: s.toList.dropWhile isBlank := ⟨[], by rw [List.append_nil, htext]⟩
  refine toNumber_string_of_front hfront ?_ h
  rw [htext]
  rcases numberEnd?_longest s.toList with ⟨p, negative', numeral', hp, hend⟩ | ⟨hnone, -⟩
  · have hall : p = s.toList := hp.front.eq_of_length_le (hp.longest (List.prefix_refl _) h)
    rwa [hall] at hend
  · exact absurd h (hnone _ _ _ (List.prefix_refl _))

/-- A text counts as the longest number that it starts with behind blanks, and as 0 if it starts with none.
That number ends between two characters, and the reading of it does not fail. -/
theorem toNumber_string_longest (s : String) :
    let text := s.toList.dropWhile isBlank
    let stop? := numberEnd? (bytes (String.ofList text))
    (∃ p negative numeral, LongestNumber text p negative numeral ∧
        stop? = some (bytes (String.ofList p)).length ∧
        upTo? (String.ofList text) (bytes (String.ofList p)).length = some (String.ofList p) ∧
        Text.number? (String.ofList p) = some (numeral.decimal.rounded negative) ∧
        (Value.string s).toNumber = numeral.decimal.rounded negative) ∨
      (∀ p negative numeral, p <+: text → ¬ Writes p negative numeral) ∧
        stop? = none ∧ (Value.string s).toNumber = 0 := by
  intro text stop?
  rcases numberEnd?_longest text with ⟨p, negative, numeral, hp, hend⟩ | ⟨hnone, hend⟩
  · exact .inl ⟨p, negative, numeral, hp, hend, upTo?_of_front hp.front, number?_of_writes hp.writes,
      toNumber_string_of_front hp.front hend hp.writes⟩
  · refine .inr ⟨hnone, hend, ?_⟩
    rw [toNumber, leadingNumber, hend]

example : (Value.string "\u00A0+.5e1é").toNumber = 5 ∧ (Value.string "7.e3").toNumber = 7 ∧
    (Value.string "2e+").toNumber = 2 := by
  decide +kernel

end JsonRules.Value
