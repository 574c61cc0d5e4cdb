import Lox.Proofs.ReadBack
import Lox.Proofs.Runs
import Lox.Token.Segment
import Lox.Value

/-!
# The texts of numbers

A decimal is written as a numeral, digits with a point between them or without one, and in
scientific notation a mark and a power of ten behind it. Where the digits end can be seen from the
characters that follow, so a text gives its digits back, these the decimal, and the decimal the
double of which it is the shortest one.

## Key results

- `Decimal.spelled_positional`, `Decimal.spelled_value`: which numerals the layouts yield
- `Magnitude.text_value_injective`: finite doubles with one text are the same
- `numberText_eq_iff_same`: numbers print alike just if they are equal
-/

namespace Lox

/-! ## Digits -/

/-- The digits of a number give the number. -/
theorem digitsValue_toDigits (n : Nat) : digitsValue (Nat.toDigits 10 n) = n :=
  Nat.ofDigitChars_ten_toDigits

/-- The value of digits that stand one behind the other. -/
theorem digitsValue_append (xs ys : List Char) :
    digitsValue (xs ++ ys) = 10 ^ ys.length * digitsValue xs + digitsValue ys :=
  (Nat.ofDigitChars_append 0).trans Nat.ofDigitChars_eq_ofDigitChars_zero

/-- Zeros have the value zero. -/
theorem digitsValue_replicate_zero (n : Nat) : digitsValue (List.replicate n '0') = 0 :=
  Nat.ofDigitChars_replicate_zero

/-- The digits of a number are digits. -/
theorem isDigit_of_mem_toDigits {n : Nat} {c : Char} (h : c ∈ Nat.toDigits 10 n) :
    Segment.isDigit c := by
  have hdigit := Nat.isDigit_of_mem_toDigits (by decide) (by decide) h
  simp only [Char.isDigit, Bool.and_eq_true, decide_eq_true_eq] at hdigit
  simp only [Segment.isDigit, Bool.and_eq_true, decide_eq_true_eq]
  exact hdigit

/-! ## Numerals -/

/-- The digits before and behind a point; without any behind it there is no point. -/
def numeral (whole fraction : List Char) : List Char :=
  if fraction.isEmpty then whole else whole ++ '.' :: fraction

/-- What stands behind the whole part of a numeral that is followed by a text. -/
def behindWhole (fraction after : List Char) : List Char :=
  if fraction.isEmpty then after else '.' :: fraction ++ after

/-- A numeral in front of a text is its whole part in front of the rest. -/
theorem numeral_append (whole fraction after : List Char) :
    numeral whole fraction ++ after = whole ++ behindWhole fraction after := by
  unfold numeral behindWhole
  split
  · rfl
  · rw [List.append_assoc, List.cons_append]

/-- Behind the whole part of a numeral there is no digit. -/
theorem head_behindWhole {fraction after : List Char}
    (hafter : ∀ c ∈ after.head?, ¬ Segment.isDigit c ∧ c ≠ '.') :
    ∀ c ∈ (behindWhole fraction after).head?, ¬ Segment.isDigit c := by
  unfold behindWhole
  intro c hc
  split at hc
  · exact (hafter c hc).1
  · obtain rfl : '.' = c := by simpa using hc
    decide

/-- The parts of a numeral consist of digits, and there are some before the point. -/
structure Digits (whole fraction : List Char) : Prop where
  whole_ne_nil : whole ≠ []
  isDigit_whole : ∀ c ∈ whole, Segment.isDigit c
  isDigit_fraction : ∀ c ∈ fraction, Segment.isDigit c

/-- The parts of a numeral that counts in the unit stand for a point. -/
structure Spells (unit : Nat) (whole fraction : List Char) (point : Nat) : Prop
    extends Digits whole fraction where
  value : digitsValue (whole ++ fraction) * unit = point * 10 ^ fraction.length

/-- Digits stand for one number only. -/
theorem Spells.point_unique {unit point point' : Nat} {whole fraction : List Char}
    (h : Spells unit whole fraction point) (h' : Spells unit whole fraction point') :
    point = point' :=
  Nat.eq_of_mul_eq_mul_right (Nat.pow_pos (by decide)) (h.value.symm.trans h'.value)

namespace Digits

variable {whole whole' fraction fraction' : List Char}

/-- A numeral starts with a digit. -/
theorem exists_digit (h : Digits whole fraction) :
    ∃ c rest, numeral whole fraction = c :: rest ∧ Segment.isDigit c := by
  obtain ⟨c, rest, rfl⟩ := List.exists_cons_of_ne_nil h.whole_ne_nil
  have hc := h.isDigit_whole c (by simp)
  unfold numeral
  split
  · exact ⟨c, rest, rfl, hc⟩
  · exact ⟨c, rest ++ '.' :: fraction, rfl, hc⟩

/-- What stands behind a numeral shows where it ends. -/
theorem numeral_append_inj (h : Digits whole fraction) (h' : Digits whole' fraction')
    {after after' : List Char} (hafter : ∀ c ∈ after.head?, ¬ Segment.isDigit c ∧ c ≠ '.')
    (hafter' : ∀ c ∈ after'.head?, ¬ Segment.isDigit c ∧ c ≠ '.')
    (heq : numeral whole fraction ++ after = numeral whole' fraction' ++ after') :
    whole = whole' ∧ fraction = fraction' ∧ after = after' := by
  rw [numeral_append, numeral_append] at heq
  obtain ⟨hwhole, hrest⟩ := run_append_inj h.isDigit_whole h'.isDigit_whole
    (head_behindWhole hafter) (head_behindWhole hafter') heq
  -- a point starts what follows just if there is a fraction
  have hpoint : ∀ {fraction after after' : List Char},
      (∀ c ∈ after'.head?, ¬ Segment.isDigit c ∧ c ≠ '.') → '.' :: fraction ++ after ≠ after' := by
    rintro fraction after _ hafter rfl
    exact (hafter '.' rfl).2 rfl
  refine ⟨hwhole, ?_⟩
  by_cases hf : fraction = [] <;> by_cases hf' : fraction' = [] <;>
    simp only [behindWhole, hf, hf', List.isEmpty_nil, List.isEmpty_iff, if_true, if_false] at hrest
  · exact ⟨hf.trans hf'.symm, hrest⟩
  · exact absurd hrest.symm (hpoint hafter)
  · exact absurd hrest (hpoint hafter')
  · exact run_append_inj h.isDigit_fraction h'.isDigit_fraction (fun c hc => (hafter c hc).1)
      (fun c hc => (hafter' c hc).1) (List.cons.inj hrest).2

end Digits

namespace Decimal

/-- So many powers of ten more make up for so many less in the exponent. -/
theorem point_mul_pow {d : Decimal} {n : Nat} (k : Nat) (h : -1076 ≤ d.exponent)
    (hk : d.exponent + k = n) :
    d.point * 10 ^ k = d.coefficient * 10 ^ n * 10 ^ 1076 := by
  rw [point, Nat.mul_assoc, Nat.mul_assoc, ← Nat.pow_add, ← Nat.pow_add]
  congr 2
  omega

/-- A decimal in positional notation is a numeral of its digits. -/
theorem spelled_positional {d : Decimal} (h : -1076 ≤ d.exponent) : ∃ whole fraction,
    (d.positional "").toList = numeral whole fraction ∧
      Spells (10 ^ 1076) whole fraction d.point := by
  obtain ⟨coefficient, exponent⟩ := d
  have hzeros : ∀ n, ∀ c ∈ List.replicate n '0', Segment.isDigit c := by
    intro n c hc
    rw [(List.mem_replicate.mp hc).2]
    decide
  cases exponent with
  | ofNat zeros =>
    -- zeros are written behind the digits, and there is no point
    refine ⟨Nat.toDigits 10 coefficient ++ List.replicate zeros '0', [], ?_, ⟨?_, ?_, ?_⟩, ?_⟩
    · simp [positional, digits, numeral]
    · simp [Nat.toDigits_ne_nil]
    · exact List.forall_mem_append.mpr ⟨fun c => isDigit_of_mem_toDigits, hzeros zeros⟩
    · simp
    · rw [List.length_nil, point_mul_pow (n := zeros) 0 h (Int.add_zero _), List.append_nil,
        digitsValue_append, digitsValue_toDigits, digitsValue_replicate_zero,
        List.length_replicate, Nat.add_zero, Nat.mul_comm (10 ^ zeros)]
  | negSucc n =>
    -- enough zeros stand before the digits for one of them before the point
    obtain ⟨padded, hpadded⟩ : ∃ padded, padded = List.replicate
        (n + 1 + 1 - (Nat.toDigits 10 coefficient).length) '0' ++ Nat.toDigits 10 coefficient :=
      ⟨_, rfl⟩
    have hlength : n + 1 < padded.length := by
      rw [hpadded, List.length_append, List.length_replicate]
      omega
    have hvalue : digitsValue padded = coefficient := by
      rw [hpadded, digitsValue_append, digitsValue_toDigits, digitsValue_replicate_zero,
        Nat.mul_zero, Nat.zero_add]
    have hdigits : ∀ c ∈ padded, Segment.isDigit c := by
      rw [hpadded]
      exact List.forall_mem_append.mpr ⟨hzeros _, fun c => isDigit_of_mem_toDigits⟩
    have hfraction : (padded.drop (padded.length - (n + 1))).length = n + 1 := by
      rw [List.length_drop]
      omega
    have hwhole : (padded.take (padded.length - (n + 1))).length ≠ 0 := by
      rw [List.length_take]
      omega
    have hsum : Int.negSucc n + (n + 1 : Nat) = (0 : Nat) := by omega
    refine ⟨padded.take (padded.length - (n + 1)), padded.drop (padded.length - (n + 1)),
      ?_, ⟨?_, ?_, ?_⟩, ?_⟩
    · have hne : (padded.drop (padded.length - (n + 1))).isEmpty = false := by
        rw [List.isEmpty_eq_false_iff, ← List.length_pos_iff]
        omega
      rw [numeral, hne, hpadded]
      simp [positional, digits]
    · exact fun hnil => hwhole (by rw [hnil, List.length_nil])
    · exact fun c hc => hdigits c (List.mem_of_mem_take hc)
    · exact fun c hc => hdigits c (List.mem_of_mem_drop hc)
    · rw [List.take_append_drop, hvalue, hfraction, point_mul_pow (n := 0) (n + 1) h hsum,
        Nat.pow_zero, Nat.mul_one]

/-- The characters of a number in scientific notation. -/
private theorem toList_mark (significand : String) (e : Int) :
    (match e with
      | .ofNat n => significand ++ "E" ++ toString n
      | .negSucc n => significand ++ "E-" ++ toString (n + 1)).toList =
        significand.toList ++ 'E' :: (toString e).toList := by
  -- `toString` writes the sign, so the two marks differ in nothing else
  cases e with
  | ofNat n =>
    have htext : toString (Int.ofNat n) = toString n := rfl
    rw [htext]
    simp
  | negSucc n =>
    have htext : toString (Int.negSucc n) = "-" ++ toString (n + 1) := rfl
    rw [htext]
    simp

/-- In scientific notation the numeral counts in units of the leading digit. -/
theorem spelled_scientific {d : Decimal} (h : -1076 ≤ d.exponent) : ∃ whole fraction,
    (d.scientific .value).toList =
        numeral whole fraction ++ 'E' :: (toString d.leadingExponent).toList ∧
      Spells (10 ^ (d.leadingExponent + 1076).toNat) whole fraction d.point := by
  have hdigits : ∀ c ∈ d.digits, Segment.isDigit c := fun c => isDigit_of_mem_toDigits
  have hvalue : digitsValue d.digits = d.coefficient := digitsValue_toDigits _
  have hleading : d.leadingExponent = d.exponent + d.digits.length - 1 := rfl
  -- all digits but the first one are behind the point, so the unit is greater by as many powers
  have hscale : ∀ n : Nat, d.leadingExponent = d.exponent + n →
      10 ^ (d.leadingExponent + 1076).toNat = 10 ^ (d.exponent + 1076).toNat * 10 ^ n := by
    intro n hn
    rw [hn, ← Nat.pow_add]
    congr 1
    omega
  cases hd : d.digits with
  | nil => exact absurd hd Nat.toDigits_ne_nil
  | cons first rest =>
    rw [hd] at hdigits hvalue hleading
    obtain ⟨hfirst, hrest⟩ := List.forall_mem_cons.mp hdigits
    cases rest with
    | nil =>
      -- a single digit is written with a fraction of zero
      refine ⟨[first], ['0'], ?_, ⟨List.cons_ne_nil _ _, by simpa using hfirst,
        List.forall_mem_singleton.mpr (by decide)⟩, ?_⟩
      · simp only [scientific, hd, Layout.value]
        refine (toList_mark _ _).trans ?_
        simp [numeral]
      · rw [hscale 0 (by simpa using hleading), digitsValue_append, hvalue, point]
        simp [digitsValue]
        ring
    | cons second rest =>
      refine ⟨[first], second :: rest, ?_,
        ⟨List.cons_ne_nil _ _, by simpa using hfirst, hrest⟩, ?_⟩
      · simp only [scientific, hd, Layout.value]
        refine (toList_mark _ _).trans ?_
        simp [numeral]
      · rw [hscale (second :: rest).length (by rw [hleading, List.length_cons]; omega),
          List.singleton_append, hvalue, point, Nat.mul_assoc]

/-- What stands behind a numeral, if it does not count in ones. -/
def exponentText : Option Int → List Char
  | none => []
  | some e => 'E' :: (toString e).toList

/-- The exponent can be read off its text. -/
theorem exponentText_injective {mark mark' : Option Int}
    (h : exponentText mark = exponentText mark') : mark = mark' := by
  cases mark <;> cases mark' <;> simp only [exponentText, reduceCtorEq] at h
  · rfl
  · rename_i e e'
    rw [List.cons.injEq, String.toList_inj, Int.toString_eq_repr, Int.toString_eq_repr,
      Int.repr_inj] at h
    rw [h.2]

/-- An exponent starts with neither a digit nor a point. -/
theorem head_exponentText (mark : Option Int) :
    ∀ c ∈ (exponentText mark).head?, ¬ Segment.isDigit c ∧ c ≠ '.' := by
  intro c hc
  cases mark with
  | none => cases hc
  | some e =>
    obtain rfl : 'E' = c := by simpa [exponentText] using hc
    decide

/-- As programs print it, a decimal is a numeral, alone or with an exponent. -/
theorem spelled_value {d : Decimal} (h : -1076 ≤ d.exponent) : ∃ mark whole fraction,
    (d.text .value).toList = numeral whole fraction ++ exponentText mark ∧
      Spells (10 ^ (mark.getD 0 + 1076).toNat) whole fraction d.point := by
  unfold text
  split
  · obtain ⟨whole, fraction, htext, hspells⟩ := spelled_positional h
    have hunit : ((none : Option Int).getD 0 + 1076).toNat = 1076 := rfl
    exact ⟨none, whole, fraction, htext.trans (List.append_nil _).symm, by rwa [hunit]⟩
  · obtain ⟨whole, fraction, htext, hspells⟩ := spelled_scientific h
    exact ⟨some d.leadingExponent, whole, fraction, htext, hspells⟩

/-- Decimals that are printed alike are the same number. -/
theorem point_eq_of_text_value {d d' : Decimal} (h : -1076 ≤ d.exponent) (h' : -1076 ≤ d'.exponent)
    (heq : d.text .value = d'.text .value) : d.point = d'.point := by
  obtain ⟨mark, whole, fraction, htext, hspells⟩ := spelled_value h
  obtain ⟨mark', whole', fraction', htext', hspells'⟩ := spelled_value h'
  -- neither the end of a text nor the mark of an exponent continues a numeral
  obtain ⟨rfl, rfl, hmark⟩ := hspells.numeral_append_inj hspells'.toDigits (head_exponentText mark)
    (head_exponentText mark') (by rw [← htext, heq, htext'])
  rw [exponentText_injective hmark] at hspells
  exact hspells.point_unique hspells'

end Decimal

/-- Finite doubles that are printed alike have the same magnitude. -/
theorem Magnitude.text_value_injective {tie : TieRule} {x y : Magnitude} (hx : x.WellFormed)
    (hy : y.WellFormed) (h : (x.shortest tie).text .value = (y.shortest tie).text .value) : x = y :=
  eq_of_point_shortest hx hy
    (Decimal.point_eq_of_text_value (le_exponent_shortest x tie) (le_exponent_shortest y tie) h)

/-! ## The texts of doubles -/

namespace Double

/-- Is a double printed with a sign? -/
def signed : Double → Bool
  | nan => false
  | infinite negative | finite negative _ => negative

/-- What is printed of a double behind the sign. -/
def unsignedText : Double → String
  | nan => "NaN"
  | infinite _ => "Infinity"
  | finite _ magnitude => (magnitude.shortest .up).text .value

end Double

/-- The text of a number is that of its magnitude, behind its sign. -/
theorem numberText_eq (x : Float) : numberText x =
    (if (Double.ofFloat x).signed then "-" else "") ++ (Double.ofFloat x).unsignedText := by
  unfold numberText
  cases Double.ofFloat x with
  | nan => rfl
  | infinite negative => cases negative <;> rfl
  | finite negative magnitude => rfl

namespace Double

/-- A finite double starts with a digit, behind its sign. -/
theorem unsignedText_finite (negative : Bool) (m : Magnitude) :
    ∃ c rest, (finite negative m).unsignedText.toList = c :: rest ∧ Segment.isDigit c := by
  obtain ⟨mark, whole, fraction, htext, hspells⟩ :=
    Decimal.spelled_value (m.le_exponent_shortest .up)
  obtain ⟨c, rest, hnumeral, hc⟩ := hspells.exists_digit
  exact ⟨c, rest ++ Decimal.exponentText mark, by rw [unsignedText, htext, hnumeral]; rfl, hc⟩

/-- No double has two signs. -/
theorem head_unsignedText (d : Double) : d.unsignedText.toList.head? ≠ some '-' := by
  cases d with
  | nan => decide
  | infinite => decide +revert
  | finite negative m =>
    obtain ⟨c, rest, htext, hc⟩ := unsignedText_finite negative m
    rw [htext]
    intro hhead
    obtain rfl : c = '-' := by simpa using hhead
    exact absurd hc (by decide)

/-- The sign and the magnitude can be read off the text of a number. -/
theorem signed_append_inj {d d' : Double}
    (h : (if d.signed then "-" else "") ++ d.unsignedText =
      (if d'.signed then "-" else "") ++ d'.unsignedText) :
    d.signed = d'.signed ∧ d.unsignedText = d'.unsignedText := by
  -- a minus in front of one text would be the first character of the other one
  have hne : ∀ d d' : Double, "-" ++ d.unsignedText ≠ "" ++ d'.unsignedText := by
    intro d d' h
    have hlist := congrArg (fun text => text.toList.head?) h
    simp only [String.toList_append] at hlist
    exact head_unsignedText d' hlist.symm
  cases hd : d.signed <;> cases hd' : d'.signed <;>
    simp only [hd, hd', if_true, if_false, Bool.false_eq_true] at h
  · exact ⟨rfl, (String.append_right_inj _).mp h⟩
  · exact absurd h.symm (hne d' d)
  · exact absurd h (hne d d')
  · exact ⟨rfl, (String.append_right_inj _).mp h⟩

end Double

/-- Doubles that are printed alike are the same. -/
theorem numberText_injective {x y : Float} (h : numberText x = numberText y) : x = y := by
  rw [numberText_eq, numberText_eq] at h
  obtain ⟨hsigned, htext⟩ := Double.signed_append_inj h
  refine Double.ofFloat_injective ?_
  have hfinite : ∀ negative m, (Double.finite negative m).unsignedText ≠ "NaN" ∧
      (Double.finite negative m).unsignedText ≠ "Infinity" := by
    intro negative m
    obtain ⟨c, rest, hchars, hc⟩ := Double.unsignedText_finite negative m
    refine ⟨?_, ?_⟩ <;> intro h <;> rw [h] at hchars <;> obtain ⟨rfl, -⟩ := List.cons.inj hchars <;>
      exact absurd hc (by decide)
  have hapart : "NaN" ≠ "Infinity" := by decide
  -- the kind of a double can be seen from its text, and then only two of one kind are left
  cases hx : Double.ofFloat x <;> cases hy : Double.ofFloat y <;> rw [hx, hy] at hsigned htext
  case infinite.infinite => exact congrArg Double.infinite hsigned
  case finite.finite =>
    rw [Magnitude.text_value_injective (Double.wellFormed_of_finite hx)
      (Double.wellFormed_of_finite hy) htext]
    exact congrArg (Double.finite · _) hsigned
  case nan.infinite => exact absurd htext hapart
  case infinite.nan => exact absurd htext.symm hapart
  case nan.finite => exact absurd htext.symm (hfinite _ _).1
  case infinite.finite => exact absurd htext.symm (hfinite _ _).2
  case finite.nan => exact absurd htext (hfinite _ _).1
  case finite.infinite => exact absurd htext (hfinite _ _).2

/-- The texts of two numbers are the same just if the numbers are equal, and these are if both are
    no numbers or they have the same bits. -/
theorem numberText_eq_iff_same (a b : UInt64) :
    (numberText (.ofBits a) = numberText (.ofBits b) ↔
      (Value.number (.ofBits a)).same (.number (.ofBits b)) = true) ∧
    ((Value.number (.ofBits a)).same (.number (.ofBits b)) = true ↔
      Double.IsNaN a ∧ Double.IsNaN b ∨ a = b) := by
  have hsame : (Value.number (.ofBits a)).same (.number (.ofBits b)) = true ↔
      Float.ofBits a = Float.ofBits b := decide_eq_true_iff
  rw [hsame]
  refine ⟨⟨numberText_injective, congrArg numberText⟩, ?_⟩
  rw [Double.ofBits_eq_iff, or_comm]

end Lox
