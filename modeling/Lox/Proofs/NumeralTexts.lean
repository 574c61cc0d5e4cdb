import Lox.Machine.Eval
import Lox.Program
import Lox.Proofs.NumberTexts
import Lox.Proofs.ScanCorrect
import Lox.Syntax.Text

/-!
# Numbers read back

The three texts of numbers, in the column of a token, in a printed tree and in the output of a
program, are numerals as the scanner reads them, the last one as long as it has no exponent. What
is read is the number again.

## Key results

- `ReadAs.of_contains`: what a numeral is read as
- `Segment.ofText_readAs`: a numeral is a segment of its own
- `Token.readAs_numberText`, `Literal.readAs_numberText`, `readAs_numberText`: the three texts
- `numberTexts_readBack`: scanning and evaluating them
-/

namespace Lox

/-! ## Numerals -/

/-- The text is a numeral that is read as the double. -/
def ReadAs (text : List Char) (x : Float) : Prop :=
  ∃ whole fraction, Digits whole fraction ∧ numeral whole fraction = text ∧
    floatOfDigits whole fraction = x

namespace ReadAs

variable {text : List Char} {x y : Float}

/-- A numeral in the interval of a double is read as the double. -/
theorem of_contains {m : Magnitude} (hx : Double.ofFloat x = .finite false m)
    {whole fraction : List Char} {point : Nat} (h : Spells (10 ^ 1076) whole fraction point)
    (hpoint : (Interval.ofMagnitude m).contains point) : ReadAs (numeral whole fraction) x :=
  have hpos : 0 < 10 ^ fraction.length := Nat.pow_pos (by decide)
  ⟨whole, fraction, h.toDigits, rfl, (floatOfDigits_rounds whole fraction).unique hpos
    (.of_contains hx hpos h.value.symm hpoint)⟩

/-- Numerals consist of digits and points. -/
theorem isDigit_or_point (h : ReadAs text x) : ∀ c ∈ text, Segment.isDigit c ∨ c = '.' := by
  obtain ⟨whole, fraction, h, rfl, -⟩ := h
  intro c hc
  unfold numeral at hc
  split at hc
  · exact .inl (h.isDigit_whole c hc)
  · rcases List.mem_append.mp hc with hc | hc
    · exact .inl (h.isDigit_whole c hc)
    · rcases List.mem_cons.mp hc with rfl | hc
      · exact .inr rfl
      · exact .inl (h.isDigit_fraction c hc)

/-- A numeral is not empty. -/
theorem ne_nil (h : ReadAs text x) : text ≠ [] := by
  obtain ⟨whole, fraction, h, rfl, -⟩ := h
  obtain ⟨c, rest, htext, -⟩ := h.exists_digit
  rw [htext]
  exact List.cons_ne_nil c rest

/-- A numeral has no line end in it. -/
theorem count_newline (h : ReadAs text x) : text.count '\n' = 0 := by
  refine List.count_eq_zero.mpr fun hmem => ?_
  rcases h.isDigit_or_point _ hmem with hc | hc
  · exact absurd hc (by decide)
  · exact absurd hc (by decide)

end ReadAs

namespace Segment

/-- A numeral is a segment, up to what cannot belong to it. -/
theorem ofText_readAs {text : List Char} {x : Float} (h : ReadAs text x) {after : List Char}
    (hafter : ∀ c ∈ after.head?, ¬ isDigit c ∧ c ≠ '.') :
    ofText (text ++ after) = ⟨.lexeme (.number x), text⟩ :: ofText after := by
  obtain ⟨whole, fraction, h, rfl, rfl⟩ := h
  obtain ⟨c, whole, rfl⟩ := List.exists_cons_of_ne_nil h.whole_ne_nil
  obtain ⟨hc, hwhole⟩ := List.forall_mem_cons.mp h.isDigit_whole
  have hslash : c ≠ '/' := by
    rintro rfl
    exact absurd hc (by decide)
  obtain ⟨-, hquote, hblank⟩ := isDigit_apart hc
  obtain ⟨htake, hdrop⟩ := takeWhile_run hwhole (head_behindWhole hafter)
  -- a point belongs to the numeral only if there is a digit behind it
  have hfraction : Segment.fraction (behindWhole fraction after) = fraction := by
    unfold behindWhole
    split
    · rename_i hempty
      rw [List.isEmpty_iff.mp hempty]
      cases after with
      | nil => rfl
      | cons d after => simp [Segment.fraction, (hafter d rfl).2]
    · exact (takeWhile_run h.isDigit_fraction fun c hc => (hafter c hc).1).1
  have hfirst : first c (whole ++ behindWhole fraction after) =
      ⟨.lexeme (.number (floatOfDigits (c :: whole) fraction)), numeral (c :: whole) fraction⟩ := by
    have hnumber : first c (whole ++ behindWhole fraction after) =
        number c (whole ++ behindWhole fraction after) := by
      simp [first, hslash, hblank, hquote, hc]
    rw [hnumber, number, htake, hdrop, hfraction, numeral]
  have hdropped := @List.drop_left _ (numeral (c :: whole) fraction) after
  rw [numeral_append, List.cons_append] at hdropped ⊢
  rw [ofText_cons, hfirst, hdropped]

/-- A numeral alone is one segment. -/
theorem ofText_numeral {text : List Char} {x : Float} (h : ReadAs text x) :
    ofText text = [⟨.lexeme (.number x), text⟩] := by
  have hnone : ∀ c ∈ [].head?, ¬ isDigit c ∧ c ≠ '.' := by simp
  have hsegments := ofText_readAs h hnone
  rwa [List.append_nil] at hsegments

end Segment

namespace ScanItem

/-- A numeral is one token. -/
theorem ofText_readAs {text : String} {x : Float} (h : ReadAs text.toList x) :
    ofText text = [.ok ⟨.number x, text, 1⟩, .ok (.eof 1)] := by
  rw [ofText, Segment.ofText_numeral h]
  simp [ofSegments, ofSegment?, h.count_newline]

end ScanItem

/-! ## The texts of finite doubles -/

section Texts

variable {x : Float} {m : Magnitude}

/-- The shortest decimal in positional notation is read as the double. -/
theorem readAs_shortest (hx : Double.ofFloat x = .finite false m) (tie : TieRule) :
    ReadAs ((m.shortest tie).positional "").toList x := by
  obtain ⟨whole, fraction, htext, hspells⟩ :=
    Decimal.spelled_positional (m.le_exponent_shortest tie)
  rw [htext]
  exact .of_contains hx hspells (m.contains_shortest tie)

/-- A whole number with one decimal is read as the double. -/
theorem readAs_whole (hx : Double.ofFloat x = .finite false m) {n : Nat}
    (hn : m.units = n * 2 ^ 1074) : ReadAs (toString n ++ ".0").toList x := by
  have hspells : Spells (10 ^ 1076) (Nat.toDigits 10 n) ['0'] (n * 10 ^ 1076) := by
    refine ⟨⟨Nat.toDigits_ne_nil, fun c => isDigit_of_mem_toDigits,
      List.forall_mem_singleton.mpr (by decide)⟩, ?_⟩
    have hzero : digitsValue ['0'] = 0 := rfl
    rw [digitsValue_append, digitsValue_toDigits, hzero, Nat.add_zero, Nat.mul_comm (10 ^ _),
      Nat.mul_right_comm]
  -- the decimal is the double itself, and that lies in its interval
  have hvalue := Interval.contains_value m
  rw [Interval.value_ofMagnitude, hn, Nat.mul_assoc, Nat.mul_comm (2 ^ 1074), grain_mul] at hvalue
  have htext : (toString n ++ ".0").toList = numeral (Nat.toDigits 10 n) ['0'] := by
    simp [numeral]
  rw [htext]
  exact .of_contains hx hspells hvalue

/-- A magnitude is a whole number if it is a multiple of the unit. -/
theorem Magnitude.whole?_eq_some {n : Nat} : m.whole? = some n ↔ m.units = n * 2 ^ 1074 := by
  have hmultiple : ∀ units unit : Nat, 0 < unit →
      ((if units % unit = 0 then some (units / unit) else none) = some n ↔ units = n * unit) := by
    intro units unit hpos
    constructor
    · intro h
      split at h
      · rename_i hmod
        rw [← Option.some.inj h, Nat.div_mul_cancel (Nat.dvd_of_mod_eq_zero hmod)]
      · cases h
    · rintro rfl
      rw [if_pos (Nat.mul_mod_left n unit), Nat.mul_div_cancel n hpos]
  -- the unit is a closed power of two, which must not be computed
  unfold whole? units
  simp only [Nat.shiftLeft_eq, Nat.shiftRight_eq_div_pow, Nat.one_mul]
  generalize 1074 = k
  exact hmultiple _ _ (Nat.two_pow_pos k)

/-- The column of a number token is read as the number. -/
theorem Token.readAs_numberText (hx : Double.ofFloat x = .finite false m) :
    ReadAs (Token.numberText x).toList x := by
  have hplain : ReadAs ((m.shortest .up).text .plain).toList x := readAs_shortest hx .up
  unfold numberText
  rw [hx]
  dsimp only
  cases hn : m.whole? with
  | none => simpa using hplain
  | some n =>
    have hwhole := readAs_whole hx (Magnitude.whole?_eq_some.mp hn)
    dsimp only
    split
    -- zero is shown as `0.0` whether or not the cast is taken
    · rename_i hzero
      rwa [hzero] at hwhole
    · split
      · simpa using hwhole
      · simpa using hplain

/-- What is printed for a number in a tree is read as the number. -/
theorem Literal.readAs_numberText (hx : Double.ofFloat x = .finite Bool.false m) :
    ReadAs (Literal.numberText x).toList x := by
  have hplain : ReadAs ((m.shortest .up).text .plain).toList x := readAs_shortest hx .up
  unfold numberText
  rw [hx]
  dsimp only
  cases hn : m.whole? with
  | none => simpa using hplain
  | some n => simpa using readAs_whole hx (Magnitude.whole?_eq_some.mp hn)

/-- The power of ten that the first digit stands for. -/
theorem Decimal.leadingExponent_bounds {d : Decimal} (h : -1076 ≤ d.exponent)
    (hpos : 0 < d.coefficient) : 10 ^ (d.leadingExponent + 1076).toNat ≤ d.point ∧
      d.point < 10 ^ (d.leadingExponent + 1077).toNat := by
  have hlength : 0 < d.digits.length := List.length_pos_iff.mpr Nat.toDigits_ne_nil
  -- a number with so many digits lies between two powers of ten
  have hupper : d.coefficient < 10 ^ d.digits.length :=
    (Nat.length_toDigits_le_iff (by decide) hlength).mp (Nat.le_refl _)
  have hlower : 10 ^ (d.digits.length - 1) ≤ d.coefficient := by
    refine Nat.not_lt.mp fun hlt => ?_
    rcases Nat.eq_zero_or_pos (d.digits.length - 1) with hone | hmore
    · rw [hone, Nat.pow_zero] at hlt
      omega
    · have hshort := (Nat.length_toDigits_le_iff (by decide) hmore).mpr hlt
      unfold digits at hshort hmore
      omega
  -- both exponents are counted in units of `10 ^ (-1076)`, so none is negative
  have hscale₁ : (d.leadingExponent + 1076).toNat =
      d.digits.length - 1 + (d.exponent + 1076).toNat := by
    unfold leadingExponent
    omega
  have hscale₂ : (d.leadingExponent + 1077).toNat =
      d.digits.length + (d.exponent + 1076).toNat := by
    unfold leadingExponent
    omega
  rw [hscale₁, hscale₂, Nat.pow_add, Nat.pow_add, point]
  exact ⟨Nat.mul_le_mul_right _ hlower,
    Nat.mul_lt_mul_of_pos_right hupper (Nat.pow_pos (by decide))⟩

/-- Zero and the doubles from `0.001` up to ten millions are printed without an exponent. -/
theorem Layout.positional_shortest (hm : m.WellFormed) (h : m.mantissa = 0 ∨
    0x3f50624dd2f1a9fc ≤ m.bits ∧ m.bits < 0x416312d000000000) :
    Layout.value.positional (m.shortest .up).leadingExponent = true := by
  rcases h with hzero | ⟨hlow, hhigh⟩
  · rw [Magnitude.shortest_of_eq_zero hzero]
    decide
  · have hne : m.mantissa ≠ 0 := by
      intro hzero
      have hnormalized := hm.normalized
      unfold Magnitude.bits at hlow
      by_cases hscale : m.scale = 0
      · omega
      · have hle := hnormalized hscale
        omega
    -- the power of ten before the digits lies between those of the limits
    obtain ⟨hlower, hupper⟩ := Decimal.leadingExponent_bounds
      (m.le_exponent_shortest .up) (Magnitude.coefficient_shortest_pos hm hne)
    -- shortest decimals are in the order of the doubles, and those of the limits are known
    have hfirst : (Magnitude.ofBits 0x3f50624dd2f1a9fc).shortest .up = ⟨1, -3⟩ := by decide +kernel
    have hlast : (Magnitude.ofBits 0x416312d000000000).shortest .up = ⟨1, 7⟩ := by decide +kernel
    have hfrom : Decimal.point ⟨1, -3⟩ ≤ (m.shortest .up).point := by
      rw [← hfirst]
      rcases Nat.lt_or_eq_of_le hlow with hlt | heq
      · have hless := Magnitude.point_shortest_lt .up (Magnitude.bits_lt hm) hlt
        rw [Magnitude.ofBits_bits hm] at hless
        exact hless.le
      · rw [heq, Magnitude.ofBits_bits hm]
    have hto : (m.shortest .up).point < Decimal.point ⟨1, 7⟩ := by
      have hless := Magnitude.point_shortest_lt .up (by decide) hhigh
      rwa [Magnitude.ofBits_bits hm, hlast] at hless
    have hpoint : ∀ e, Decimal.point ⟨1, e⟩ = 10 ^ (e + 1076).toNat :=
      fun e => by rw [Decimal.point, Nat.one_mul]
    rw [hpoint] at hfrom hto
    have hpow : ∀ i j, 10 ^ i < 10 ^ j → i < j :=
      fun i j => (Nat.pow_lt_pow_iff_right (by decide)).mp
    have hleast := hpow _ _ (hfrom.trans_lt hupper)
    have hgreatest := hpow _ _ (hlower.trans_lt hto)
    simp only [Layout.value, Bool.and_eq_true, decide_eq_true_eq]
    omega

/-- What is printed of a number without an exponent and a sign is read as the number. -/
theorem readAs_numberText (hx : Double.ofFloat x = .finite false m) (h : m.mantissa = 0 ∨
    0x3f50624dd2f1a9fc ≤ m.bits ∧ m.bits < 0x416312d000000000) :
    ReadAs (numberText x).toList x := by
  have htext : numberText x = (m.shortest .up).positional "" := by
    have hpositional := Layout.positional_shortest (Double.wellFormed_of_finite hx) h
    rw [numberText, hx]
    simp only [Decimal.text, hpositional, if_true]
    exact String.empty_append
  rw [htext]
  exact readAs_shortest hx .up

end Texts

/-! ## Programs of a number -/

namespace Program

variable {text : String} {x : Float}

/-- A numeral and a semicolon are two segments. -/
private theorem segments_readAs (h : ReadAs text.toList x) : Segment.ofText (text ++ ";").toList =
    [⟨.lexeme (.number x), text.toList⟩, ⟨.lexeme .semicolon, [';']⟩] := by
  have hafter : ∀ c ∈ [';'].head?, ¬ Segment.isDigit c ∧ c ≠ '.' := by
    intro c hc
    obtain rfl : ';' = c := by simpa using hc
    decide
  have hsemicolon : ";".toList = [';'] := rfl
  rw [String.toList_append, hsemicolon, Segment.ofText_readAs h hafter]
  rfl

/-- The program of a numeral is the number. -/
theorem compile_readAs (h : ReadAs text.toList x) (id : Nat) :
    compile (text ++ ";") id = (.ok ⟨[.expression (.literal (.number x))], []⟩, id) := by
  -- a numeral has no line break, so the semicolon and the end are on line 1
  have hitems : ScanItem.ofText (text ++ ";") =
      [.ok ⟨.number x, text, 1⟩, .ok ⟨.semicolon, ";", 1⟩, .ok (.eof 1)] := by
    rw [ScanItem.ofText, segments_readAs h]
    simp [ScanItem.ofSegments, ScanItem.ofSegment?, h.count_newline]
  have hscan : Scan.ofText (text ++ ";") =
      ⟨[⟨.number x, text, 1⟩, ⟨.semicolon, ";", 1⟩, .eof 1], []⟩ := by
    rw [Scan.ofText, hitems]
    rfl
  unfold compile
  rw [hscan]
  rfl

/-- The program of a numeral with a minus in front changes the sign of the number. -/
theorem compile_minus_readAs (h : ReadAs text.toList x) (id : Nat) :
    compile ("-" ++ text ++ ";") id =
      (.ok ⟨[.expression (.unary ⟨.minus, "-", 1⟩ (.literal (.number x)))], []⟩, id) := by
  -- the minus is a token by itself: no numeral has a sign
  have hminus : Segment.ofText ("-" ++ text ++ ";").toList =
      ⟨.lexeme .minus, ['-']⟩ :: Segment.ofText (text ++ ";").toList := by
    have hchars : ("-" ++ text ++ ";").toList = '-' :: (text ++ ";").toList := by simp
    rw [hchars, Segment.ofText_cons]
    rfl
  have hitems : ScanItem.ofText ("-" ++ text ++ ";") = [.ok ⟨.minus, "-", 1⟩,
      .ok ⟨.number x, text, 1⟩, .ok ⟨.semicolon, ";", 1⟩, .ok (.eof 1)] := by
    rw [ScanItem.ofText, hminus, segments_readAs h]
    simp [ScanItem.ofSegments, ScanItem.ofSegment?, h.count_newline]
  have hscan : Scan.ofText ("-" ++ text ++ ";") =
      ⟨[⟨.minus, "-", 1⟩, ⟨.number x, text, 1⟩, ⟨.semicolon, ";", 1⟩, .eof 1], []⟩ := by
    rw [Scan.ofText, hitems]
    rfl
  unfold compile
  rw [hscan]
  rfl

end Program

/-! ## Reading numbers back -/

section ReadBack

variable {x : Float}

/-- The numbers that are printed without an exponent are finite, and their bits are known. -/
theorem Double.finite_of_range (h : x = 0 ∨ x = -0 ∨ 1e-3 ≤ x.abs ∧ x.abs < 1e7) :
    ∃ negative m, ofFloat x = .finite negative m ∧ (m.mantissa = 0 ∨
      0x3f50624dd2f1a9fc ≤ m.bits ∧ m.bits < 0x416312d000000000) := by
  have hzero : ofFloat 0 = .finite false ⟨0, 0⟩ := by decide
  rcases h with rfl | rfl | ⟨hlow, hhigh⟩
  · exact ⟨_, _, hzero, .inl rfl⟩
  · exact ⟨_, _, ofFloat_neg hzero, .inl rfl⟩
  · have hfirst : ofFloat 1e-3 = .finite false (.ofBits 0x3f50624dd2f1a9fc) := by decide
    have hlast : ofFloat 1e7 = .finite false (.ofBits 0x416312d000000000) := by decide
    cases hx : ofFloat x with
    | nan =>
      -- all patterns of this kind make one double, for which comparing can be computed
      have hnan : x = .ofBits 0x7ff8000000000000 := ofFloat_injective (hx.trans (by decide))
      rw [hnan] at hhigh
      exact absurd hhigh (by decide)
    | infinite negative =>
      cases negative with
      | false =>
        have hinf : x = .ofBits 0x7ff0000000000000 := ofFloat_injective (hx.trans (by decide))
        rw [hinf] at hhigh
        exact absurd hhigh (by decide)
      | true =>
        have hinf : x = .ofBits 0xfff0000000000000 := ofFloat_injective (hx.trans (by decide))
        rw [hinf] at hhigh
        exact absurd hhigh (by decide)
    | finite negative m =>
      have habs := ofFloat_abs hx
      have hle := bits_le_of_le hfirst habs hlow
      have hlt := bits_lt_of_lt habs hlast hhigh
      rw [Magnitude.bits_ofBits] at hle hlt
      exact ⟨negative, m, rfl, .inr ⟨hle, hlt⟩⟩

/-- The 64-bit integer that a double is cast to: its whole part, or the bound that is nearest. -/
def Double.toInt64 : Double → Int64
  | nan => 0
  | infinite negative => if negative then .minValue else .maxValue
  | finite negative m =>
    let whole : Nat := m.units / 2 ^ 1074
    .ofIntClamp (if negative then -whole else whole)

/-- The cast is exact for whole numbers below `2 ^ 63`. -/
theorem Double.toInt64_whole {m : Magnitude} {n : Nat} (negative : Bool)
    (hn : m.units = n * 2 ^ 1074) (hlt : n < 0x8000000000000000) :
    (finite negative m).toInt64.toInt = if negative then -(n : Int) else n := by
  have hwhole : m.units / 2 ^ 1074 = n := by
    rw [hn, Nat.mul_div_cancel n (Nat.two_pow_pos 1074)]
  have hmin : Int64.minValue.toInt = -0x8000000000000000 := rfl
  have hmax : Int64.maxValue.toInt = 0x7fffffffffffffff := rfl
  unfold toInt64
  dsimp only
  -- within the bounds of 64 bits clamping changes nothing
  rw [hwhole, Int64.toInt_ofIntClamp]
  · rw [hmin]
    split <;> omega
  · rw [hmax]
    split <;> omega

/-- The column of a whole number below `2 ^ 63` is the integer that it is cast to. -/
theorem Token.numberText_whole {negative : Bool} {m : Magnitude} {n : Nat}
    (hx : Double.ofFloat x = .finite negative m) (hn : m.units = n * 2 ^ 1074)
    (hlt : n < 0x8000000000000000) :
    Token.numberText x = toString (Double.ofFloat x).toInt64 ++ ".0" := by
  have htext : ∀ i : Int64, toString i = toString i.toInt := fun _ => rfl
  -- zero has to be apart: minus zero is printed without a sign
  have hminus : ∀ k : Nat, k ≠ 0 → "-" ++ toString k = toString (-(k : Int)) := by
    intro k hk
    obtain ⟨j, rfl⟩ := Nat.exists_eq_add_one_of_ne_zero hk
    rfl
  rw [htext, hx, Double.toInt64_whole negative hn hlt, numberText, hx]
  dsimp only
  rw [Magnitude.whole?_eq_some.mpr hn]
  dsimp only
  by_cases hzero : n = 0
  · subst hzero
    cases negative <;> rfl
  · rw [if_neg hzero, if_pos hlt]
    cases negative with
    | false => exact congrArg (· ++ ".0") String.empty_append
    | true => exact congrArg (· ++ ".0") (hminus n hzero)

/-- Evaluating the text of a number without exponent yields the number: a negative one is a minus
    and a numeral. -/
theorem Program.compile_numberText (h : x = 0 ∨ x = -0 ∨ 1e-3 ≤ x.abs ∧ x.abs < 1e7) (id : Nat) :
    ∃ e, compile (numberText x ++ ";") id = (.ok ⟨[.expression e], []⟩, id) ∧
      ∀ bound m, Run.evaluate (bound + 2) e m = .ok (.number x) m := by
  obtain ⟨negative, m, hx, hrange⟩ := Double.finite_of_range h
  cases negative with
  | false => exact ⟨_, compile_readAs (readAs_numberText hx hrange) id, fun _ _ => rfl⟩
  | true =>
    -- the text is a minus before that of the opposite number, and negating twice does nothing
    have hneg := Double.ofFloat_neg hx
    have hneg_neg : - -x = x := Double.ofFloat_injective ((Double.ofFloat_neg hneg).trans hx.symm)
    have htext : numberText x = "-" ++ numberText (-x) := by
      rw [numberText, hx, numberText, hneg]
      exact congrArg ("-" ++ ·) String.empty_append.symm
    have hcompile := compile_minus_readAs (readAs_numberText hneg hrange) id
    rw [← htext] at hcompile
    refine ⟨_, hcompile, fun bound m => ?_⟩
    show EStateM.Result.ok (Value.number (- -x)) m = _
    rw [hneg_neg]

/-- The texts of numbers read back.

    The column of a token that is a number with the sign plus is scanned as one number token with
    this number, and so is what is printed for the number in a tree. Where the column shows an
    integer, the cast is exact. The output of a program for zero, minus zero and all numbers from
    `0.001` up to ten millions is itself a program, the value of which is the number. -/
theorem numberTexts_readBack (x : Float) :
    (∀ m, Double.ofFloat x = .finite false m →
      (∀ t : Token, t.kind = .number x →
        ScanItem.ofText t.literalText = [.ok ⟨.number x, t.literalText, 1⟩, .ok (.eof 1)]) ∧
      ScanItem.ofText (Expr.literal (.number x)).text =
        [.ok ⟨.number x, (Expr.literal (.number x)).text, 1⟩, .ok (.eof 1)]) ∧
    (∀ negative m n, Double.ofFloat x = .finite negative m → m.units = n * 2 ^ 1074 →
      n < 0x8000000000000000 →
      (Double.ofFloat x).toInt64.toInt = (if negative then -(n : Int) else n) ∧
      Token.numberText x = toString (Double.ofFloat x).toInt64 ++ ".0") ∧
    ((x = 0 ∨ x = -0 ∨ 1e-3 ≤ x.abs ∧ x.abs < 1e7) → ∀ id, ∃ e,
      Program.compile (numberText x ++ ";") id = (.ok ⟨[.expression e], []⟩, id) ∧
      ∀ bound m, Run.evaluate (bound + 2) e m = .ok (.number x) m) := by
  refine ⟨fun m hx => ⟨fun t ht => ?_, ?_⟩, fun negative m n hx hn hlt => ⟨?_, ?_⟩,
    Program.compile_numberText⟩
  · have hcolumn : t.literalText = Token.numberText x := by rw [Token.literalText, ht]
    rw [hcolumn]
    exact ScanItem.ofText_readAs (Token.readAs_numberText hx)
  · exact ScanItem.ofText_readAs (Literal.readAs_numberText hx)
  · rw [hx]
    exact Double.toInt64_whole negative hn hlt
  · exact Token.numberText_whole hx hn hlt

/-- The texts of `3`, which is whole and small. -/
theorem numberTexts_readBack_three :
    ScanItem.ofText (Token.literalText ⟨.number 3, "3", 1⟩) =
      [.ok ⟨.number 3, "3.0", 1⟩, .ok (.eof 1)] ∧
    ScanItem.ofText (Expr.literal (.number 3)).text =
      [.ok ⟨.number 3, "3.0", 1⟩, .ok (.eof 1)] ∧
    (Double.ofFloat 3).toInt64.toInt = 3 ∧
    ∃ e, Program.compile "3;" 0 = (.ok ⟨[.expression e], []⟩, 0) ∧
      ∀ bound m, Run.evaluate (bound + 2) e m = .ok (.number 3) m := by
  have hx : Double.ofFloat 3 = .finite false ⟨0x18000000000000, 1023⟩ := by decide
  have hunits : (⟨0x18000000000000, 1023⟩ : Magnitude).units = 3 * 2 ^ 1074 := by decide +kernel
  have hrange : (1e-3 : Float) ≤ (3 : Float).abs ∧ (3 : Float).abs < 1e7 := by decide
  have htexts : Token.literalText ⟨.number 3, "3", 1⟩ = "3.0" ∧
      (Expr.literal (.number 3)).text = "3.0" ∧ numberText 3 = "3" := by decide +kernel
  -- the texts that the theorem speaks of are computed, then put in
  obtain ⟨hscan, hcast, hevaluate⟩ := numberTexts_readBack 3
  obtain ⟨htoken, htree⟩ := hscan _ hx
  have htoken := htoken ⟨.number 3, "3", 1⟩ rfl
  have hevaluate := hevaluate (.inr (.inr hrange)) 0
  rw [htexts.1] at htoken
  rw [htexts.2.1] at htree
  rw [htexts.2.2] at hevaluate
  rw [htexts.1, htexts.2.1]
  exact ⟨htoken, htree, (hcast _ _ 3 hx hunits (by decide)).1, hevaluate⟩

end ReadBack

end Lox
