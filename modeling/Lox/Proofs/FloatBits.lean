import Mathlib
import Lox.Double

/-!
# Patterns of doubles

`Double.ofFloat` reads the bits of a double. Here it is related to the operations on doubles: a
double is determined by what its bits stand for, a sign in front of it changes the sign, and doubles
are ordered as their bits are. All patterns that stand for no number make the same double.

## Key results

- `Magnitude.bits_ofBits`, `Magnitude.wellFormed_ofBits`: the magnitudes of patterns
- `Double.ofFloat_injective`: a double is what its bits stand for
- `Double.ofBits_eq_iff`: which patterns make the same double
- `Double.ofFloat_neg`, `Double.ofFloat_abs`: doubles with another sign
- `Double.bits_le_of_le`, `Double.bits_lt_of_lt`: the order of doubles
-/

namespace Lox

/-! ## Magnitudes of patterns -/

namespace Magnitude

/-- A magnitude that was made of bits has those bits. -/
theorem bits_ofBits (bits : Nat) : (ofBits bits).bits = bits := by
  unfold ofBits Magnitude.bits
  dsimp only
  split
  · dsimp only
    omega
  · dsimp only
    omega

/-- Different bits make different magnitudes. -/
theorem ofBits_injective {bits bits' : Nat} (h : ofBits bits = ofBits bits') : bits = bits' := by
  rw [← bits_ofBits bits, h, bits_ofBits]

/-- Below infinity the bits are those of a magnitude. -/
theorem wellFormed_ofBits {bits : Nat} (h : bits < 0x7ff0000000000000) :
    (ofBits bits).WellFormed := by
  unfold ofBits
  dsimp only
  split
  · exact ⟨by dsimp only; omega, fun h => absurd rfl h, Nat.succ_pos _⟩
  · exact ⟨by dsimp only; omega, fun _ => Nat.le_add_right _ _, by dsimp only; omega⟩

end Magnitude

/-! ## Fields of a pattern -/

section Fields

open Float.Model Float.Model.UnpackedFloat

/-- The pattern with this sign, exponent and fraction. -/
abbrev fields (s : Sign) (e : BitVec 11) (f : BitVec 52) : BitVec 64 :=
  packComponents Format.binary64 s e f

variable {s : Sign} {e : BitVec 11} {f : BitVec 52}

/-- The fields of a number stand one behind the other in its bits. -/
theorem fields_toNat (s : Sign) (e : BitVec 11) (f : BitVec 52) :
    (fields s e f).toNat = (s.toBitVec.toNat * 2 ^ 11 + e.toNat) * 2 ^ 52 + f.toNat := by
  unfold fields packComponents
  rw [BitVec.toNat_append, BitVec.toNat_append, ← Nat.shiftLeft_add_eq_or_of_lt e.isLt,
    ← Nat.shiftLeft_add_eq_or_of_lt f.isLt, Nat.shiftLeft_eq, Nat.shiftLeft_eq]

/-- Every pattern has fields. -/
theorem exists_fields (b : BitVec 64) : ∃ s e f, b = fields s e f :=
  ⟨_, _, _, (@packComponents_unpackSign_unpackExponent_unpackMantissa .binary64 b).symm⟩

/-- The exponent is all ones just if it is the largest one. -/
private theorem eq_ones_iff : e = -1#11 ↔ e.toNat = 2047 := by
  rw [← BitVec.toNat_inj]
  rfl

/-- A bit vector is zero just if its value is. -/
private theorem eq_zero_iff {n : Nat} {b : BitVec n} : b = 0#n ↔ b.toNat = 0 := by
  rw [← BitVec.toNat_inj]
  simp

/-- Not a number is what has more bits than infinity, whatever its sign. -/
theorem isNaNBits_iff (b : BitVec 64) :
    @isNaNBits Format.binary64 b ↔ 0x7ff0000000000000 < b.toNat % 0x8000000000000000 := by
  obtain ⟨s, e, f, rfl⟩ := exists_fields b
  have he := e.isLt
  have hf := f.isLt
  rw [isNaNBits, unpackExponent_packComponents, unpackMantissa_packComponents, decide_eq_true_eq,
    fields_toNat]
  have hfields : e = -1#11 ∧ f ≠ 0#52 ↔ e.toNat = 2047 ∧ f.toNat ≠ 0 := by
    rw [eq_ones_iff, ne_eq, eq_zero_iff]
  refine hfields.trans ?_
  omega

/-- The number that the fields of a pattern stand for: zero, or a mantissa at a scale. -/
theorem unpack_fields (s : Sign) (he : e ≠ -1#11) :
    (e = 0#11 ∧ f = 0#52 ∧ UnpackedFloat.unpack Format.binary64 (fields s e f) = .zero s) ∨
    ∃ x : Magnitude, ∃ hpos : 0 < x.mantissa,
      Magnitude.ofBits (e.toNat * 0x10000000000000 + f.toNat) = x ∧
      UnpackedFloat.unpack Format.binary64 (fields s e f) =
        .finite s x.mantissa (x.scale - 1074) hpos := by
  have hf := f.isLt
  have hbias : (Format.binary64.exponentBias : Int) = 1023 := rfl
  unfold UnpackedFloat.unpack
  simp only [unpackMantissa_packComponents, unpackExponent_packComponents,
    unpackSign_packComponents, Sign.ofBitVec_toBitVec, if_neg he]
  -- below the lowest exponent there is no hidden bit, and zero is there
  by_cases h₀ : e = 0#11
  · subst h₀
    by_cases hf₀ : f = 0#52
    · subst hf₀
      exact .inl ⟨rfl, rfl, rfl⟩
    · have hne : f.toNat ≠ 0 := fun h => hf₀ (eq_zero_iff.mpr h)
      refine .inr ⟨⟨f.toNat, 0⟩, Nat.pos_of_ne_zero hne, ?_, ?_⟩
      · have hzero : (0#11).toNat * 0x10000000000000 + f.toNat = f.toNat := by simp
        rw [hzero, Magnitude.ofBits, if_pos (by omega), Nat.mod_eq_of_lt hf]
      · rw [if_pos rfl, dif_neg hf₀]
        rfl
  · have hpos : 0 < e.toNat := Nat.pos_of_ne_zero fun h => h₀ (eq_zero_iff.mpr h)
    have hone : (1#1 ++ f).toNat = 0x10000000000000 + f.toNat := by
      rw [BitVec.toNat_append, ← Nat.shiftLeft_add_eq_or_of_lt f.isLt]
      rfl
    refine .inr ⟨⟨0x10000000000000 + f.toNat, e.toNat - 1⟩, Nat.add_pos_left (by decide) _, ?_, ?_⟩
    · have hdiv : (e.toNat * 0x10000000000000 + f.toNat) / 0x10000000000000 = e.toNat := by omega
      have hmod : (e.toNat * 0x10000000000000 + f.toNat) % 0x10000000000000 = f.toNat := by omega
      rw [Magnitude.ofBits, hdiv, hmod, if_neg (by omega)]
    · rw [if_neg h₀]
      simp only [hone]
      congr 1
      rw [hbias]
      omega

end Fields

/-! ## Doubles -/

namespace Double

open Float.Model Float.Model.UnpackedFloat

/-- What the bits behind the sign stand for. -/
private def ofRest (negative : Bool) (rest : Nat) : Double :=
  if rest < 0x7ff0000000000000 then .finite negative (.ofBits rest)
  else if rest = 0x7ff0000000000000 then .infinite negative
  else .nan

/-- A float is its sign bit and the other bits. -/
private theorem ofFloat_eq (x : Float) :
    ofFloat x = ofRest (decide (0x8000000000000000 ≤ x.toBits.toNat))
      (x.toBits.toNat % 0x8000000000000000) :=
  rfl

/-- A float with these fields has the sign of the one and the bits of the others. -/
private theorem ofFloat_of_fields {x : Float} {s : Sign} {e : BitVec 11} {f : BitVec 52}
    (h : x.toBits.toBitVec = fields s e f) :
    ofFloat x = ofRest (s == .negative) (e.toNat * 0x10000000000000 + f.toNat) := by
  have he := e.isLt
  have hf := f.isLt
  have hbits : x.toBits.toNat = _ := (congrArg BitVec.toNat h).trans (fields_toNat s e f)
  rw [ofFloat_eq, hbits]
  -- the sign is the highest bit, and what is left below it are the other two fields
  cases s with
  | negative =>
    rw [decide_eq_true (by simp [Sign.toBitVec]; omega)]
    congr 1
    simp [Sign.toBitVec]
    omega
  | positive =>
    rw [decide_eq_false (by simp [Sign.toBitVec]; omega)]
    congr 1
    simp [Sign.toBitVec]
    omega

/-- All doubles that are not a number are the same. -/
private theorem toBits_of_isNaN {x : Float}
    (h : 0x7ff0000000000000 < x.toBits.toNat % 0x8000000000000000) :
    x.toBits.toBitVec = packedNaN Format.binary64 := by
  have hnan := of_decide_eq_true ((isNaNBits_iff x.toBits.toBitVec).mpr h)
  exact x.toModel.valid.eq_packedNaN hnan.1 hnan.2

/-- A double is what its bits stand for. -/
theorem ofFloat_injective {x y : Float} (h : ofFloat x = ofFloat y) : x = y := by
  have hx := x.toBits.toNat_lt
  have hy := y.toBits.toNat_lt
  have of_toNat (heq : x.toBits.toNat = y.toBits.toNat) : x = y :=
    Float.toBits_inj.mp (UInt64.toNat_inj.mp heq)
  rw [ofFloat_eq, ofFloat_eq] at h
  unfold ofRest at h
  split_ifs at h with hx₁ hy₁ hy₂ hx₂ hy₁ hy₂ hy₁ hy₂
  · -- the sign and the magnitude determine the bits
    obtain ⟨hsign, hrest⟩ := finite.inj h
    have hrest := Magnitude.ofBits_injective hrest
    rw [decide_eq_decide] at hsign
    exact of_toNat (by omega)
  · have hsign := infinite.inj h
    rw [decide_eq_decide] at hsign
    exact of_toNat (by omega)
  · have hbits := (toBits_of_isNaN (x := x) (by omega)).trans
      (toBits_of_isNaN (x := y) (by omega)).symm
    exact Float.toBits_inj.mp (UInt64.toBitVec_inj.mp hbits)

/-- Packing undoes unpacking, up to the bits of what is not a number. -/
private theorem pack_unpack_binary64 (b : BitVec 64) :
    UnpackedFloat.pack Format.binary64 (UnpackedFloat.unpack Format.binary64 b) =
      if @isNaNBits Format.binary64 b then packedNaN Format.binary64 else b :=
  @pack_unpack Format.binary64 b (by decide)

/-- The bits are those of a double that is not a number. -/
def IsNaN (bits : UInt64) : Prop :=
  0x7ff0000000000000 < bits.toNat % 0x8000000000000000

/-- Two patterns make the same double if they are the same or both stand for no number. -/
theorem ofBits_eq_iff (a b : UInt64) :
    Float.ofBits a = Float.ofBits b ↔ a = b ∨ IsNaN a ∧ IsNaN b := by
  have htoBits : ∀ bits : UInt64, (Float.ofBits bits).toBits.toBitVec =
      if @isNaNBits Format.binary64 bits.toBitVec then packedNaN Format.binary64
      else bits.toBitVec := fun bits => pack_unpack_binary64 bits.toBitVec
  have hnan : ∀ bits : UInt64, @isNaNBits Format.binary64 bits.toBitVec ↔ IsNaN bits :=
    fun bits => isNaNBits_iff bits.toBitVec
  have hpacked := @isNaNBits_packedNaN Format.binary64
  rw [← Float.toBits_inj, ← UInt64.toBitVec_inj, htoBits, htoBits, ← hnan, ← hnan,
    ← UInt64.toBitVec_inj]
  by_cases ha : @isNaNBits Format.binary64 a.toBitVec <;>
    by_cases hb : @isNaNBits Format.binary64 b.toBitVec
  · simp [ha, hb]
  · -- the pattern that stands for all of them is one of them
    have hne : packedNaN Format.binary64 ≠ b.toBitVec := fun h => hb (h ▸ hpacked)
    have hne' : a.toBitVec ≠ b.toBitVec := fun h => hb (h ▸ ha)
    simp [ha, hb, hne, hne']
  · have hne : a.toBitVec ≠ packedNaN Format.binary64 := fun h => ha (h ▸ hpacked)
    have hne' : a.toBitVec ≠ b.toBitVec := fun h => ha (h ▸ hb)
    simp [ha, hb, hne, hne']
  · simp [ha, hb]

/-! ### Signs -/

section Signs

variable {x : Float} {negative : Bool} {m : Magnitude}

/-- The fields of a finite double: its exponent is not the highest one. -/
private theorem exists_fields_of_finite (h : ofFloat x = .finite negative m) :
    ∃ s e f, x.toBits.toBitVec = fields s e f ∧ e ≠ -1#11 ∧ (s == .negative) = negative ∧
      Magnitude.ofBits (e.toNat * 0x10000000000000 + f.toNat) = m := by
  obtain ⟨s, e, f, hfields⟩ := exists_fields x.toBits.toBitVec
  rw [ofFloat_of_fields hfields, ofRest] at h
  split_ifs at h with hlt
  obtain ⟨hs, hm⟩ := finite.inj h
  exact ⟨s, e, f, hfields, fun he => by rw [eq_ones_iff.mp he] at hlt; omega, hs, hm⟩

/-- A float with fields that are not all ones is finite. -/
private theorem ofFloat_of_finite_fields {s : Sign} {e : BitVec 11} {f : BitVec 52}
    (h : x.toBits.toBitVec = fields s e f) (he : e ≠ -1#11) :
    ofFloat x = .finite (s == .negative)
      (.ofBits (e.toNat * 0x10000000000000 + f.toNat)) := by
  have hlt := e.isLt
  have hf := f.isLt
  have hne : e.toNat ≠ 2047 := fun h => he (eq_ones_iff.mpr h)
  rw [ofFloat_of_fields h, ofRest, if_pos (by omega)]

/-- A finite double has the magnitude of one. -/
theorem wellFormed_of_finite (h : ofFloat x = .finite negative m) : m.WellFormed := by
  rw [ofFloat_eq, ofRest] at h
  split_ifs at h with hlt
  exact (finite.inj h).2 ▸ Magnitude.wellFormed_ofBits hlt

/-- Changing the sign of a number changes the sign of its pattern. -/
private theorem pack_sign (sign : UnpackedFloat → UnpackedFloat) {s s' : Sign} {e : BitVec 11}
    {f : BitVec 52} (he : e ≠ -1#11) (hzero : sign (.zero s) = .zero s')
    (hfinite : ∀ m k hpos, sign (.finite s m k hpos) = .finite s' m k hpos) :
    UnpackedFloat.pack Format.binary64
      (sign (UnpackedFloat.unpack Format.binary64 (fields s e f))) = fields s' e f := by
  have hsign : sign (UnpackedFloat.unpack Format.binary64 (fields s e f)) =
      UnpackedFloat.unpack Format.binary64 (fields s' e f) := by
    rcases @unpack_fields e f s he with ⟨rfl, rfl, hs⟩ | ⟨x, hpos, hx, hs⟩
    · rw [hs, hzero]
      exact unpack_packedZero.symm
    · -- the other pattern has the same magnitude, so it is not zero either
      rcases @unpack_fields e f s' he with ⟨rfl, rfl, -⟩ | ⟨y, _, hy, hs'⟩
      · rw [← hx] at hpos
        exact absurd hpos (by decide)
      · obtain rfl := hx.symm.trans hy
        rw [hs, hs', hfinite]
  have hnan : ¬ @isNaNBits Format.binary64 (fields s' e f) := by
    rw [isNaNBits, unpackExponent_packComponents, decide_eq_true_eq]
    exact fun h => he h.1
  rw [hsign]
  exact (pack_unpack_binary64 _).trans (if_neg hnan)

/-- A minus in front of a finite double turns its sign. -/
theorem ofFloat_neg (h : ofFloat x = .finite negative m) :
    ofFloat (-x) = .finite (!negative) m := by
  obtain ⟨s, e, f, hfields, he, rfl, rfl⟩ := exists_fields_of_finite h
  have hneg : (-x).toBits.toBitVec = fields (-s) e f := by
    rw [← pack_sign .neg he rfl fun _ _ _ => rfl, ← hfields]
    rfl
  rw [ofFloat_of_finite_fields hneg he]
  cases s <;> rfl

/-- The absolute value of a finite double has the sign plus. -/
theorem ofFloat_abs (h : ofFloat x = .finite negative m) : ofFloat x.abs = .finite false m := by
  obtain ⟨s, e, f, hfields, he, rfl, rfl⟩ := exists_fields_of_finite h
  have habs : x.abs.toBits.toBitVec = fields .positive e f := by
    rw [← pack_sign .abs he rfl fun _ _ _ => rfl, ← hfields]
    rfl
  exact ofFloat_of_finite_fields habs he

end Signs

/-! ### Order -/

section Order

variable {x y : Float} {a b : Magnitude}

/-- What a finite double of sign plus is unpacked to. -/
private theorem unpack_of_finite (h : ofFloat x = .finite false a) :
    (a.bits = 0 ∧ x.toModel.unpack = .zero .positive) ∨
    ∃ hpos : 0 < a.mantissa,
      x.toModel.unpack = .finite .positive a.mantissa (a.scale - 1074) hpos := by
  obtain ⟨s, e, f, hfields, he, hs, rfl⟩ := exists_fields_of_finite h
  obtain rfl : s = .positive := by
    cases s with
    | negative => cases hs
    | positive => rfl
  have hunpack : x.toModel.unpack =
      UnpackedFloat.unpack Format.binary64 (fields .positive e f) := by
    rw [← hfields]
    rfl
  rw [hunpack]
  -- zero is unpacked to a case of its own
  rcases @unpack_fields e f .positive he with ⟨rfl, rfl, hx⟩ | ⟨m, hpos, rfl, hx⟩
  · exact .inl ⟨rfl, hx⟩
  · exact .inr ⟨hpos, hx⟩

/-- How two doubles of sign plus compare, one of which is not zero. -/
private theorem compare_scale {m n i j : Nat} (hm : 0 < m) (hn : 0 < n) :
    UnpackedFloat.compare (.finite .positive m (i - 1074) hm) (.finite .positive n (j - 1074) hn) =
      some ((Ord.compare i j).then (Ord.compare m n)) := by
  have hscale : Ord.compare ((i : Int) - 1074) (j - 1074) = Ord.compare i j := by
    rcases Nat.lt_trichotomy i j with h | rfl | h
    · rw [compare_lt_iff_lt.mpr (by omega : (i : Int) - 1074 < j - 1074), compare_lt_iff_lt.mpr h]
    · rw [compare_eq_iff_eq.mpr rfl, compare_eq_iff_eq.mpr rfl]
    · rw [compare_gt_iff_gt.mpr (by omega : (i : Int) - 1074 > j - 1074), compare_gt_iff_gt.mpr h]
  rw [← hscale]
  rfl

/-- Magnitudes are ordered by their scales, and by their mantissas at one scale. -/
private theorem compare_bits (ha : a.WellFormed) (hb : b.WellFormed) :
    (Ord.compare a.scale b.scale).then (Ord.compare a.mantissa b.mantissa) =
      Ord.compare a.bits b.bits := by
  have hm := ha.mantissa_lt
  have hn := hb.mantissa_lt
  have ham := ha.normalized
  have hbm := hb.normalized
  have habits : a.bits = a.scale * 0x10000000000000 + a.mantissa := rfl
  have hbbits : b.bits = b.scale * 0x10000000000000 + b.mantissa := rfl
  rcases Nat.lt_trichotomy a.scale b.scale with h | h | h
  · -- a mantissa with a greater scale is normalized, so it is at least half of any other
    rw [compare_lt_iff_lt.mpr h, compare_lt_iff_lt.mpr (by omega : a.bits < b.bits)]
    rfl
  · rw [compare_eq_iff_eq.mpr h, Ordering.eq_then]
    rcases Nat.lt_trichotomy a.mantissa b.mantissa with h' | h' | h'
    · rw [compare_lt_iff_lt.mpr h', compare_lt_iff_lt.mpr (by omega)]
    · rw [compare_eq_iff_eq.mpr h', compare_eq_iff_eq.mpr (by omega)]
    · rw [compare_gt_iff_gt.mpr h', compare_gt_iff_gt.mpr (by omega)]
  · rw [compare_gt_iff_gt.mpr h, compare_gt_iff_gt.mpr (by omega : a.bits > b.bits)]
    rfl

/-- Doubles of sign plus are ordered as their bits are. -/
private theorem compare_of_finite (hx : ofFloat x = .finite false a)
    (hy : ofFloat y = .finite false b) :
    x.toModel.unpack.compare y.toModel.unpack = some (Ord.compare a.bits b.bits) := by
  have ha := wellFormed_of_finite hx
  have hb := wellFormed_of_finite hy
  have hpos {m : Magnitude} (h : 0 < m.mantissa) : 0 < m.bits := by
    unfold Magnitude.bits
    omega
  -- zero is apart on both sides: it is unpacked without a mantissa
  rcases unpack_of_finite hx with ⟨ha₀, hx⟩ | ⟨hma, hx⟩ <;>
    rcases unpack_of_finite hy with ⟨hb₀, hy⟩ | ⟨hmb, hy⟩ <;> rw [hx, hy]
  · rw [ha₀, hb₀]
    rfl
  · rw [ha₀, compare_lt_iff_lt.mpr (hpos hmb)]
    rfl
  · rw [hb₀, compare_gt_iff_gt.mpr (hpos hma)]
    rfl
  · rw [compare_scale, compare_bits ha hb]

/-- If a finite double is not above another one, its bits are not. -/
theorem bits_le_of_le (hx : ofFloat x = .finite false a) (hy : ofFloat y = .finite false b)
    (h : x ≤ y) : a.bits ≤ b.bits := by
  have hle : x.toModel ≤ y.toModel := of_decide_eq_true (p := x.toModel ≤ y.toModel) h
  replace hle : x.toModel.unpack.le y.toModel.unpack = true := hle
  rw [UnpackedFloat.le, compare_of_finite hx hy, Option.any_some] at hle
  exact Nat.isLE_compare.mp hle

/-- A smaller positive number has fewer bits. -/
theorem bits_lt_of_lt (hx : ofFloat x = .finite false a) (hy : ofFloat y = .finite false b)
    (h : x < y) : a.bits < b.bits := by
  have hlt : x.toModel < y.toModel := of_decide_eq_true (p := x.toModel < y.toModel) h
  replace hlt : x.toModel.unpack.lt y.toModel.unpack = true := hlt
  rw [UnpackedFloat.lt, compare_of_finite hx hy, beq_iff_eq, Option.some.injEq] at hlt
  exact compare_lt_iff_lt.mp hlt

end Order

end Double

end Lox
