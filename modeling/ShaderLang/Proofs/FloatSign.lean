import Mathlib
import ShaderLang.Ir.Value

/-!
# Signs of floating-point numbers

Changing the sign of a number changes its sign bit only, so it goes through the conversions from and
to integers, and it is subtracting from zero, up to the sign of a zero (`SameNumber`).

A number is read off its bits as sign, exponent and mantissa (`ofComponents`). Reading and writing
are inverse to each other, and only the sign depends on the sign bit.
-/

namespace ShaderLang.Ir

open Float.Model (UnpackedFloat)

open Float.Model.Format (binary64)

open Float.Model.UnpackedFloat (Sign packComponents)

/-! ## Bits -/

namespace Unpacked

/-- The stored exponent of a number. -/
abbrev Exponent : Type :=
  BitVec binary64.exponentBits

/-- The stored mantissa of a number. -/
abbrev Mantissa : Type :=
  BitVec binary64.mantissaBitsWithoutImplicit

variable {sign : Sign} {exponent : Exponent} {mantissa : Mantissa}

theorem toNat_one_append (mantissa : Mantissa) :
    (1#1 ++ mantissa).toNat = 2 ^ 52 + mantissa.toNat := by
  rw [BitVec.toNat_append, ← Nat.shiftLeft_add_eq_or_of_lt mantissa.isLt]
  rfl

/-- The number with a sign, an exponent and a mantissa as they are stored. -/
def ofComponents (sign : Sign) (exponent : Exponent) (mantissa : Mantissa) : UnpackedFloat :=
  let scale : Int := (exponent.toNat : Int) -
    (binary64.exponentBias + binary64.mantissaBitsWithoutImplicit)
  if exponent = -1#_ then
    if mantissa = 0#_ then .infinity sign else .notANumber
  else if exponent = 0#_ then
    if h : mantissa = 0#_ then .zero sign
    else .finite sign mantissa.toNat (scale + 1)
      (by simpa [BitVec.toNat_pos, BitVec.pos_iff_ne_zero] using h)
  else
    .finite sign (1#1 ++ mantissa).toNat scale (by have := toNat_one_append mantissa; omega)

theorem unpack_eq (b : BitVec binary64.numBits) :
    UnpackedFloat.unpack binary64 b =
      ofComponents (Sign.ofBitVec (UnpackedFloat.unpackSign b)) (UnpackedFloat.unpackExponent b)
        (UnpackedFloat.unpackMantissa b) :=
  rfl

theorem unpackSign_packComponents :
    Sign.ofBitVec (UnpackedFloat.unpackSign (packComponents binary64 sign exponent mantissa)) =
      sign := by
  have hbits : UnpackedFloat.unpackSign (packComponents binary64 sign exponent mantissa) =
      sign.toBitVec := by
    simp only [UnpackedFloat.unpackSign, packComponents]
    ext i hi
    grind
  rw [hbits]
  cases sign <;> rfl

theorem unpack_packComponents :
    UnpackedFloat.unpack binary64 (packComponents binary64 sign exponent mantissa) =
      ofComponents sign exponent mantissa := by
  rw [unpack_eq, unpackSign_packComponents]
  rw [UnpackedFloat.unpackExponent_packComponents, UnpackedFloat.unpackMantissa_packComponents]

theorem neg_ofComponents :
    (ofComponents sign exponent mantissa).neg = ofComponents (-sign) exponent mantissa := by
  unfold ofComponents
  dsimp only
  split_ifs <;> rfl

/-- Exponent and mantissa are those of a number, not of NaN. -/
def IsNumber (exponent : Exponent) (mantissa : Mantissa) : Prop :=
  exponent = -1#_ → mantissa = 0#_

theorem pack_ofComponents (h : IsNumber exponent mantissa) :
    UnpackedFloat.pack binary64 (ofComponents sign exponent mantissa) =
      packComponents binary64 sign exponent mantissa := by
  have hbias : binary64.exponentBias = 1023 := rfl
  have hwidth : binary64.mantissaBits = 53 := rfl
  have hexponent : exponent.toNat < 2048 := exponent.isLt
  have hmantissa : mantissa.toNat < 2 ^ 52 := mantissa.isLt
  unfold ofComponents
  dsimp only
  split_ifs with hmax hzero hmin hzero
  · rw [hmax, hzero]
    rfl
  · exact absurd (h hmax) hzero
  · rw [hmin, hzero]
    rfl
  · -- a subnormal number: its mantissa is too short for the implicit bit
    have hpos : mantissa.toNat ≠ 0 := fun heq => hzero (BitVec.eq_of_toNat_eq heq)
    have hlog : mantissa.toNat.log2 + 1 ≠ 53 := by
      intro heq
      have := (Nat.le_log2 (k := 52) hpos).mp (by omega)
      omega
    rw [hmin]
    simp [UnpackedFloat.pack, hbias, hwidth, hlog]
  · -- a normal number: the implicit bit is the highest one of the mantissa
    have hne : exponent.toNat ≠ 2047 := fun heq => hmax (BitVec.eq_of_toNat_eq heq)
    have happend := toNat_one_append mantissa
    have hlog : (2 ^ 52 + mantissa.toNat).log2 + 1 = 53 := by
      have hlow := (Nat.le_log2 (n := 2 ^ 52 + mantissa.toNat) (k := 52) (by omega)).mpr (by omega)
      have hhigh := (Nat.log2_lt (n := 2 ^ 52 + mantissa.toNat) (k := 53) (by omega)).mpr (by omega)
      omega
    have hbiased : ((exponent.toNat : Int) - ((1023 : Nat) + (52 : Nat)) + (1023 : Nat) +
        (52 : Nat)).toNat = exponent.toNat := by
      omega
    have hrest : BitVec.ofNat binary64.mantissaBitsWithoutImplicit (2 ^ 52 + mantissa.toNat) =
        mantissa := by
      apply BitVec.eq_of_toNat_eq
      rw [BitVec.toNat_ofNat]
      change (2 ^ 52 + mantissa.toNat) % 2 ^ 52 = mantissa.toNat
      omega
    simp only [UnpackedFloat.pack, hbias, hwidth, happend]
    rw [if_pos hlog, hrest]
    rw [hbiased, if_neg (by omega), BitVec.ofNat_toNat, BitVec.setWidth_eq]

theorem packComponents_unpack (b : BitVec binary64.numBits) :
    packComponents binary64 (Sign.ofBitVec (UnpackedFloat.unpackSign b))
      (UnpackedFloat.unpackExponent b) (UnpackedFloat.unpackMantissa b) = b := by
  have hsign : ∀ bit : BitVec 1, (Sign.ofBitVec bit).toBitVec = bit := by decide
  simp only [packComponents, hsign, UnpackedFloat.unpackSign, UnpackedFloat.unpackExponent,
    UnpackedFloat.unpackMantissa]
  ext i hi
  grind

/-- NaN is written in one way only, so a number is written as it was read. -/
theorem pack_unpack {b : BitVec binary64.numBits} (h : binary64.Valid b) :
    UnpackedFloat.pack binary64 (UnpackedFloat.unpack binary64 b) = b := by
  rw [unpack_eq]
  by_cases hnumber : IsNumber (UnpackedFloat.unpackExponent b) (UnpackedFloat.unpackMantissa b)
  · rw [pack_ofComponents hnumber, packComponents_unpack]
  · obtain ⟨hexponent, hmantissa⟩ := Classical.not_imp.mp hnumber
    rw [ofComponents, if_pos hexponent, if_neg hmantissa, h.eq_packedNaN hexponent hmantissa]
    rfl

theorem unpack_pack_neg_unpack (b : BitVec binary64.numBits) :
    UnpackedFloat.unpack binary64
        (UnpackedFloat.pack binary64 (UnpackedFloat.unpack binary64 b).neg) =
      (UnpackedFloat.unpack binary64 b).neg := by
  rw [unpack_eq b, neg_ofComponents]
  by_cases hnumber : IsNumber (UnpackedFloat.unpackExponent b) (UnpackedFloat.unpackMantissa b)
  · rw [pack_ofComponents hnumber, unpack_packComponents]
  · obtain ⟨hexponent, hmantissa⟩ := Classical.not_imp.mp hnumber
    rw [ofComponents, if_pos hexponent, if_neg hmantissa]
    rfl

/-- A number and its opposite are written with the same exponent and mantissa. -/
theorem pack_eq_packComponents {u : UnpackedFloat} (h : u ≠ .notANumber) :
    ∃ sign exponent mantissa, IsNumber exponent mantissa ∧
      UnpackedFloat.pack binary64 u = packComponents binary64 sign exponent mantissa ∧
      UnpackedFloat.pack binary64 u.neg = packComponents binary64 (-sign) exponent mantissa := by
  cases u with
  | notANumber => exact absurd rfl h
  | infinity sign => exact ⟨sign, -1#_, 0#_, fun _ => rfl, rfl, rfl⟩
  | zero sign => exact ⟨sign, 0#_, 0#_, fun _ => rfl, rfl, rfl⟩
  | finite sign mantissa exponent hpos =>
    simp only [UnpackedFloat.neg, UnpackedFloat.pack]
    split_ifs with hlarge hnormal
    · exact ⟨sign, -1#_, 0#_, fun _ => rfl, rfl, rfl⟩
    · refine ⟨sign, _, _, fun heq => ?_, rfl, rfl⟩
      have hmax := congrArg BitVec.toNat heq
      rw [BitVec.toNat_ofNat, Nat.mod_eq_of_lt (by omega)] at hmax
      exact absurd (Nat.le_of_eq (congrArg (· + 1) hmax.symm)) hlarge
    · exact ⟨sign, 0#_, _, fun heq => absurd heq (by decide), rfl, rfl⟩

theorem pack_neg_unpack_pack (u : UnpackedFloat) :
    UnpackedFloat.pack binary64 (UnpackedFloat.unpack binary64 (UnpackedFloat.pack binary64 u)).neg =
      UnpackedFloat.pack binary64 u.neg := by
  by_cases hnan : u = .notANumber
  · subst hnan
    rfl
  · obtain ⟨sign, exponent, mantissa, hnumber, hpack, hneg⟩ := pack_eq_packComponents hnan
    rw [hpack, hneg, unpack_packComponents, neg_ofComponents, pack_ofComponents hnumber]

end Unpacked

/-! ## Arithmetic with zero -/

/-- A number as sign, mantissa and exponent. -/
def unpacked (x : Float) : UnpackedFloat :=
  x.toModel.unpack

/-- The number that is written for a sign, a mantissa and an exponent. -/
def packed (u : UnpackedFloat) : Float :=
  .ofModel (.pack u)

theorem packed_unpacked (x : Float) : packed (unpacked x) = x := by
  obtain ⟨⟨bits, hvalid⟩⟩ := x
  simp only [packed, unpacked, Float.Model.pack, Float.Model.unpack, Unpacked.pack_unpack hvalid]

theorem unpacked_neg (x : Float) : unpacked (-x) = (unpacked x).neg :=
  Unpacked.unpack_pack_neg_unpack _

theorem neg_packed (u : UnpackedFloat) : -packed u = packed u.neg := by
  change packed (unpacked (packed u)).neg = _
  simp only [packed, unpacked, Float.Model.pack, Float.Model.unpack,
    Unpacked.pack_neg_unpack_pack]

theorem unpacked_zero : unpacked 0.0 = .zero .positive := by
  simp only [unpacked, OfScientific.ofScientific, Float.ofScientific]
  rw [dif_pos (by decide)]
  rfl

theorem unpacked_packed_zero (sign : Sign) : unpacked (packed (.zero sign)) = .zero sign := by
  cases sign <;> rfl

theorem isZero_iff {x : Float} : (x == 0.0) = true ↔ ∃ sign, unpacked x = .zero sign := by
  have hbeq : (x == 0.0) = (unpacked x).beq (unpacked 0.0) := rfl
  rw [hbeq, unpacked_zero, UnpackedFloat.beq]
  cases unpacked x with
  | notANumber => simp [UnpackedFloat.compare]
  | infinity sign => cases sign <;> simp [UnpackedFloat.compare]
  | zero sign => simp [UnpackedFloat.compare]
  | finite sign mantissa exponent hpos => cases sign <;> simp [UnpackedFloat.compare]

/-- Two numbers are the same, up to the sign of a zero. -/
def SameNumber (x y : Float) : Prop :=
  x = y ∨ (x == 0.0) = true ∧ (y == 0.0) = true

namespace SameNumber

variable {x y z : Float}

theorem refl (x : Float) : SameNumber x x :=
  .inl rfl

theorem symm (h : SameNumber x y) : SameNumber y x :=
  h.imp Eq.symm And.symm

theorem trans (h : SameNumber x y) (h' : SameNumber y z) : SameNumber x z := by
  rcases h with rfl | ⟨hx, hy⟩
  · exact h'
  · rcases h' with rfl | ⟨-, hz⟩
    · exact .inr ⟨hx, hy⟩
    · exact .inr ⟨hx, hz⟩

theorem of_zeros {sign sign' : Sign} (hx : unpacked x = .zero sign) (hy : unpacked y = .zero sign') :
    SameNumber x y :=
  .inr ⟨isZero_iff.mpr ⟨sign, hx⟩, isZero_iff.mpr ⟨sign', hy⟩⟩

/-- What does not look at the sign of a zero is the same for the same number. -/
theorem congr {α : Type} {f : UnpackedFloat → α}
    (hf : ∀ sign sign', f (.zero sign) = f (.zero sign')) (h : SameNumber x y) :
    f (unpacked x) = f (unpacked y) := by
  rcases h with rfl | ⟨hx, hy⟩
  · rfl
  · obtain ⟨sign, hx⟩ := isZero_iff.mp hx
    obtain ⟨sign', hy⟩ := isZero_iff.mp hy
    rw [hx, hy, hf]

theorem neg (h : SameNumber x y) : SameNumber (-x) (-y) := by
  rcases h with rfl | ⟨hx, hy⟩
  · exact .refl _
  · obtain ⟨sign, hx⟩ := isZero_iff.mp hx
    obtain ⟨sign', hy⟩ := isZero_iff.mp hy
    exact of_zeros (by rw [unpacked_neg, hx]; rfl) (by rw [unpacked_neg, hy]; rfl)

end SameNumber

theorem zero_add_same (x : Float) : SameNumber (0.0 + x) x := by
  have hadd : 0.0 + x = packed (UnpackedFloat.add binary64 (unpacked 0.0) (unpacked x)) := rfl
  have hx := packed_unpacked x
  rw [unpacked_zero] at hadd
  cases hu : unpacked x with
  | zero sign =>
    have hsum : unpacked (0.0 + x) = .zero .positive := by
      rw [hadd, hu]
      cases sign <;> rfl
    exact .of_zeros hsum hu
  | notANumber | infinity | finite =>
    rw [hu] at hadd hx
    exact .inl (hadd.trans hx)

theorem zero_sub_same (x : Float) : SameNumber (0.0 - x) (-x) := by
  have hsub : 0.0 - x = packed (UnpackedFloat.sub binary64 (unpacked 0.0) (unpacked x)) := rfl
  have hneg : -x = packed (unpacked x).neg := rfl
  rw [unpacked_zero] at hsub
  cases hu : unpacked x with
  | zero sign =>
    have hdifference : unpacked (0.0 - x) = .zero .positive := by
      rw [hsub, hu]
      cases sign <;> rfl
    have hopposite : unpacked (-x) = .zero (-sign) := by
      rw [unpacked_neg, hu]
      rfl
    exact .of_zeros hdifference hopposite
  | notANumber | infinity | finite =>
    rw [hu] at hsub hneg
    exact .inl (hsub.trans hneg.symm)

/-! ## Conversions -/

theorem intOfFloat_congr {x y : Float} (h : SameNumber x y) : intOfFloat x = intOfFloat y :=
  h.congr (f := UnpackedFloat.toInt64) fun _ _ => rfl

theorem toInt_neg_of_ne {n : Int64} (h : n ≠ Int64.minValue) : (-n).toInt = -n.toInt := by
  have hne : n.toInt ≠ -2 ^ 63 := fun heq => h (Int64.toInt_inj.mp (heq.trans Int64.toInt_minValue.symm))
  have hlow := Int64.le_toInt n
  have hhigh := Int64.toInt_lt n
  rw [Int64.toInt_neg]
  exact Int.bmod_eq_of_le (by omega) (by omega)

theorem ofIntClamp_neg {k : Int} (hmin : Int64.ofIntClamp k ≠ Int64.minValue)
    (hmax : Int64.ofIntClamp k ≠ Int64.maxValue) :
    Int64.ofIntClamp (-k) = -Int64.ofIntClamp k := by
  have hlow : Int64.minValue.toInt ≤ k := by
    by_contra hlt
    exact hmin (dif_neg hlt)
  have hhigh : k ≤ Int64.maxValue.toInt := by
    by_contra hlt
    exact hmax ((dif_pos hlow).trans (dif_neg hlt))
  have hk := Int64.toInt_ofIntClamp hlow hhigh
  have hneg := toInt_neg_of_ne hmin
  have hne : k ≠ Int64.minValue.toInt := fun heq => hmin (Int64.toInt_inj.mp (hk.trans heq))
  rw [Int64.toInt_minValue] at hlow hne
  rw [Int64.toInt_maxValue] at hhigh
  apply Int64.toInt_inj.mp
  rw [hneg, hk, Int64.toInt_ofIntClamp]
  · rw [Int64.toInt_minValue]
    omega
  · rw [Int64.toInt_maxValue]
    omega

/-- Cutting off the fraction does not depend on the sign, except at the ends of the range. -/
theorem intOfFloat_neg {x : Float} (hmin : intOfFloat x ≠ Int64.minValue)
    (hmax : intOfFloat x ≠ Int64.maxValue) : intOfFloat (-x) = -intOfFloat x := by
  change UnpackedFloat.toInt64 (unpacked (-x)) = -UnpackedFloat.toInt64 (unpacked x)
  change UnpackedFloat.toInt64 (unpacked x) ≠ _ at hmin hmax
  rw [unpacked_neg]
  cases hu : unpacked x with
  | notANumber | zero => exact (Int64.neg_zero).symm
  | infinity sign =>
    rw [hu] at hmin hmax
    cases sign
    · exact absurd rfl hmin
    · exact absurd rfl hmax
  | finite sign mantissa exponent hpos =>
    rw [hu] at hmin hmax
    have hround : UnpackedFloat.roundToInt (-sign) mantissa exponent =
        -UnpackedFloat.roundToInt sign mantissa exponent := by
      cases sign
      · exact (Int.neg_neg _).symm
      · rfl
    simp only [UnpackedFloat.toInt64, UnpackedFloat.neg, UnpackedFloat.toInt] at hmin hmax ⊢
    rw [hround, ofIntClamp_neg hmin hmax]

theorem round_neg (sign : Sign) (mantissa : Nat) (exponent : Int) :
    UnpackedFloat.round binary64 (-sign) mantissa exponent =
      (UnpackedFloat.round binary64 sign mantissa exponent).neg := by
  simp only [UnpackedFloat.round, UnpackedFloat.roundWithAccuracy]
  split_ifs <;> rfl

theorem ofInt_neg {k : Int} (h : k ≠ 0) :
    UnpackedFloat.ofInt binary64 (-k) = (UnpackedFloat.ofInt binary64 k).neg := by
  simp only [UnpackedFloat.ofInt, UnpackedFloat.normalize]
  rcases Int.lt_or_gt_of_ne h with hlt | hgt
  · rw [Int.compare_eq_gt.mpr (by omega), Int.compare_eq_lt.mpr hlt]
    exact round_neg .negative _ _
  · rw [Int.compare_eq_lt.mpr (by omega), Int.compare_eq_gt.mpr hgt, Int.neg_neg]
    exact round_neg .positive _ _

/-- An integer converts to the opposite of what its opposite converts to. The smallest one has no
opposite. -/
theorem floatOfInt_neg {n : Int64} (h : n ≠ Int64.minValue) :
    SameNumber (floatOfInt (-n)) (-floatOfInt n) := by
  change SameNumber (packed (UnpackedFloat.ofInt binary64 (-n).toInt))
    (-packed (UnpackedFloat.ofInt binary64 n.toInt))
  rw [neg_packed, toInt_neg_of_ne h]
  by_cases hzero : n.toInt = 0
  · rw [hzero]
    exact .of_zeros (unpacked_packed_zero .positive) (unpacked_packed_zero .negative)
  · rw [ofInt_neg hzero]
    exact .refl _

end ShaderLang.Ir
