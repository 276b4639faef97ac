import EventScript.Number
import Mathlib

/-!
Whole numbers below `2 ^ 53` among the doubles: they are added, subtracted and compared without
rounding, and a number that denotes a position up to `2 ^ 53` is the double of that position.
-/
namespace EventScript.Number
open Float.Model Float.Model.UnpackedFloat

/-- How doubles hold `n`: the significand filled up to 53 bits. -/
def unpackedWhole (n : ℕ) : UnpackedFloat :=
  if h : n = 0 then .zero .positive
  else .finite .positive (n * 2 ^ (52 - n.log2)) (n.log2 - 52)
    (Nat.mul_pos (Nat.pos_of_ne_zero h) (Nat.two_pow_pos _))

variable {a b n : ℕ}

theorem log2_lt_53 (below : n < 2 ^ 53) : n.log2 < 53 := by
  rcases Nat.eq_zero_or_pos n with rfl | positive
  · decide
  · exact (Nat.log2_lt positive.ne').2 below

theorem log2_mul_two_pow (positive : 0 < n) (k : ℕ) : (n * 2 ^ k).log2 = n.log2 + k := by
  rw [Nat.log2_eq_iff (Nat.mul_pos positive (Nat.two_pow_pos k)).ne']
  have lower := Nat.log2_self_le positive.ne'
  have upper := Nat.lt_log2_self (n := n)
  constructor
  · rw [pow_add]
    exact Nat.mul_le_mul_right _ lower
  · calc n * 2 ^ k
      _ < 2 ^ (n.log2 + 1) * 2 ^ k := Nat.mul_lt_mul_of_pos_right upper (Nat.two_pow_pos k)
      _ = 2 ^ (n.log2 + k + 1) := by ring

/-- The filled significand has 53 bits. -/
theorem log2_significand (positive : 0 < n) (below : n < 2 ^ 53) :
    (n * 2 ^ (52 - n.log2)).log2 = 52 := by
  have := log2_lt_53 below
  rw [log2_mul_two_pow positive]
  omega

theorem significand_bounds (positive : 0 < n) (below : n < 2 ^ 53) :
    2 ^ 52 ≤ n * 2 ^ (52 - n.log2) ∧ n * 2 ^ (52 - n.log2) < 2 ^ 53 := by
  have pos : n * 2 ^ (52 - n.log2) ≠ 0 := (Nat.mul_pos positive (Nat.two_pow_pos _)).ne'
  exact (Nat.log2_eq_iff pos).1 (log2_significand positive below)

/-- Shifting out zeros loses nothing. -/
theorem repeat_shiftRightOne (m k : ℕ) :
    Nat.repeat ExtendedMantissa.shiftRightOne k ⟨m * 2 ^ k, false, false⟩ = ⟨m, false, false⟩ := by
  induction k generalizing m with
  | zero => simp [Nat.repeat]
  | succ k ih =>
    have shifted : m * 2 ^ (k + 1) = 2 * m * 2 ^ k := by ring
    rw [Nat.repeat, shifted, ih]
    simp [ExtendedMantissa.shiftRightOne]

theorem targetExponent_whole (positive : 0 < n) (k : ℕ) :
    Format.binary64.targetExponent (totalExponent (n * 2 ^ k) (-k)) = n.log2 - 52 := by
  have bits : (Format.binary64.mantissaBits : ℤ) = 53 := rfl
  have least : Format.binary64.minExponent = -1074 := by decide
  rw [Format.targetExponent, totalExponent, log2_mul_two_pow positive, bits, least]
  push_cast
  omega

theorem shiftToTargetExponent_whole (positive : 0 < n) {k : ℕ} (filled : 52 ≤ n.log2 + k)
    (below : n < 2 ^ 53) :
    shiftToTargetExponent .binary64 (n * 2 ^ k) (-k) .exact
      = (⟨n * 2 ^ (52 - n.log2), false, false⟩, (n.log2 : ℤ) - 52) := by
  have small := log2_lt_53 below
  have amount : ((n.log2 : ℤ) - 52 - -(k : ℤ)).toNat = n.log2 + k - 52 := by omega
  have split : n * 2 ^ k = n * 2 ^ (52 - n.log2) * 2 ^ (n.log2 + k - 52) := by
    rw [mul_assoc, ← pow_add]
    congr 2
    omega
  rw [shiftToTargetExponent, targetExponent_whole positive, shiftToExponent]
  simp only [amount, ExtendedMantissa.ofMantissaAndAccuracy]
  rw [split]
  refine Prod.ext (repeat_shiftRightOne _ _) ?_
  simp only
  omega

/-- Rounding leaves a whole number alone. -/
theorem roundWithAccuracy_whole (positive : 0 < n) {k : ℕ} (filled : 52 ≤ n.log2 + k)
    (below : n < 2 ^ 53) :
    roundWithAccuracy .binary64 .positive (n * 2 ^ k) (-k) .exact = unpackedWhole n := by
  have small := log2_lt_53 below
  have again := shiftToTargetExponent_whole (k := 52 - n.log2) positive (by omega) below
  have exponent : -((52 - n.log2 : ℕ) : ℤ) = n.log2 - 52 := by omega
  have pos : n * 2 ^ (52 - n.log2) ≠ 0 := (Nat.mul_pos positive (Nat.two_pow_pos _)).ne'
  have kept (m : ℕ) : (⟨m, false, false⟩ : ExtendedMantissa).roundedMantissa = m := rfl
  rw [exponent] at again
  simp only [roundWithAccuracy, shiftToTargetExponent_whole positive filled below, kept, again]
  rw [dif_neg pos, unpackedWhole, dif_neg positive.ne']

theorem normalize_whole (below : n < 2 ^ 53) (k : ℕ) :
    UnpackedFloat.normalize .binary64 ((n * 2 ^ k : ℕ) : ℤ) (-k) .positive = unpackedWhole n := by
  rcases Nat.eq_zero_or_pos n with rfl | positive
  · simp [UnpackedFloat.normalize, unpackedWhole]
  · have pos : (0 : ℤ) < ((n * 2 ^ k : ℕ) : ℤ) :=
      Int.natCast_pos.2 (Nat.mul_pos positive (Nat.two_pow_pos k))
    have small := log2_lt_53 below
    have amount : (-(k : ℤ) - ((n.log2 : ℤ) - 52)).toNat = 52 - n.log2 - k := by omega
    rw [UnpackedFloat.normalize, Int.compare_eq_gt.2 pos]
    simp only [UnpackedFloat.round, Int.toNat_natCast, targetExponent_whole positive,
      decreaseExponent, amount]
    rw [Nat.shiftLeft_eq, mul_assoc, ← pow_add]
    have exponent : -(k : ℤ) - ((52 - n.log2 - k : ℕ) : ℤ)
        = -((k + (52 - n.log2 - k) : ℕ) : ℤ) := by
      push_cast
      ring
    rw [exponent]
    exact roundWithAccuracy_whole positive (by omega) below

/-- Two wholes brought to one unit. -/
theorem decreaseExponent_whole (below : n < 2 ^ 53) {k : ℕ} (finer : 52 - n.log2 ≤ k) :
    decreaseExponent (n * 2 ^ (52 - n.log2)) (n.log2 - 52) (-k) = (n * 2 ^ k, -(k : ℤ)) := by
  have small := log2_lt_53 below
  have amount : ((n.log2 : ℤ) - 52 - -(k : ℤ)).toNat = k - (52 - n.log2) := by omega
  simp only [decreaseExponent, amount]
  rw [Nat.shiftLeft_eq, mul_assoc, ← pow_add]
  refine Prod.ext ?_ (by simp only; omega)
  simp only
  congr 2
  omega

theorem min_exponent (belowA : a < 2 ^ 53) (belowB : b < 2 ^ 53) :
    min ((a.log2 : ℤ) - 52) (b.log2 - 52) = -((max (52 - a.log2) (52 - b.log2) : ℕ) : ℤ) := by
  have := log2_lt_53 belowA
  have := log2_lt_53 belowB
  omega

theorem add_whole (below : a + b < 2 ^ 53) :
    UnpackedFloat.add .binary64 (unpackedWhole a) (unpackedWhole b) = unpackedWhole (a + b) := by
  rcases Nat.eq_zero_or_pos a with rfl | posA <;> rcases Nat.eq_zero_or_pos b with rfl | posB
  · rfl
  · simp [unpackedWhole, posB.ne', UnpackedFloat.add]
  · simp [unpackedWhole, posA.ne', UnpackedFloat.add]
  · have belowA : a < 2 ^ 53 := by omega
    have belowB : b < 2 ^ 53 := by omega
    rw [unpackedWhole, dif_neg posA.ne', unpackedWhole, dif_neg posB.ne']
    simp only [UnpackedFloat.add, min_exponent belowA belowB,
      decreaseExponent_whole belowA (Nat.le_max_left _ _),
      decreaseExponent_whole belowB (Nat.le_max_right _ _), Sign.apply]
    rw [← Int.natCast_add, ← Nat.add_mul]
    exact normalize_whole below _

theorem sub_whole (below : a < 2 ^ 53) (le : b ≤ a) :
    UnpackedFloat.sub .binary64 (unpackedWhole a) (unpackedWhole b) = unpackedWhole (a - b) := by
  rcases Nat.eq_zero_or_pos b with rfl | posB
  · rcases Nat.eq_zero_or_pos a with rfl | posA
    · rfl
    · simp [unpackedWhole, posA.ne', UnpackedFloat.sub]
  · have posA : 0 < a := by omega
    have belowB : b < 2 ^ 53 := by omega
    rw [unpackedWhole, dif_neg posA.ne', unpackedWhole, dif_neg posB.ne']
    simp only [UnpackedFloat.sub, min_exponent below belowB,
      decreaseExponent_whole below (Nat.le_max_left _ _),
      decreaseExponent_whole belowB (Nat.le_max_right _ _), Sign.apply]
    rw [← Int.natCast_sub (Nat.mul_le_mul_right _ le), ← Nat.sub_mul]
    exact normalize_whole (by omega) _

/-- Doubles that are whole are ordered as the wholes are: first by their bits, then by their
filled significands. -/
theorem compare_whole (belowA : a < 2 ^ 53) (belowB : b < 2 ^ 53) :
    UnpackedFloat.compare (unpackedWhole a) (unpackedWhole b) = some (compare a b) := by
  rcases Nat.eq_zero_or_pos a with rfl | posA <;> rcases Nat.eq_zero_or_pos b with rfl | posB
  · rfl
  · simp [unpackedWhole, posB.ne', UnpackedFloat.compare, Nat.compare_eq_lt.2 posB]
  · simp [unpackedWhole, posA.ne', UnpackedFloat.compare, Nat.compare_eq_gt.2 posA]
  · rw [unpackedWhole, dif_neg posA.ne', unpackedWhole, dif_neg posB.ne']
    simp only [UnpackedFloat.compare, Option.some.injEq]
    rcases lt_trichotomy a.log2 b.log2 with lt | same | gt
    · have less : a < b := ((Nat.log2_lt posA.ne').1 lt).trans_le (Nat.log2_self_le posB.ne')
      have earlier : compare ((a.log2 : ℤ) - 52) (b.log2 - 52) = .lt :=
        Int.compare_eq_lt.2 (by omega)
      rw [earlier, Nat.compare_eq_lt.2 less]
      rfl
    · rw [same, Int.compare_eq_eq.2 rfl]
      have unit := Nat.two_pow_pos (52 - b.log2)
      rcases lt_trichotomy a b with lt | rfl | gt
      · rw [Nat.compare_eq_lt.2 lt, Nat.compare_eq_lt.2 (Nat.mul_lt_mul_of_pos_right lt unit)]
        rfl
      · simp
      · rw [Nat.compare_eq_gt.2 gt, Nat.compare_eq_gt.2 (Nat.mul_lt_mul_of_pos_right gt unit)]
        rfl
    · have more : b < a := ((Nat.log2_lt posB.ne').1 gt).trans_le (Nat.log2_self_le posA.ne')
      have later : compare ((a.log2 : ℤ) - 52) (b.log2 - 52) = .gt :=
        Int.compare_eq_gt.2 (by omega)
      rw [later, Nat.compare_eq_gt.2 more]
      rfl

/-! Words: their three fields, and the words of whole numbers. -/

theorem exponentField_eq (c : Number) : c.exponentField = c.bits.toNat / 2 ^ 52 % 2 ^ 11 := by
  have mask : (0x7ff : UInt64).toNat = 2 ^ 11 - 1 := rfl
  rw [exponentField, UInt64.toNat_and, mask, Nat.and_two_pow_sub_one_eq_mod,
    UInt64.toNat_shiftRight]
  simp [Nat.shiftRight_eq_div_pow]

theorem fraction_eq (c : Number) : c.fraction = c.bits.toNat % 2 ^ 52 := by
  have mask : (0xfffffffffffff : UInt64).toNat = 2 ^ 52 - 1 := rfl
  rw [fraction, UInt64.toNat_and, mask, Nat.and_two_pow_sub_one_eq_mod]

theorem negative_eq (c : Number) : c.negative = decide (2 ^ 63 ≤ c.bits.toNat) := by
  have mask : (0x8000000000000000 : UInt64).toNat = 2 ^ 63 := rfl
  have small := c.bits.toNat_lt
  have zero : (c.bits &&& 0x8000000000000000 = 0) ↔ c.bits.toNat < 2 ^ 63 := by
    rw [← UInt64.toNat_inj, UInt64.toNat_and, mask, Nat.and_two_pow,
      Nat.testBit_eq_decide_div_mod_eq]
    by_cases top : c.bits.toNat / 2 ^ 63 % 2 = 1
    · simp
      omega
    · simp
      omega
  rw [negative, bne, beq_eq_decide, ← decide_not, decide_eq_decide, zero, not_lt]

theorem ext_fields {c d : Number} (sign : c.negative = d.negative)
    (exponent : c.exponentField = d.exponentField) (fraction : c.fraction = d.fraction) :
    c = d := by
  rw [negative_eq, negative_eq, decide_eq_decide] at sign
  rw [exponentField_eq, exponentField_eq] at exponent
  rw [fraction_eq, fraction_eq] at fraction
  have smallC := c.bits.toNat_lt
  have smallD := d.bits.toNat_lt
  have words : c.bits.toNat = d.bits.toNat := by omega
  exact congrArg Number.mk (UInt64.toNat_inj.1 words)

theorem toNat_packComponents (s : Sign) (e : BitVec 11) (m : BitVec 52) :
    (packComponents .binary64 s e m).toNat
      = s.toBitVec.toNat * 2 ^ 63 + e.toNat * 2 ^ 52 + m.toNat := by
  have em := e.isLt
  have mm := m.isLt
  simp only [packComponents]
  rw [BitVec.toNat_append, ← Nat.shiftLeft_add_eq_or_of_lt mm, BitVec.toNat_append,
    ← Nat.shiftLeft_add_eq_or_of_lt em, Nat.shiftLeft_eq, Nat.shiftLeft_eq]
  ring

theorem sign_packComponents (s : Sign) (e : BitVec 11) (m : BitVec 52) :
    Sign.ofBitVec (unpackSign (packComponents .binary64 s e m)) = s := by
  simp only [unpackSign, packComponents, BitVec.extractLsb]
  rw [BitVec.extractLsb'_append_eq_of_le (by decide),
    BitVec.extractLsb'_append_eq_of_le (by decide)]
  cases s <;> rfl

theorem pack_whole (positive : 0 < n) (below : n < 2 ^ 53) :
    UnpackedFloat.pack .binary64 (unpackedWhole n) = packComponents .binary64 .positive
      (BitVec.ofNat 11 (n.log2 + 1023)) (BitVec.ofNat 52 (n * 2 ^ (52 - n.log2))) := by
  have small := log2_lt_53 below
  have bias : ((n.log2 : ℤ) - 52 + Format.binary64.exponentBias
      + Format.binary64.mantissaBitsWithoutImplicit).toNat = n.log2 + 1023 := by
    have offset : (Format.binary64.exponentBias : ℤ) = 1023 := rfl
    have width : (Format.binary64.mantissaBitsWithoutImplicit : ℤ) = 52 := rfl
    rw [offset, width]
    omega
  have bits : (Format.binary64).mantissaBits = 53 := rfl
  rw [unpackedWhole, dif_neg positive.ne', UnpackedFloat.pack]
  simp only [bias, log2_significand positive below, bits]
  rw [if_neg (by omega), if_pos trivial]

theorem unpack_pack_whole (below : n < 2 ^ 53) :
    UnpackedFloat.unpack .binary64 (UnpackedFloat.pack .binary64 (unpackedWhole n))
      = unpackedWhole n := by
  rcases Nat.eq_zero_or_pos n with rfl | positive
  · rfl
  have small := log2_lt_53 below
  obtain ⟨lower, upper⟩ := significand_bounds positive below
  have exponent : (BitVec.ofNat 11 (n.log2 + 1023)).toNat = n.log2 + 1023 := by
    rw [BitVec.toNat_ofNat, Nat.mod_eq_of_lt (by omega)]
  have notTop : BitVec.ofNat 11 (n.log2 + 1023) ≠ -1#11 := by
    rw [Ne, ← BitVec.toNat_inj, exponent]
    simp
    omega
  have notBottom : BitVec.ofNat 11 (n.log2 + 1023) ≠ 0#11 := by
    rw [Ne, ← BitVec.toNat_inj, exponent]
    simp
  have significand : (1#1 ++ BitVec.ofNat 52 (n * 2 ^ (52 - n.log2))).toNat
      = n * 2 ^ (52 - n.log2) := by
    rw [BitVec.toNat_append, ← Nat.shiftLeft_add_eq_or_of_lt (BitVec.isLt _), BitVec.toNat_ofNat,
      Nat.shiftLeft_eq]
    simp
    omega
  have unbiased : ((n.log2 + 1023 : ℕ) : ℤ) - (Format.binary64.exponentBias + (52 : ℕ))
      = n.log2 - 52 := by
    have bias : (Format.binary64.exponentBias : ℤ) = 1023 := rfl
    rw [bias]
    omega
  rw [pack_whole positive below, UnpackedFloat.unpack]
  simp only [unpackMantissa_packComponents, unpackExponent_packComponents, sign_packComponents]
  rw [if_neg notTop, if_neg notBottom, unpackedWhole, dif_neg positive.ne']
  simp only [significand, exponent, unbiased]

theorem mul_one_whole (below : n < 2 ^ 53) :
    UnpackedFloat.mul .binary64 (unpackedWhole n) (unpackedWhole 1) = unpackedWhole n := by
  rcases Nat.eq_zero_or_pos n with rfl | positive
  · rfl
  have small := log2_lt_53 below
  have unit : unpackedWhole 1 = .finite .positive (2 ^ 52) (-52) (Nat.two_pow_pos 52) := rfl
  have exponent : (n.log2 : ℤ) - 52 + -52 = -((52 - n.log2 + 52 : ℕ) : ℤ) := by omega
  have product : n * 2 ^ (52 - n.log2) * 2 ^ 52 = n * 2 ^ (52 - n.log2 + 52) := by
    rw [mul_assoc, ← pow_add]
  rw [unit, unpackedWhole, dif_neg positive.ne']
  simp only [UnpackedFloat.mul, exponent, product]
  have filled := roundWithAccuracy_whole (k := 52 - n.log2 + 52) positive (by omega) below
  rwa [unpackedWhole, dif_neg positive.ne'] at filled

/-- The word of a whole number. -/
theorem toModel_ofNat (below : n < 2 ^ 53) :
    (Float.ofNat n).toModel = Float.Model.pack (unpackedWhole n) := by
  have word : n.toUInt64.toNat = n := by
    simp
    omega
  have converted : UnpackedFloat.ofUInt64 .binary64 n.toUInt64 = unpackedWhole n := by
    rw [UnpackedFloat.ofUInt64, UnpackedFloat.ofNat, UnpackedFloat.ofInt, word]
    simpa using normalize_whole below 0
  have unit : (Float.ofBits 0x3FF0000000000000).toModel.unpack = unpackedWhole 1 := rfl
  have scaled : Float.ofNat n = n.toUInt64.toFloat * Float.ofBits 0x3FF0000000000000 := by
    show Float.ofScientific n false 0 = _
    rw [Float.ofScientific, dif_pos ⟨below, by decide⟩]
    rfl
  rw [scaled]
  show Float.Model.pack (UnpackedFloat.mul .binary64
    (UnpackedFloat.unpack .binary64 (UnpackedFloat.pack .binary64 (.ofUInt64 .binary64 n.toUInt64)))
    (Float.ofBits 0x3FF0000000000000).toModel.unpack) = _
  rw [converted, unpack_pack_whole below, unit, mul_one_whole below]

/-! Arithmetic and order of wholes. -/

theorem ofNat_eq_mk (below : n < 2 ^ 53) :
    ofNat n = ⟨.ofBitVec (UnpackedFloat.pack .binary64 (unpackedWhole n))⟩ := by
  show (⟨(Float.ofNat n).toModel.toBits⟩ : Number) = _
  rw [toModel_ofNat below]
  rfl

theorem unpack_toFloat_ofNat (below : n < 2 ^ 53) :
    (ofNat n).toFloat.toModel.unpack = unpackedWhole n := by
  rw [ofNat_eq_mk below]
  show UnpackedFloat.unpack .binary64 (UnpackedFloat.pack .binary64
    (UnpackedFloat.unpack .binary64 (UnpackedFloat.pack .binary64 (unpackedWhole n)))) = _
  rw [unpack_pack_whole below, unpack_pack_whole below]

theorem toNat_bits_ofNat (positive : 0 < n) (below : n < 2 ^ 53) :
    (ofNat n).bits.toNat = (n.log2 + 1022) * 2 ^ 52 + n * 2 ^ (52 - n.log2) := by
  have small := log2_lt_53 below
  obtain ⟨lower, upper⟩ := significand_bounds positive below
  rw [ofNat_eq_mk below]
  show (UnpackedFloat.pack .binary64 (unpackedWhole n)).toNat = _
  rw [pack_whole positive below, toNat_packComponents]
  simp only [Sign.toBitVec, BitVec.toNat_ofNat]
  omega

theorem fields_ofNat (positive : 0 < n) (below : n < 2 ^ 53) :
    (ofNat n).negative = false ∧ (ofNat n).exponentField = n.log2 + 1023
      ∧ (ofNat n).fraction = n * 2 ^ (52 - n.log2) - 2 ^ 52 := by
  have small := log2_lt_53 below
  have word := toNat_bits_ofNat positive below
  obtain ⟨lower, upper⟩ := significand_bounds positive below
  rw [negative_eq, exponentField_eq, fraction_eq, word, decide_eq_false_iff_not]
  omega

theorem isNaN_ofNat (below : n < 2 ^ 53) : (ofNat n).isNaN = false := by
  rcases Nat.eq_zero_or_pos n with rfl | positive
  · rfl
  · have small := log2_lt_53 below
    have exponent := (fields_ofNat positive below).2.1
    have notTop : (ofNat n).exponentField ≠ 0x7ff := by omega
    simp [isNaN, notTop]

theorem add_ofNat (below : a + b < 2 ^ 53) : (ofNat a).add (ofNat b) = ofNat (a + b) := by
  have belowA : a < 2 ^ 53 := by omega
  have belowB : b < 2 ^ 53 := by omega
  have sum : ofFloat ((ofNat a).toFloat + (ofNat b).toFloat) = ofNat (a + b) := by
    rw [ofNat_eq_mk below, ← add_whole below, ← unpack_toFloat_ofNat belowA,
      ← unpack_toFloat_ofNat belowB]
    rfl
  simp [add, combine, isNaN_ofNat belowA, isNaN_ofNat belowB, sum, isNaN_ofNat below]

theorem sub_ofNat (below : a < 2 ^ 53) (le : b ≤ a) :
    (ofNat a).sub (ofNat b) = ofNat (a - b) := by
  have belowB : b < 2 ^ 53 := by omega
  have belowD : a - b < 2 ^ 53 := by omega
  have difference : ofFloat ((ofNat a).toFloat - (ofNat b).toFloat) = ofNat (a - b) := by
    rw [ofNat_eq_mk belowD, ← sub_whole below le, ← unpack_toFloat_ofNat below,
      ← unpack_toFloat_ofNat belowB]
    rfl
  simp [sub, combine, isNaN_ofNat below, isNaN_ofNat belowB, difference, isNaN_ofNat belowD]

theorem below_ofNat (belowA : a < 2 ^ 53) (belowB : b < 2 ^ 53) :
    (ofNat a).below (ofNat b) = decide (a < b) := by
  rw [Number.below, decide_eq_decide]
  show decide ((ofNat a).toFloat.toModel.unpack.lt (ofNat b).toFloat.toModel.unpack = true) = true
    ↔ _
  rw [unpack_toFloat_ofNat belowA, unpack_toFloat_ofNat belowB, UnpackedFloat.lt,
    compare_whole belowA belowB]
  simp [Nat.compare_eq_lt]

theorem atLeast_ofNat (belowA : a < 2 ^ 53) (belowB : b < 2 ^ 53) :
    (ofNat a).atLeast (ofNat b) = decide (b ≤ a) := by
  rw [Number.atLeast, decide_eq_decide]
  show decide ((ofNat b).toFloat.toModel.unpack.le (ofNat a).toFloat.toModel.unpack = true) = true
    ↔ _
  rw [unpack_toFloat_ofNat belowA, unpack_toFloat_ofNat belowB, UnpackedFloat.le,
    compare_whole belowB belowA]
  simp [Nat.isLE_compare]

/-! Positions. -/

theorem significand_ofNat (positive : 0 < n) (below : n < 2 ^ 53) :
    (ofNat n).significand = n * 2 ^ (52 - n.log2) := by
  obtain ⟨lower, upper⟩ := significand_bounds positive below
  obtain ⟨-, exponent, fraction⟩ := fields_ofNat positive below
  rw [significand, exponent, fraction]
  simp
  omega

theorem scale_ofNat (positive : 0 < n) (below : n < 2 ^ 53) :
    (ofNat n).scale = n.log2 - 52 := by
  obtain ⟨-, exponent, -⟩ := fields_ofNat positive below
  rw [scale, exponent]
  simp
  omega

theorem wholeMagnitude?_ofNat (below : n < 2 ^ 53) : (ofNat n).wholeMagnitude? = some n := by
  rcases Nat.eq_zero_or_pos n with rfl | positive
  · rfl
  have small := log2_lt_53 below
  obtain ⟨-, exponent, -⟩ := fields_ofNat positive below
  have finite : (ofNat n).isFinite = true := by
    simp [isFinite, exponent]
    omega
  rw [wholeMagnitude?, if_pos finite, significand_ofNat positive below, scale_ofNat positive below]
  rcases Nat.lt_or_ge n.log2 52 with short | full
  · have unit : ((n.log2 : ℤ) - 52) = .negSucc (51 - n.log2) := by omega
    have bits : 51 - n.log2 + 1 = 52 - n.log2 := by omega
    simp [unit, bits, Nat.shiftLeft_eq]
  · have whole : n.log2 = 52 := by omega
    simp [whole]

theorem index?_ofNat (below : n < 2 ^ 53) : (ofNat n).index? = some n := by
  have sign : (ofNat n).negative = false ∨ n = 0 := by
    rcases Nat.eq_zero_or_pos n with rfl | positive
    · exact .inr rfl
    · exact .inl (fields_ofNat positive below).1
  have inRange : ((ofNat n).negative && n != 0 || decide (n > maxIndex + 1)) = false := by
    have small : ¬n > maxIndex + 1 := by
      rw [maxIndex]
      omega
    rcases sign with positive | rfl
    · simp [positive, small]
    · simp [maxIndex]
  have kept : min n maxIndex = n := by
    rw [maxIndex]
    omega
  simp [index?, wholeMagnitude?_ofNat below, inRange, kept]

theorem wholeMagnitude?_of_index? {c : Number} (position : c.index? = some n) (le : n ≤ 2 ^ 53) :
    c.wholeMagnitude? = some n ∧ (c.negative = false ∨ n = 0) := by
  rw [index?] at position
  split at position
  · rename_i k magnitude
    split at position
    · cases position
    · rename_i inRange
      simp only [Option.some.injEq] at position
      have same : k = n := by
        rw [maxIndex] at position
        omega
      subst same
      refine ⟨magnitude, ?_⟩
      by_contra wrong
      simp_all
  · cases position

/-- What a whole magnitude says of the fields. -/
theorem significand_of_whole {c : Number} (whole : c.wholeMagnitude? = some n) :
    (∃ k : ℕ, c.scale = k ∧ n = c.significand * 2 ^ k)
      ∨ ∃ k : ℕ, c.scale = -k ∧ c.significand = n * 2 ^ k := by
  rw [wholeMagnitude?] at whole
  split at whole
  · split at whole
    · rename_i k scale
      cases whole
      exact .inl ⟨k, scale, Nat.shiftLeft_eq _ _⟩
    · rename_i k scale
      simp only [Nat.one_shiftLeft] at whole
      split at whole
      · rename_i divides
        cases whole
        exact .inr ⟨k + 1, scale, (Nat.div_mul_cancel (Nat.dvd_of_mod_eq_zero divides)).symm⟩
      · cases whole
  · cases whole

/-- The fields tell a number up to `2 ^ 53` apart from all others. -/
theorem eq_ofNat_of_whole {c : Number} (whole : c.wholeMagnitude? = some n) (positive : 0 < n)
    (le : n ≤ 2 ^ 53) (sign : c.negative = false) : c = ofNat n := by
  have small : c.fraction < 2 ^ 52 := fraction_eq c ▸ Nat.mod_lt _ (Nat.two_pow_pos 52)
  -- A number of exponent zero would be below one.
  have normal : c.exponentField ≠ 0 := by
    intro zero
    have tiny : c.scale = -1074 := by rw [scale, if_pos zero]
    have digits : c.significand = c.fraction := by rw [significand, if_pos zero]
    rcases significand_of_whole whole with ⟨k, scale, -⟩ | ⟨k, scale, shifted⟩
    · omega
    · have unit : k = 1074 := by omega
      have := Nat.pow_lt_pow_right (a := 2) (by decide) (show 52 < k by omega)
      have := Nat.le_mul_of_pos_left (2 ^ k) positive
      omega
  have unit : c.scale = c.exponentField - 1075 := by rw [scale, if_neg normal]
  have digits : c.significand = 2 ^ 52 + c.fraction := by rw [significand, if_neg normal]; rfl
  rcases significand_of_whole whole with ⟨k, scale, shifted⟩ | ⟨k, scale, shifted⟩
  · rcases k with _ | _ | k
    · have full : n.log2 = 52 := (Nat.log2_eq_iff positive.ne').2 (by omega)
      obtain ⟨sign', exponent', fraction'⟩ := fields_ofNat positive (by omega)
      refine ext_fields (by rw [sign, sign']) (by omega) ?_
      rw [fraction', full]
      omega
    · have top : n = 2 ^ 53 := by omega
      subst top
      have exponent : (ofNat (2 ^ 53)).exponentField = 1076 := rfl
      have fraction : (ofNat (2 ^ 53)).fraction = 0 := rfl
      exact ext_fields sign (by omega) (by omega)
    · have := Nat.mul_le_mul (show 2 ^ 52 ≤ c.significand by omega)
        (Nat.pow_le_pow_right (show 0 < 2 by decide) (show 2 ≤ k + 1 + 1 by omega))
      omega
  · have bits : n.log2 + k = 52 := by
      rw [← log2_mul_two_pow positive, ← shifted, digits]
      exact (Nat.log2_eq_iff (by omega)).2 (by omega)
    have filled : 52 - n.log2 = k := by omega
    have below : n < 2 ^ 53 := by
      have := Nat.le_mul_of_pos_right n (Nat.two_pow_pos k)
      omega
    obtain ⟨sign', exponent', fraction'⟩ := fields_ofNat positive below
    refine ext_fields (by rw [sign, sign']) (by omega) ?_
    rw [fraction', filled]
    omega

theorem eq_zero_of_whole {c : Number} (whole : c.wholeMagnitude? = some 0) :
    c = zero ∨ c = zero.negate := by
  have normal : c.exponentField = 0 := by
    by_contra normal
    have digits : c.significand = 2 ^ 52 + c.fraction := by rw [significand, if_neg normal]; rfl
    rcases significand_of_whole whole with ⟨k, -, shifted⟩ | ⟨k, -, shifted⟩
    · have := Nat.two_pow_pos k
      have := Nat.mul_pos (show 0 < c.significand by omega) this
      omega
    · omega
  have digits : c.significand = c.fraction := by rw [significand, if_pos normal]
  have fraction : c.fraction = 0 := by
    rcases significand_of_whole whole with ⟨k, -, shifted⟩ | ⟨k, -, shifted⟩
    · have := Nat.two_pow_pos k
      rcases Nat.mul_eq_zero.1 shifted.symm with zero | zero <;> omega
    · omega
  cases sign : c.negative with
  | false => exact .inl (ext_fields sign normal fraction)
  | true => exact .inr (ext_fields sign normal fraction)

/-! Counting down. -/

theorem ofNat_one : ofNat 1 = one := rfl

theorem atLeast_one_top : (ofNat (2 ^ 53)).atLeast one = true := by decide

theorem sub_one_top : (ofNat (2 ^ 53)).sub one = ofNat (2 ^ 53 - 1) := by decide

/-- A number of position `n` is at least one exactly when `n` is. -/
theorem atLeast_one_of_index? {c : Number} (position : c.index? = some n) (le : n ≤ 2 ^ 53) :
    c.atLeast one = decide (1 ≤ n) := by
  obtain ⟨whole, sign⟩ := wholeMagnitude?_of_index? position le
  rcases Nat.eq_zero_or_pos n with rfl | positive
  · rcases eq_zero_of_whole whole with rfl | rfl <;> rfl
  · rw [eq_ofNat_of_whole whole positive le (sign.resolve_right positive.ne')]
    rcases le.lt_or_eq with below | top
    · rw [← ofNat_one, atLeast_ofNat below (by decide)]
    · rw [top, atLeast_one_top]
      rfl

/-- Up to `2 ^ 53` one can be taken off without rounding. -/
theorem index?_sub_one {c : Number} (position : c.index? = some (n + 1)) (le : n + 1 ≤ 2 ^ 53) :
    (c.sub one).index? = some n := by
  obtain ⟨whole, sign⟩ := wholeMagnitude?_of_index? position le
  have below : n < 2 ^ 53 := le
  have taken : (ofNat (n + 1)).sub one = ofNat n := by
    rcases le.lt_or_eq with below' | top
    · rw [← ofNat_one, sub_ofNat below' (by omega), Nat.add_sub_cancel]
    · rw [top, sub_one_top, Nat.eq_sub_of_add_eq top]
  rw [eq_ofNat_of_whole whole n.succ_pos le (sign.resolve_right n.succ_ne_zero), taken,
    index?_ofNat below]

/-- Past `2 ^ 53` doubles lie two apart, and taking one off may take nothing off. -/
example : (ofNat (2 ^ 53 + 4)).index? = some (2 ^ 53 + 4)
    ∧ (ofNat (2 ^ 53 + 4)).sub one = ofNat (2 ^ 53 + 4) := by
  decide

end EventScript.Number
