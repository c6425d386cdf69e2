import DimensionalAnalysis.Number.Decimal
import DimensionalAnalysis.Proofs.Number.Closest

/-!
# Decimals rounded

A decimal is a rational number (`Decimal.value`) under a sign, and its double is the nearest one
(`nearest_toFloat`) with that sign (`hasSign_toFloat`). What decimal it was is forgotten: two of
equal value and sign are the same double (`toFloat_congr`), however their digits and powers of ten
are written.

Core reads a decimal with places by one division and a whole one by one multiplication, of
significands that need not be doubles, and rounds once. For powers of ten that are too large or too
small to compute, it gives the infinity or the zero they would be rounded to.
-/

namespace DimensionalAnalysis

open Float.Model (Format UnpackedFloat totalExponent)
open Float.Model.UnpackedFloat

namespace Number

/-! ### Scientific notation -/

/-- The bound from which core no longer computes a power of ten. -/
theorem two_pow_exponentBits : (2 : ℤ) ^ Format.binary64.exponentBits = 2048 :=
  rfl

/-- A power of ten that core takes for too large is beyond all doubles. -/
theorem le_mul_ten_zpow {m : ℕ} (hm : 0 < m) {e : ℤ} (he : 1024 ≤ e) :
    (2 : ℚ) ^ (1024 : ℤ) ≤ m * 10 ^ e := by
  have hone : (1 : ℚ) ≤ m := by exact_mod_cast hm
  calc (2 : ℚ) ^ (1024 : ℤ) ≤ 2 ^ e := zpow_le_zpow_right₀ (by norm_num) he
    _ ≤ 10 ^ e := zpow_le_zpow_left₀ (by omega) (by norm_num) (by norm_num)
    _ ≤ m * 10 ^ e := le_mul_of_one_le_left (by positivity) hone

/-- A decimal that core takes for too small is below half of the smallest double. Ten is
replaced by two, which the length of the digits is then measured in. -/
theorem mul_ten_zpow_lt {m : ℕ} {e : ℤ} (he : e + m.log2 < -1075) :
    (m : ℚ) * 10 ^ e < 2 ^ (-1075 : ℤ) := by
  obtain ⟨k, rfl⟩ : ∃ k : ℕ, e = -k := ⟨(-e).toNat, by omega⟩
  have hpower : (10 : ℚ) ^ (-k : ℤ) ≤ 2 ^ (-k : ℤ) := by
    rw [zpow_neg, zpow_neg, zpow_natCast, zpow_natCast]
    exact inv_anti₀ (by positivity) (pow_le_pow_left₀ (by norm_num) (by norm_num) k)
  have hm : (m : ℚ) < 2 ^ ((m.log2 + 1 : ℕ) : ℤ) := by
    rw [zpow_natCast]
    exact_mod_cast Nat.lt_log2_self (n := m)
  calc (m : ℚ) * 10 ^ (-k : ℤ) ≤ m * 2 ^ (-k : ℤ) :=
        mul_le_mul_of_nonneg_left hpower (Nat.cast_nonneg m)
    _ < 2 ^ ((m.log2 + 1 : ℕ) : ℤ) * 2 ^ (-k : ℤ) := mul_lt_mul_of_pos_right hm (two_zpow_pos _)
    _ = 2 ^ (((m.log2 + 1 : ℕ) : ℤ) + -k) := (zpow_add₀ (by norm_num) _ _).symm
    _ ≤ 2 ^ (-1075 : ℤ) := zpow_le_zpow_right₀ (by norm_num) (by omega)

/-- A whole number is one significand, with enough bits behind it for its last place. -/
theorem nearest_whole {m : ℕ} (hm : 0 < m) (k : ℕ) (h : 0 < m <<< 53) (h' : 0 < 10 ^ k) :
    Nearest (m * 10 ^ k)
      (Float.Model.pack (UnpackedFloat.mul Format.binary64 (.finite .positive (m <<< 53) (-53) h)
        (.finite .positive (10 ^ k) 0 h'))).unpack := by
  have hvalue : signFactor .positive * (((m <<< 53 * 10 ^ k : ℕ) : ℚ) * 2 ^ (-53 : ℤ)) =
      m * 10 ^ k := by
    rw [Nat.shiftLeft_eq, signFactor, one_mul]
    push_cast
    norm_num
    ring
  have hbits : m <<< 53 * 10 ^ k = m * 10 ^ k * 2 ^ 53 := by
    rw [Nat.shiftLeft_eq]
    ring
  rw [← hvalue]
  refine nearest_roundWithAccuracy_exact .positive (Nat.mul_pos h h') ?_
  rw [binary64_targetExponent, totalExponent, hbits, log2_mul_two_pow (by positivity)]
  omega

/-- A decimal with places is a quotient. -/
theorem nearest_places {m : ℕ} (hm : 0 < m) (k : ℕ) (h : 0 < 10 ^ k) :
    Nearest (m / 10 ^ k)
      (Float.Model.pack (UnpackedFloat.div Format.binary64 (.finite .positive m 0 hm)
        (.finite .positive (10 ^ k) 0 h))).unpack := by
  have hnearest := nearest_div_finite .positive .positive 0 0 hm h
  simpa only [signFactor, one_mul, zpow_zero, mul_one, Nat.cast_pow, Nat.cast_ofNat] using hnearest

/-- **Scientific notation is read as the nearest double.**

Core takes one of five ways. Digits that are all zeros are a zero, powers of ten that are
certainly out of range are decided without computing them, and the others are computed by one
product or one quotient, which is rounded once. -/
theorem nearest_ofScientific (m : ℕ) (e : ℤ) :
    Nearest (m * 10 ^ e) (Float.Model.pack (ofScientific Format.binary64 m e)).unpack := by
  unfold ofScientific
  rw [two_pow_exponentBits]
  -- no digits, too large, too small, whole, and with places
  split_ifs with hzero hlarge hsmall hwhole
  · rw [hzero, Nat.cast_zero, zero_mul]
    exact .of_canonical trivial rfl
  · rw [unpack_pack (show IsCanonical (.infinity .positive) from trivial)]
    exact nearest_infinity ((sub_le_self _ (two_zpow_pos _).le).trans
      (le_mul_ten_zpow (by omega) (by omega)))
  · rw [unpack_pack (show IsCanonical (.zero .positive) from trivial)]
    refine nearest_zero _ ?_
    rw [abs_of_nonneg (by positivity)]
    exact mul_ten_zpow_lt (by omega)
  · obtain ⟨k, rfl⟩ := Int.eq_ofNat_of_zero_le hwhole
    rw [zpow_natCast]
    exact nearest_whole (by omega) k _ _
  · obtain ⟨k, rfl⟩ : ∃ k : ℕ, e = -k := ⟨(-e).toNat, by omega⟩
    rw [zpow_neg, zpow_natCast, ← div_eq_mul_inv]
    simp only [neg_neg, Int.toNat_natCast]
    exact nearest_places (by omega) k _

/-- What core reads has no sign, not even as a zero; numerals bring theirs along. -/
theorem hasSign_ofScientific (m : ℕ) (e : ℤ) :
    HasSign .positive (ofScientific Format.binary64 m e) := by
  unfold ofScientific
  split_ifs
  · rfl
  · rfl
  · rfl
  · exact .roundWithAccuracy _ _ _ _
  · exact .roundWithAccuracy _ _ _ _

end Number

namespace Decimal

open Number

/-! ### Values of decimals -/

/-- The sign of the numeral, also if its digits are zeros. -/
def sign (d : Decimal) : Sign :=
  if d.negative then .negative else .positive

/-- The number that the decimal is. -/
def value (d : Decimal) : ℚ :=
  signFactor d.sign * (d.digits * 10 ^ d.exponent)

/-- **A decimal is read as the nearest double.** -/
theorem nearest_toFloat (d : Decimal) : Nearest d.value d.toFloat.toModel.unpack := by
  have hmagnitude := nearest_ofScientific d.digits d.exponent
  rw [value, sign, toFloat]
  cases d.negative with
  | false =>
    rw [if_neg (by decide), if_neg (by decide), signFactor, one_mul]
    exact hmagnitude
  | true =>
    rw [if_pos rfl, if_pos rfl, signFactor, neg_one_mul, unpack_neg]
    exact hmagnitude.neg

/-- The double has the sign of the numeral. -/
theorem hasSign_toFloat (d : Decimal) : HasSign d.sign d.toFloat.toModel.unpack := by
  have hmagnitude := (hasSign_ofScientific d.digits d.exponent).pack
  rw [sign, toFloat]
  cases d.negative with
  | false =>
    rw [if_neg (by decide), if_neg (by decide)]
    exact hmagnitude
  | true =>
    rw [if_pos rfl, if_pos rfl, unpack_neg]
    exact hmagnitude.neg

/-- How the digits and the power of ten are written makes no difference. The nearest double
depends on the value alone, and the sign takes care of the zeros. -/
theorem toFloat_congr {d d' : Decimal} (hsign : d.negative = d'.negative)
    (hmagnitude : (d.digits : ℚ) * 10 ^ d.exponent = d'.digits * 10 ^ d'.exponent) :
    d.toFloat = d'.toFloat := by
  have hs : d.sign = d'.sign := by rw [sign, sign, hsign]
  have hvalue : d.value = d'.value := by rw [value, value, hs, hmagnitude]
  exact eq_of_nearest d.nearest_toFloat (hvalue ▸ d'.nearest_toFloat) d.hasSign_toFloat
    (hs ▸ d'.hasSign_toFloat)

/-- A decimal that is representable is read exactly. -/
theorem rational?_toFloat_of_representable {d : Decimal} (h : Representable d.value) :
    rational? d.toFloat = some d.value :=
  d.nearest_toFloat.valueOf_of_representable h

/-- A whole number of at most 53 bits is read exactly. -/
theorem rational?_toFloat_whole {n : ℕ} (h : n < 2 ^ 53) :
    rational? (toFloat ⟨false, n, 0⟩) = some (n : ℚ) ∧
      rational? (toFloat ⟨true, n, 0⟩) = some (-n : ℚ) := by
  have hvalue : value ⟨false, n, 0⟩ = (n : ℤ) ∧ value ⟨true, n, 0⟩ = (-n : ℤ) := by
    constructor <;> simp [value, sign, signFactor]
  have hbound : |(n : ℤ)| < 2 ^ 53 := by
    rw [Nat.abs_cast]
    exact_mod_cast h
  have hpositive := rational?_toFloat_of_representable (d := ⟨false, n, 0⟩)
    (hvalue.1 ▸ representable_intCast hbound)
  have hnegative := rational?_toFloat_of_representable (d := ⟨true, n, 0⟩)
    (hvalue.2 ▸ representable_intCast (by rwa [abs_neg]))
  rw [hvalue.1] at hpositive
  rw [hvalue.2] at hnegative
  exact ⟨by exact_mod_cast hpositive, by exact_mod_cast hnegative⟩

end Decimal

end DimensionalAnalysis
