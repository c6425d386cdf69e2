import DimensionalAnalysis.Proofs.Number.Unpacked

/-!
# Shifting significands

Core rounds a value `m · 2 ^ e` by shifting its significand to the exponent that leaves 53 bits,
with the bits shifted out recorded, and by one more shift where rounding up has made the
significand too long (`exists_shiftToTargetExponent_eq`). What an unpacked form is worth is a
rational number (`valueOf`), and the numbers that a double can be are **representable**.

Signed significands are rounded by their magnitudes (`normalize_cases`), and rounding is
symmetric (`roundWithAccuracy_neg`).

A significand may also come with an exponent above the one that core aims for. Then it is first
lengthened by zeros down to that exponent, which loses nothing
(`exists_round_eq_roundWithAccuracy`), so that what is proved of rounding may suppose that the
exponent is not above its target.
-/

namespace DimensionalAnalysis.Number

open Float.Model (Format UnpackedFloat totalExponent)
open Float.Model.UnpackedFloat

/-! ### Values -/

/-- The factor that a sign stands for. -/
def signFactor : Sign → ℚ
  | .negative => -1
  | .positive => 1

/-- Giving an integer a sign multiplies it by the sign's factor. -/
theorem cast_apply (s : Sign) (n : ℤ) : ((s.apply n : ℤ) : ℚ) = signFactor s * n := by
  cases s <;> simp [Sign.apply, signFactor]

theorem signFactor_neg : ∀ s : Sign, signFactor (-s) = -signFactor s
  | .negative => (neg_neg 1).symm
  | .positive => rfl

/-- The sign of a product is the product of the signs. -/
theorem signFactor_mul : ∀ s t : Sign, signFactor (s * t) = signFactor s * signFactor t
  | .negative, .negative => (neg_mul_neg (1 : ℚ) 1).symm ▸ (mul_one (1 : ℚ)).symm
  | .negative, .positive => (mul_one (-1)).symm
  | .positive, .negative => (one_mul (-1)).symm
  | .positive, .positive => (one_mul 1).symm

theorem abs_signFactor (s : Sign) : |signFactor s| = 1 := by
  cases s <;> simp [signFactor]

theorem signFactor_mul_self (s : Sign) : signFactor s * signFactor s = 1 := by
  cases s <;> simp [signFactor]

theorem signFactor_div (s t : Sign) : signFactor (s / t) = signFactor s / signFactor t := by
  have h : ∀ s t : Sign, s / t = s * t := by
    intro s t
    cases s <;> cases t <;> rfl
  rw [h, signFactor_mul, eq_div_iff (abs_pos.1 (abs_signFactor t ▸ one_pos)), mul_assoc,
    signFactor_mul_self, mul_one]

theorem abs_signFactor_mul {s : Sign} {q : ℚ} (hq : 0 ≤ q) : |signFactor s * q| = q := by
  rw [abs_mul, abs_signFactor, one_mul, abs_of_nonneg hq]

theorem signFactor_mul_le_abs (s : Sign) (q : ℚ) : signFactor s * q ≤ |q| := by
  have hle := le_abs_self (signFactor s * q)
  rwa [abs_mul, abs_signFactor, one_mul] at hle

/-- Every number is a sign and a magnitude, by which statements on magnitudes carry over. -/
theorem exists_eq_signFactor_mul_abs (q : ℚ) : ∃ s, q = signFactor s * |q| := by
  rcases le_total 0 q with h | h
  · exact ⟨.positive, by rw [signFactor, one_mul, abs_of_nonneg h]⟩
  · exact ⟨.negative, by rw [signFactor, neg_one_mul, abs_of_nonpos h, neg_neg]⟩

/-- The rational number of an unpacked form, if it is finite. -/
def valueOf : UnpackedFloat → Option ℚ
  | .zero _ => some 0
  | .finite s m e _ => some (signFactor s * (m * 2 ^ e))
  | _ => none

/-- What has a value is a zero, or a significand with its exponent. -/
theorem valueOf_cases {u : UnpackedFloat} {q : ℚ} (h : valueOf u = some q) :
    (∃ s, u = .zero s ∧ q = 0) ∨
      ∃ s m e hm, u = .finite s m e hm ∧ q = signFactor s * (m * 2 ^ e) := by
  cases u with
  | zero s => exact .inl ⟨s, rfl, (Option.some.inj h).symm⟩
  | finite s m e hm => exact .inr ⟨s, m, e, hm, rfl, (Option.some.inj h).symm⟩
  | infinity s => simp [valueOf] at h
  | notANumber => simp [valueOf] at h

/-- The value of the negative form. The forms without a value have none in either sign. -/
theorem valueOf_neg (u : UnpackedFloat) : valueOf u.neg = (valueOf u).map (-·) := by
  cases u with
  | zero s => exact congrArg some neg_zero.symm
  | finite s m e hm => exact congrArg some (by rw [signFactor_neg, neg_mul])
  | infinity s => rfl
  | notANumber => rfl

/-- The numbers that a double can be: significands of 53 bits, within the range of exponents.
The significand need not be as long as it could be, which makes it easy to show that a result is
representable. -/
def Representable (q : ℚ) : Prop :=
  ∃ n e : ℤ, n.natAbs < 2 ^ 53 ∧ -1074 ≤ e ∧ e ≤ 971 ∧ q = n * 2 ^ e

/-- Doubles lie symmetrically around zero. -/
theorem Representable.neg {q : ℚ} (h : Representable q) : Representable (-q) := by
  obtain ⟨n, e, hn, hlow, hhigh, rfl⟩ := h
  exact ⟨-n, e, by simpa using hn, hlow, hhigh, by push_cast; ring⟩

theorem representable_zero : Representable 0 :=
  ⟨0, 0, by norm_num, by norm_num, by norm_num, by norm_num⟩

/-- Integers of at most 53 bits. -/
theorem representable_intCast {n : ℤ} (h : |n| < 2 ^ 53) : Representable n :=
  ⟨n, 0, by rw [Int.abs_eq_natAbs] at h; omega, by norm_num, by norm_num, by simp⟩

/-- The power of two above those is one bit. -/
theorem representable_intCast_of_le {n : ℤ} (h : |n| ≤ 2 ^ 53) : Representable n := by
  rcases h.lt_or_eq with hlt | heq
  · exact representable_intCast hlt
  · rcases (abs_eq (by norm_num)).1 heq with rfl | rfl
    · exact ⟨1, 53, by norm_num, by norm_num, by norm_num, by norm_num⟩
    · exact ⟨-1, 53, by norm_num, by norm_num, by norm_num, by norm_num⟩

/-- The magnitude of a canonical form is a number that a double can be. -/
theorem Canonical.representable {m : ℕ} {e : ℤ} (h : Canonical m e) : Representable (m * 2 ^ e) :=
  ⟨m, e, by simpa using h.lt, h.minExponent_le, h.le_maxExponent, by simp⟩

/-- A sign keeps a number representable. -/
theorem Representable.signFactor_mul {q : ℚ} (h : Representable q) (s : Sign) :
    Representable (signFactor s * q) := by
  cases s with
  | positive => simpa [signFactor] using h
  | negative => simpa [signFactor] using h.neg

/-- The value of a canonical form is a number that a double can be. -/
theorem representable_of_valueOf {u : UnpackedFloat} {q : ℚ} (hcanonical : IsCanonical u)
    (hu : valueOf u = some q) : Representable q := by
  obtain ⟨s, rfl, rfl⟩ | ⟨s, m, e, hm, rfl, rfl⟩ := valueOf_cases hu
  · exact representable_zero
  · exact (Canonical.representable hcanonical).signFactor_mul s

theorem two_zpow_pos (e : ℤ) : (0 : ℚ) < 2 ^ e :=
  zpow_pos (by norm_num) e

theorem mul_two_zpow_pos {m : ℕ} (hm : 0 < m) (e : ℤ) : (0 : ℚ) < m * 2 ^ e :=
  mul_pos (by exact_mod_cast hm) (two_zpow_pos e)

/-- A power of two with a non-negative exponent is a natural number. -/
theorem two_zpow_toNat {k : ℤ} (h : 0 ≤ k) : (2 : ℚ) ^ k = ((2 ^ k.toNat : ℕ) : ℚ) := by
  obtain ⟨n, rfl⟩ := Int.eq_ofNat_of_zero_le h
  simp

/-- A shifted significand over the smaller exponent. -/
theorem shiftLeft_mul_two_zpow (m : ℕ) {e t : ℤ} (h : t ≤ e) :
    ((m <<< (e - t).toNat : ℕ) : ℚ) * 2 ^ t = m * 2 ^ e := by
  have hsum : (2 : ℚ) ^ e = 2 ^ (e - t) * 2 ^ t := by
    rw [← zpow_add₀ (by norm_num)]
    congr 1
    omega
  rw [Nat.shiftLeft_eq, hsum, two_zpow_toNat (by omega : 0 ≤ e - t)]
  push_cast
  ring

/-- The exponent that core aims for leaves 53 bits, but is not below the smallest one. -/
theorem binary64_targetExponent (t : ℤ) : Format.binary64.targetExponent t = max (t - 53) (-1074) :=
  rfl

/-! ### Values that need no rounding -/

/-- The bits that a shift drops are zeros. -/
theorem shiftRight_exact (m k : ℕ) :
    (ExtendedMantissa.mk (m * 2 ^ k) false false) >>> k = ⟨m, false, false⟩ := by
  show k.repeat ExtendedMantissa.shiftRightOne _ = _
  induction k generalizing m with
  | zero => simp [Nat.repeat]
  | succ k ih =>
    have hpow : m * 2 ^ (k + 1) = m * 2 * 2 ^ k := by ring
    rw [Nat.repeat, hpow, ih]
    simp [ExtendedMantissa.shiftRightOne]

/-- A significand over its exponent is a multiple of the smaller one. -/
theorem eq_mul_two_pow {m n : ℕ} {e t : ℤ} (h : (m : ℚ) * 2 ^ e = n * 2 ^ t) (he : e ≤ t) :
    m = n * 2 ^ (t - e).toNat := by
  rw [← shiftLeft_mul_two_zpow n he] at h
  have := mul_right_cancel₀ (two_zpow_pos e).ne' h
  rw [← Nat.shiftLeft_eq]
  exact_mod_cast this

/-- A shift to the exponent that core aims for, of a significand that fits there. -/
theorem shiftToTargetExponent_exact {m k : ℕ} {e : ℤ}
    (hk : e + k = Format.binary64.targetExponent (totalExponent (m * 2 ^ k) e)) :
    shiftToTargetExponent Format.binary64 (m * 2 ^ k) e .exact = (⟨m, false, false⟩, e + k) := by
  have htoNat : (Format.binary64.targetExponent (totalExponent (m * 2 ^ k) e) - e).toNat = k := by
    omega
  rw [shiftToTargetExponent, shiftToExponent, htoNat]
  exact congrArg (·, e + (k : ℤ)) (shiftRight_exact m k)

/-- Zeros behind a number add to its length. -/
theorem log2_mul_two_pow {m k : ℕ} (hm : 0 < m) : (m * 2 ^ k).log2 = m.log2 + k := by
  rw [Nat.log2_eq_iff (by positivity)]
  have hle := Nat.log2_self_le hm.ne'
  have hlt := @Nat.lt_log2_self m
  rw [pow_add, show m.log2 + k + 1 = m.log2 + 1 + k by omega, pow_add]
  exact ⟨Nat.mul_le_mul_right _ hle, Nat.mul_lt_mul_of_pos_right hlt (by positivity)⟩

/-- Rounding from a large exponent first lowers it to the one that core aims for, which
changes neither the value nor that exponent. -/
theorem exists_round_eq_roundWithAccuracy {m : ℕ} (hm : 0 < m) (e : ℤ) :
    ∃ m' e', 0 < m' ∧ e' ≤ Format.binary64.targetExponent (totalExponent m' e') ∧
      (m' : ℚ) * 2 ^ e' = m * 2 ^ e ∧
      ∀ s, round Format.binary64 s m e = roundWithAccuracy Format.binary64 s m' e' .exact := by
  generalize ht : Format.binary64.targetExponent (totalExponent m e) = t
  refine ⟨m * 2 ^ (e - t).toNat, min e t, by positivity, ?_, ?_, fun s ↦ ?_⟩
  · -- zeros behind the significand do not move its first bit, so that the target stays
    have htotal : totalExponent (m * 2 ^ (e - t).toNat) (min e t) = totalExponent m e := by
      rw [totalExponent, totalExponent, log2_mul_two_pow hm]
      omega
    rw [htotal, ht]
    exact min_le_right e t
  · rcases le_total t e with h | h
    · rw [min_eq_right h, ← Nat.shiftLeft_eq, shiftLeft_mul_two_zpow m h]
    · rw [min_eq_left h, Int.toNat_of_nonpos (by omega), pow_zero, mul_one]
  · rw [UnpackedFloat.round, ht, decreaseExponent, Nat.shiftLeft_eq]
    simp only [show e - ((e - t).toNat : ℤ) = min e t by omega]

/-! ### Shifts -/

/-- A significand of at most 53 bits stays where it is. -/
theorem shiftToTargetExponent_self {m : ℕ} {e : ℤ} (hm : m < 2 ^ 53) (he : -1074 ≤ e) :
    shiftToTargetExponent Format.binary64 m e .exact = (⟨m, false, false⟩, e) := by
  have hlog : m.log2 < 53 := by
    rcases Nat.eq_zero_or_pos m with rfl | h
    · norm_num
    · exact (Nat.log2_lt h.ne').2 hm
  have htoNat : (Format.binary64.targetExponent (totalExponent m e) - e).toNat = 0 := by
    rw [binary64_targetExponent, totalExponent]
    omega
  rw [shiftToTargetExponent, shiftToExponent, htoNat]
  simp [ExtendedMantissa.ofMantissaAndAccuracy, HShiftRight.hShiftRight, Nat.repeat]

/-- Significands and exponents as rounding leaves them: canonical but for the largest exponent. -/
structure Fits (m : ℕ) (e : ℤ) : Prop where
  pos : 0 < m
  lt : m < 2 ^ 53
  minExponent_le : -1074 ≤ e
  normal : 2 ^ 52 ≤ m ∨ e = -1074

/-- What rounding leaves is canonical, unless its exponent has become too large. -/
theorem Fits.canonical {m : ℕ} {e : ℤ} (h : Fits m e) (he : e ≤ 971) : Canonical m e :=
  ⟨h.pos, h.lt, h.minExponent_le, he, h.normal⟩

/-- The second of the two shifts is needed only after rounding up to one bit too many, and drops a
zero. -/
theorem exists_shiftToTargetExponent_eq {r : ℕ} {t : ℤ} (hpos : 0 < r) (hle : r ≤ 2 ^ 53)
    (hlow : -1074 ≤ t) (hnormal : 2 ^ 52 ≤ r ∨ t = -1074) :
    ∃ r' t', Fits r' t' ∧ (r' : ℚ) * 2 ^ t' = r * 2 ^ t ∧
      shiftToTargetExponent Format.binary64 r t .exact = (⟨r', false, false⟩, t') := by
  rcases hle.lt_or_eq with hlt | hr
  · exact ⟨r, t, ⟨hpos, hlt, hlow, hnormal⟩, rfl, shiftToTargetExponent_self hlt hlow⟩
  · -- rounding up has carried into a new bit, and all bits below it are zeros
    obtain rfl : r = 2 ^ 52 * 2 ^ 1 := by omega
    have htarget : t + (1 : ℕ) =
        Format.binary64.targetExponent (totalExponent (2 ^ 52 * 2 ^ 1) t) := by
      rw [binary64_targetExponent, totalExponent, ← pow_add, Nat.log2_two_pow]
      omega
    refine ⟨2 ^ 52, t + (1 : ℕ), ⟨by norm_num, by norm_num, by omega, .inl le_rfl⟩, ?_,
      shiftToTargetExponent_exact htarget⟩
    rw [zpow_add₀ (by norm_num)]
    norm_num
    ring

/-! ### Signed significands -/

/-- Normalizing a signed significand rounds its magnitude. It is a zero of the sign that was
asked for when the significand is zero, and else a rounding at an exponent that is low enough.
-/
theorem normalize_cases (n e : ℤ) (zeroSign : Sign) :
    n = 0 ∧ normalize Format.binary64 n e zeroSign = .zero zeroSign ∨
      ∃ s m e', 0 < m ∧ e' ≤ Format.binary64.targetExponent (totalExponent m e') ∧
        signFactor s * ((m : ℚ) * 2 ^ e') = n * 2 ^ e ∧
        normalize Format.binary64 n e zeroSign =
          roundWithAccuracy Format.binary64 s m e' .exact := by
  have hcast : ∀ {k : ℤ}, 0 ≤ k → ((k.toNat : ℕ) : ℚ) = k := fun {k} hk ↦ by
    exact_mod_cast congrArg (Int.cast (R := ℚ)) (Int.toNat_of_nonneg hk)
  rcases lt_trichotomy n 0 with hn | rfl | hn
  · obtain ⟨m, e', hm, he', hvalue, hround⟩ :=
      exists_round_eq_roundWithAccuracy (m := (-n).toNat) (by omega) e
    refine .inr ⟨.negative, m, e', hm, he', ?_, ?_⟩
    · rw [hvalue, hcast (by omega), signFactor]
      push_cast
      ring
    · rw [UnpackedFloat.normalize, Int.compare_eq_lt.2 hn]
      exact hround _
  · exact .inl ⟨rfl, by rw [UnpackedFloat.normalize, Int.compare_eq_eq.2 rfl]⟩
  · obtain ⟨m, e', hm, he', hvalue, hround⟩ :=
      exists_round_eq_roundWithAccuracy (m := n.toNat) (by omega) e
    refine .inr ⟨.positive, m, e', hm, he', ?_, ?_⟩
    · rw [hvalue, hcast hn.le, signFactor, one_mul]
    · rw [UnpackedFloat.normalize, Int.compare_eq_gt.2 hn]
      exact hround _

/-- Rounding looks at the magnitude alone. -/
theorem roundWithAccuracy_neg (s : Sign) (m : ℕ) (e : ℤ) (a : Accuracy) :
    roundWithAccuracy Format.binary64 (-s) m e a =
      (roundWithAccuracy Format.binary64 s m e a).neg := by
  simp only [roundWithAccuracy]
  split_ifs <;> rfl

end DimensionalAnalysis.Number
