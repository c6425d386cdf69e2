import DimensionalAnalysis.Proofs.Number.Rounding

/-!
# Rounding to nearest

Core rounds correctly: what it packs is the double that is nearest to the exact value, and the
even one if two are equally near (`nearest_roundWithAccuracy`). Doubles near a value `v` are the
multiples of `2 ^ spacing v`, so that this is a statement on one integer, the significand
(`RoundsEven`), and on what happens beyond the largest double (`Nearest`).

The integer is what core's significand with its two bits below amounts to. The **round bit**
says whether the part that was cut off is a half or more, and the **sticky bit** whether it is
neither nothing nor a half (`Cuts`). Cutting off one more bit keeps this (`Cuts.shiftRightOne`),
and so does any number of them.

All that is used of rounding elsewhere follows. A representable value is not rounded
(`Nearest.valueOf_of_representable`), any other value is moved by a small fraction of itself or
becomes an infinity (`Nearest.roundsTo`), and positive values stay positive numbers unless they
are too small or too large (`Nearest.exists_pos_iff`).

The three parts are independent of one another. Rounding to integers knows nothing of doubles,
the last place is a function of the value alone, and only `nearest_roundWithAccuracy` looks at
what core computes. Sums, products, quotients and decimals differ in the significand and bits
that they hand to it, and in nothing else.
-/

namespace DimensionalAnalysis.Number

open Float.Model (Format UnpackedFloat totalExponent)
open Float.Model.UnpackedFloat

/-! ### Rounding to integers -/

/-- The integer is nearest to the value, and even if another one is as near. As a relation it
says nothing on how the integer is found, and it determines the integer (`RoundsEven.unique`).
-/
def RoundsEven (x : ℚ) (n : ℤ) : Prop :=
  |n - x| < 1 / 2 ∨ |n - x| = 1 / 2 ∧ Even n

namespace RoundsEven

variable {x : ℚ} {n k : ℤ}

/-- The nearest integer is at most a half away. -/
theorem near (h : RoundsEven x n) : |n - x| ≤ 1 / 2 :=
  h.elim le_of_lt fun h ↦ h.1.le

/-- Evenness does not see the sign, so that ties are broken alike on both sides of zero. -/
theorem neg (h : RoundsEven x n) : RoundsEven (-x) (-n) := by
  have habs : |((-n : ℤ) : ℚ) - -x| = |n - x| := by
    rw [Int.cast_neg, neg_sub_neg, abs_sub_comm]
  rw [RoundsEven, habs, even_neg]
  exact h

/-- An integer is rounded to itself. -/
theorem intCast (n : ℤ) : RoundsEven n n :=
  .inl (by norm_num)

/-- There is only one nearest integer: two that are both a half away are neighbours, and of two
neighbours one is odd. -/
theorem unique (hn : RoundsEven x n) (hk : RoundsEven x k) : n = k := by
  have hclose : |(n : ℚ) - k| ≤ |n - x| + |k - x| := by
    rw [abs_sub_comm (k : ℚ)]
    exact abs_sub_le _ _ _
  rcases hn with hn | ⟨hn, heven⟩
  · have hlt : |(n : ℚ) - k| < 1 := by linarith [hk.near]
    exact sub_eq_zero.1 (Int.abs_lt_one_iff.1 (by exact_mod_cast hlt))
  · rcases hk with hk | ⟨hk, heven'⟩
    · have hlt : |(n : ℚ) - k| < 1 := by linarith
      exact sub_eq_zero.1 (Int.abs_lt_one_iff.1 (by exact_mod_cast hlt))
    · -- no two even integers are one apart
      have hle : |(n : ℚ) - k| ≤ 1 := by linarith
      have hle : |n - k| ≤ 1 := by exact_mod_cast hle
      obtain ⟨i, rfl⟩ := heven
      obtain ⟨j, rfl⟩ := heven'
      have := abs_le.1 hle
      omega

/-- An integer that is not above the value is not above the rounded one. -/
theorem le_of_le (h : RoundsEven x n) (hk : (k : ℚ) ≤ x) : k ≤ n := by
  have hlow := (abs_le.1 h.near).1
  have hlt : (k : ℚ) < n + 1 := by linarith
  have hlt : k < n + 1 := by exact_mod_cast hlt
  omega

/-- An integer that is not below the value is not below the rounded one. -/
theorem le_of_ge (h : RoundsEven x n) (hk : x ≤ k) : n ≤ k := by
  have hhigh := (abs_le.1 h.near).2
  have hlt : (n : ℚ) < k + 1 := by linarith
  have hlt : n < k + 1 := by exact_mod_cast hlt
  omega

/-- Half a unit below an even integer is rounded up to it. -/
theorem le_of_sub_half_le (h : RoundsEven x n) (hk : Even k) (hle : (k : ℚ) - 1 / 2 ≤ x) :
    k ≤ n := by
  by_contra hlt
  have hn : (n : ℚ) ≤ k - 1 := by exact_mod_cast (show n ≤ k - 1 by omega)
  rcases h with h | ⟨h, heven⟩
  · linarith [(abs_lt.1 h).1]
  · have hprev : (n : ℚ) = k - 1 := by linarith [(abs_le.1 h.le).1]
    have hprev : n = k - 1 := by exact_mod_cast hprev
    rw [hprev] at heven
    exact Int.not_even_one (by simpa using hk.sub heven)

/-- Half a unit above an even integer is rounded down to it. -/
theorem le_of_le_add_half (h : RoundsEven x n) (hk : Even k) (hle : x ≤ (k : ℚ) + 1 / 2) :
    n ≤ k := by
  refine neg_le_neg_iff.1 (h.neg.le_of_sub_half_le hk.neg ?_)
  push_cast
  linarith

/-- Two integers are not both nearer than a half. -/
theorem one_le_abs_sub_add_abs_sub (x : ℚ) (h : k ≠ n) : 1 ≤ |(k : ℚ) - x| + |(n : ℚ) - x| := by
  have hint : 1 ≤ |k - n| := Int.one_le_abs (sub_ne_zero.2 h)
  calc (1 : ℚ) ≤ |(k : ℚ) - n| := by exact_mod_cast hint
    _ ≤ |(k : ℚ) - x| + |x - n| := abs_sub_le _ _ _
    _ = |(k : ℚ) - x| + |(n : ℚ) - x| := by rw [abs_sub_comm x]

/-- No integer is nearer. -/
theorem abs_sub_le_abs_sub (h : RoundsEven x n) (k : ℤ) : |(n : ℚ) - x| ≤ |(k : ℚ) - x| := by
  rcases eq_or_ne k n with rfl | hne
  · exact le_rfl
  · linarith [one_le_abs_sub_add_abs_sub x hne, h.near]

/-- Where another integer is as near, the even one is taken. -/
theorem even_of_tie (h : RoundsEven x n) (hne : k ≠ n) (htie : |(k : ℚ) - x| = |(n : ℚ) - x|) :
    Even n := by
  rcases h with hlt | ⟨-, heven⟩
  · linarith [one_le_abs_sub_add_abs_sub x hne]
  · exact heven

/-- An even integer that is as near is the nearest one too. -/
theorem of_tie (h : RoundsEven x n) (hk : Even k) (htie : |(k : ℚ) - x| = |(n : ℚ) - x|) :
    RoundsEven x k := by
  rw [RoundsEven, htie]
  exact h.imp_right fun hhalf ↦ ⟨hhalf.1, hk⟩

end RoundsEven

/-- There is always a nearest integer. -/
theorem exists_roundsEven (x : ℚ) : ∃ n, RoundsEven x n := by
  have hlow := Int.floor_le x
  have hhigh := Int.lt_floor_add_one x
  rcases lt_trichotomy (x - ⌊x⌋) (1 / 2) with h | h | h
  · exact ⟨⌊x⌋, .inl (by rw [abs_lt]; constructor <;> linarith)⟩
  · -- halfway, one of the two integers is even
    rcases Int.even_or_odd ⌊x⌋ with heven | hodd
    · exact ⟨⌊x⌋, .inr ⟨by rw [abs_sub_comm, h]; norm_num, heven⟩⟩
    · refine ⟨⌊x⌋ + 1, .inr ⟨?_, hodd.add_one⟩⟩
      push_cast
      rw [show (⌊x⌋ : ℚ) + 1 - x = 1 / 2 by linarith]
      norm_num
  · refine ⟨⌊x⌋ + 1, .inl ?_⟩
    push_cast
    rw [abs_lt]
    constructor <;> linarith

/-! ### Significands with their bits below -/

/-- Whatever is known about the bits cut off, the significand is as it was. -/
theorem mantissa_ofMantissaAndAccuracy (m : ℕ) (a : Accuracy) :
    (ExtendedMantissa.ofMantissaAndAccuracy m a).mantissa = m := by
  obtain _ | ⟨_ | _ | _⟩ := a <;> rfl

/-- A significand with its bits below says where between itself and the next one a value lies. -/
inductive Cuts : ExtendedMantissa → ℚ → Prop
  | exact (m : ℕ) : Cuts ⟨m, false, false⟩ m
  | belowHalf {m : ℕ} {x : ℚ} : m < x → x < m + 1 / 2 → Cuts ⟨m, false, true⟩ x
  | half (m : ℕ) : Cuts ⟨m, true, false⟩ (m + 1 / 2)
  | aboveHalf {m : ℕ} {x : ℚ} : m + 1 / 2 < x → x < m + 1 → Cuts ⟨m, true, true⟩ x

namespace Cuts

variable {em : ExtendedMantissa} {x : ℚ}

/-- The bits below are clear exactly if nothing is cut off. -/
theorem exact_or_between (h : Cuts em x) :
    (em.roundBit || em.stickyBit) = false ∧ x = em.mantissa ∨
      (em.roundBit || em.stickyBit) = true ∧ em.mantissa < x ∧ x < em.mantissa + 1 := by
  cases h with
  | exact m => exact .inl ⟨rfl, rfl⟩
  | belowHalf hlow hhigh => exact .inr ⟨rfl, hlow, by dsimp only; linarith⟩
  | half m => exact .inr ⟨rfl, by dsimp only; linarith, by dsimp only; linarith⟩
  | aboveHalf hlow hhigh => exact .inr ⟨rfl, by dsimp only; linarith, hhigh⟩

/-- What is cut off was above the significand. -/
theorem mantissa_le (h : Cuts em x) : em.mantissa ≤ x := by
  obtain ⟨-, heq⟩ | ⟨-, hlow, -⟩ := h.exact_or_between
  · exact heq.ge
  · exact hlow.le

/-- What is cut off is less than a unit. -/
theorem lt_mantissa_add_one (h : Cuts em x) : x < em.mantissa + 1 := by
  obtain ⟨-, heq⟩ | ⟨-, -, hhigh⟩ := h.exact_or_between
  · exact heq.trans_lt (lt_add_one _)
  · exact hhigh

/-- Cutting off one more bit. -/
theorem shiftRightOne (h : Cuts em x) : Cuts em.shiftRightOne (x / 2) := by
  -- Only whether anything was cut off matters from here on. The bit that goes out now becomes
  -- the round bit, and the two old bits together the sticky bit.
  have hcases := h.exact_or_between
  obtain ⟨m, round, sticky⟩ := em
  rw [ExtendedMantissa.shiftRightOne]
  dsimp only at hcases ⊢
  generalize (round || sticky) = cut at hcases
  -- the new round bit is the last bit of the significand
  obtain ⟨q, rfl | rfl⟩ : ∃ q, m = 2 * q ∨ m = 2 * q + 1 := ⟨m / 2, by omega⟩
  · rw [Nat.mul_div_cancel_left q two_pos, Nat.mul_mod_right, bne_self_eq_false]
    push_cast at hcases
    rcases hcases with ⟨rfl, rfl⟩ | ⟨rfl, hlow, hhigh⟩
    · rw [mul_div_cancel_left₀ _ two_ne_zero]
      exact exact q
    · exact belowHalf (by linarith) (by linarith)
  · rw [show (2 * q + 1) / 2 = q by omega, show ((2 * q + 1) % 2 != 0) = true by simp]
    push_cast at hcases
    rcases hcases with ⟨rfl, rfl⟩ | ⟨rfl, hlow, hhigh⟩
    · rw [add_div, mul_div_cancel_left₀ _ two_ne_zero]
      exact half q
    · exact aboveHalf (by linarith) (by linarith)

/-- Cutting off more bits. -/
theorem shiftRight (h : Cuts em x) (k : ℕ) : Cuts (em >>> k) (x / 2 ^ k) := by
  show Cuts (k.repeat ExtendedMantissa.shiftRightOne em) _
  induction k with
  | zero => simpa [Nat.repeat] using h
  | succ k ih =>
    rw [Nat.repeat, pow_succ, ← div_div]
    exact ih.shiftRightOne

/-- The rounded significand is nearest to the value. -/
theorem roundsEven (h : Cuts em x) : RoundsEven x em.roundedMantissa := by
  cases h with
  | exact m => exact RoundsEven.intCast m
  | @belowHalf m x hlow hhigh =>
    refine .inl (show |((m : ℤ) : ℚ) - x| < 1 / 2 from ?_)
    rw [Int.cast_natCast, abs_lt]
    constructor <;> linarith
  | half m =>
    -- halfway, core adds the last bit of the significand, which makes it even
    have hrounded : (ExtendedMantissa.mk m true false).roundedMantissa = m + m % 2 := rfl
    rw [hrounded]
    rcases Nat.mod_two_eq_zero_or_one m with h | h
    · refine .inr ⟨by rw [h]; norm_num, ?_⟩
      rw [h, add_zero, Int.even_coe_nat]
      exact Nat.even_iff.2 h
    · refine .inr ⟨by rw [h]; norm_num, ?_⟩
      rw [h, Int.even_coe_nat]
      exact (Nat.odd_iff.2 h).add_one
  | @aboveHalf m x hlow hhigh =>
    refine .inl (show |((m + 1 : ℕ) : ℤ) - x| < 1 / 2 from ?_)
    push_cast
    rw [abs_lt]
    constructor <;> linarith

/-- A fraction is compared with a half. -/
theorem add_fraction (q : ℕ) {r n : ℕ} (hr : r < n) :
    Cuts (.ofMantissaAndAccuracy q (accuracyOfFraction r n)) (q + (r : ℚ) / n) := by
  have hn : (0 : ℚ) < n := by exact_mod_cast Nat.zero_lt_of_lt hr
  rcases Nat.eq_zero_or_pos r with rfl | hpos
  · rw [accuracyOfFraction, if_pos rfl, Nat.cast_zero, zero_div, add_zero]
    exact exact q
  · rw [accuracyOfFraction, if_neg hpos.ne']
    rcases lt_trichotomy (2 * r) n with h | h | h
    · have hhalf : (r : ℚ) / n < 1 / 2 := by
        rw [div_lt_div_iff₀ hn two_pos, one_mul, mul_comm]
        exact_mod_cast h
      rw [Nat.compare_eq_lt.2 h]
      exact belowHalf (by linarith [div_pos (show (0 : ℚ) < r by exact_mod_cast hpos) hn])
        (by linarith)
    · have hhalf : (r : ℚ) / n = 1 / 2 := by
        rw [div_eq_div_iff hn.ne' two_ne_zero, one_mul, mul_comm]
        exact_mod_cast h
      rw [Nat.compare_eq_eq.2 h, hhalf]
      exact half q
    · have hhalf : 1 / 2 < (r : ℚ) / n := by
        rw [div_lt_div_iff₀ two_pos hn, one_mul, mul_comm]
        exact_mod_cast h
      rw [Nat.compare_eq_gt.2 h]
      exact aboveHalf (by linarith)
        (by linarith [(div_lt_one hn).2 (show (r : ℚ) < n by exact_mod_cast hr)])

/-- The remainder of a division says what is cut off the quotient. -/
theorem div (m : ℕ) {n : ℕ} (hn : 0 < n) :
    Cuts (.ofMantissaAndAccuracy (m / n) (accuracyOfFraction (m % n) n)) ((m : ℚ) / n) := by
  have hquotient : (m : ℚ) / n = (m / n : ℕ) + ((m % n : ℕ) : ℚ) / n := by
    have hm : ((n * (m / n) + m % n : ℕ) : ℚ) = m := by rw [Nat.div_add_mod]
    rw [← hm, Nat.cast_add, add_div, Nat.cast_mul, mul_div_cancel_left₀ _ (by positivity)]
  rw [hquotient]
  exact add_fraction _ (Nat.mod_lt m hn)

end Cuts

/-! ### The last place -/

/-- The exponent of the last place of the doubles near a value. It leaves 53 bits to the value,
and is never below that of the subnormal doubles, so that small values have fewer bits. -/
def spacing (v : ℚ) : ℤ :=
  max (Int.log 2 |v| - 52) (-1074)

/-- No last place is smaller than that of the subnormal doubles. -/
theorem minExponent_le_spacing (v : ℚ) : -1074 ≤ spacing v :=
  le_max_right _ _

/-- The last place is that of the magnitude. -/
theorem spacing_signFactor_mul (s : Sign) (v : ℚ) : spacing (signFactor s * v) = spacing v := by
  rw [spacing, abs_mul, abs_signFactor, one_mul, spacing]

/-- The last place is the same on both sides of zero. -/
theorem spacing_neg (v : ℚ) : spacing (-v) = spacing v := by
  rw [spacing, abs_neg, spacing]

/-- The logarithm of a value between two powers of two that follow one another. -/
theorem log_eq_of_zpow {v : ℚ} {j : ℤ} (hle : 2 ^ j ≤ v) (hlt : v < 2 ^ (j + 1)) :
    Int.log 2 v = j := by
  have hpos : 0 < v := lt_of_lt_of_le (two_zpow_pos j) hle
  have hlow : j ≤ Int.log 2 v := (Int.zpow_le_iff_le_log one_lt_two hpos).1 (by exact_mod_cast hle)
  have hhigh := (Int.lt_zpow_iff_log_lt one_lt_two hpos).1 (show v < ((2 : ℕ) : ℚ) ^ (j + 1) by
    exact_mod_cast hlt)
  omega

/-- The spacing is what its power of two leaves 53 bits of. -/
theorem abs_lt_two_zpow_spacing (v : ℚ) : |v| < 2 ^ (53 : ℤ) * 2 ^ spacing v := by
  have hlt := Int.lt_zpow_succ_log_self one_lt_two |v|
  rw [← zpow_add₀ (by norm_num)]
  refine lt_of_lt_of_le (by exact_mod_cast hlt) (zpow_le_zpow_right₀ (by norm_num) ?_)
  rw [spacing]
  omega

/-- Above the smallest last place, a value has all of its 53 bits. -/
theorem two_zpow_spacing_le {v : ℚ} (hv : v ≠ 0) (h : -1074 < spacing v) :
    2 ^ (52 : ℤ) * 2 ^ spacing v ≤ |v| := by
  have hle := Int.zpow_log_le_self one_lt_two (abs_pos.2 hv)
  rw [← zpow_add₀ (by norm_num)]
  refine le_trans (zpow_le_zpow_right₀ (by norm_num) ?_) (by exact_mod_cast hle)
  rw [spacing] at h ⊢
  omega

/-- Values below a power of two are spaced accordingly. -/
theorem spacing_le {v : ℚ} {j : ℤ} (hv : v ≠ 0) (h : |v| < 2 ^ (j + 53)) (hj : -1074 ≤ j) :
    spacing v ≤ j := by
  have hlog := (Int.lt_zpow_iff_log_lt one_lt_two (abs_pos.2 hv)).1
    (show |v| < ((2 : ℕ) : ℚ) ^ (j + 53) by exact_mod_cast h)
  rw [spacing]
  omega

/-- Integers below `2 ^ 53` are doubles. -/
theorem spacing_nonpos {v : ℚ} (h : |v| < 2 ^ 53) : spacing v ≤ 0 := by
  rcases eq_or_ne v 0 with rfl | hv
  · simp [spacing]
  · exact spacing_le hv (by simpa using h) (by norm_num)

/-- Integers below `2 ^ 53` have a last place of one or less. -/
theorem two_zpow_spacing_le_one {v : ℚ} (h : |v| < 2 ^ 53) : (2 : ℚ) ^ spacing v ≤ 1 :=
  zpow_le_one_of_nonpos₀ one_le_two (spacing_nonpos h)

/-- Values from a power of two on are spaced accordingly. -/
theorem le_spacing {v : ℚ} {j : ℤ} (h : 2 ^ (j + 52) ≤ |v|) : j ≤ spacing v := by
  have hlog := (Int.zpow_le_iff_le_log one_lt_two
    (lt_of_lt_of_le (two_zpow_pos (j + 52)) h)).1 (by exact_mod_cast h)
  rw [spacing]
  omega

/-- Core aims for the last place. -/
theorem spacing_eq_targetExponent {m : ℕ} {e : ℤ} {v : ℚ} (hv : 0 < v) (hle : m * 2 ^ e ≤ v)
    (hlt : v < (m + 1) * 2 ^ e) (he : e ≤ Format.binary64.targetExponent (totalExponent m e)) :
    spacing v = Format.binary64.targetExponent (totalExponent m e) := by
  rw [binary64_targetExponent, totalExponent] at he ⊢
  rw [spacing, abs_of_pos hv]
  rcases Nat.eq_zero_or_pos m with rfl | hm
  · -- less than one unit at an exponent that is too small already
    rw [Nat.cast_zero, zero_add, one_mul] at hlt
    have hlog := (Int.lt_zpow_iff_log_lt one_lt_two hv).1
      (show v < ((2 : ℕ) : ℚ) ^ e by exact_mod_cast hlt)
    norm_num at he ⊢
    omega
  · have hlow : (2 : ℚ) ^ ((m.log2 : ℤ) + e) ≤ v := by
      refine le_trans ?_ hle
      rw [zpow_add₀ (by norm_num), zpow_natCast]
      exact mul_le_mul_of_nonneg_right (by exact_mod_cast Nat.log2_self_le hm.ne')
        (two_zpow_pos e).le
    have hhigh : v < (2 : ℚ) ^ ((m.log2 : ℤ) + e + 1) := by
      refine lt_of_lt_of_le hlt ?_
      rw [add_right_comm, zpow_add₀ (by norm_num)]
      refine mul_le_mul_of_nonneg_right ?_ (two_zpow_pos e).le
      exact_mod_cast Nat.lt_log2_self (n := m)
    rw [log_eq_of_zpow hlow hhigh]
    congr 1
    omega

/-! ### Rounding to doubles -/

/-- A double that a value is rounded to: the nearest one at the last place, and the even one if
two are equally near, or an infinity if that is beyond the largest double.

Beyond is meant after rounding to 53 bits: an infinity stands for values from halfway between
the largest double and `2 ^ 1024` on. Nothing is said on the sign of a zero. -/
def Nearest (v : ℚ) (u : UnpackedFloat) : Prop :=
  ∃ n : ℤ, RoundsEven (v / 2 ^ spacing v) n ∧
    (valueOf u = some ((n : ℚ) * 2 ^ spacing v) ∧ |(n : ℚ) * 2 ^ spacing v| < 2 ^ (1024 : ℤ) ∨
      ∃ s, u = .infinity s ∧ 2 ^ (1024 : ℤ) ≤ signFactor s * ((n : ℚ) * 2 ^ spacing v))

/-- Rounding a magnitude and giving it a sign is rounding the signed value. -/
theorem RoundsEven.apply {x : ℚ} {n : ℤ} (h : RoundsEven x n) (s : Sign) :
    RoundsEven (signFactor s * x) (s.apply n) := by
  cases s with
  | positive => simpa [signFactor, Sign.apply] using h
  | negative => simpa [signFactor, Sign.apply] using h.neg

/-- Rounding is symmetric. -/
theorem Nearest.neg {v : ℚ} {u : UnpackedFloat} (h : Nearest v u) : Nearest (-v) u.neg := by
  obtain ⟨n, hn, hcases⟩ := h
  refine ⟨-n, ?_, ?_⟩
  · rw [spacing_neg, neg_div]
    exact hn.neg
  · rw [spacing_neg, Int.cast_neg, neg_mul, abs_neg, valueOf_neg]
    rcases hcases with ⟨hvalue, hlt⟩ | ⟨s, rfl, hbeyond⟩
    · exact .inl ⟨by rw [hvalue, Option.map_some], hlt⟩
    · exact .inr ⟨-s, rfl, by rwa [signFactor_neg, neg_mul_neg]⟩

/-- Finite doubles are below `2 ^ 1024`. -/
theorem Canonical.mul_lt {m : ℕ} {e : ℤ} (h : Canonical m e) :
    (m : ℚ) * 2 ^ e < 2 ^ (1024 : ℤ) := by
  rw [show (1024 : ℤ) = 53 + 971 by norm_num, zpow_add₀ (by norm_num)]
  exact mul_lt_mul (by exact_mod_cast h.lt)
    (zpow_le_zpow_right₀ (by norm_num) h.le_maxExponent) (two_zpow_pos e) (by norm_num)

/-- With an exponent that is too large the value is beyond all doubles. -/
theorem Fits.le_mul {m : ℕ} {e : ℤ} (h : Fits m e) (he : 971 < e) :
    (2 : ℚ) ^ (1024 : ℤ) ≤ m * 2 ^ e := by
  rw [show (1024 : ℤ) = 52 + 972 by norm_num, zpow_add₀ (by norm_num)]
  exact mul_le_mul (by exact_mod_cast h.normal.resolve_right (by omega))
    (zpow_le_zpow_right₀ (by norm_num) (by omega)) (two_zpow_pos _).le (Nat.cast_nonneg m)

/-- A value in units of its last place is rounded to 53 bits, or to one bit more with zeros behind
it. It has fewer bits only if its last place is that of the smallest doubles. -/
theorem significand_of_roundsEven {v : ℚ} {r : ℕ} (hv : 0 < v)
    (hround : RoundsEven (v / 2 ^ spacing v) r) :
    r ≤ 2 ^ 53 ∧ (2 ^ 52 ≤ r ∨ spacing v = -1074) := by
  constructor
  · have hbits := hround.le_of_ge (k := 2 ^ 53) ((div_le_iff₀ (two_zpow_pos _)).2 (by
      exact_mod_cast (abs_of_pos hv ▸ abs_lt_two_zpow_spacing v).le))
    omega
  · rcases (minExponent_le_spacing v).eq_or_lt with h | h
    · exact .inr h.symm
    · have hbits := hround.le_of_le (k := 2 ^ 52) ((le_div_iff₀ (two_zpow_pos _)).2 (by
        exact_mod_cast abs_of_pos hv ▸ two_zpow_spacing_le hv.ne' h))
      exact .inl (by omega)

/-- **Rounding a value that was cut off finds the nearest double.**

The value is known by a significand `m` at an exponent `e` and by what is below (`Cuts`). The
exponent must not be above the one that core aims for, since bits that were lost there cannot be
brought back. How the value came about makes no difference: a product, a quotient and a decimal
arrive here with bits of their own. -/
theorem nearest_roundWithAccuracy (s : Sign) {m : ℕ} {e : ℤ} {a : Accuracy} {v : ℚ} (hv : 0 < v)
    (hcuts : Cuts (.ofMantissaAndAccuracy m a) (v / 2 ^ e))
    (he : e ≤ Format.binary64.targetExponent (totalExponent m e)) :
    Nearest (signFactor s * v)
      (Float.Model.pack (roundWithAccuracy Format.binary64 s m e a)).unpack := by
  have hle := hcuts.mantissa_le
  have hlt := hcuts.lt_mantissa_add_one
  rw [mantissa_ofMantissaAndAccuracy] at hle hlt
  rw [le_div_iff₀ (two_zpow_pos e)] at hle
  rw [div_lt_iff₀ (two_zpow_pos e)] at hlt
  -- The first shift goes to the last place of the value, where the significand is the nearest
  -- integer to the value in units of that place.
  have hspacing := spacing_eq_targetExponent hv hle hlt he
  obtain ⟨k, hk⟩ : ∃ k : ℕ, e + k = spacing v := ⟨(spacing v - e).toNat, by omega⟩
  have hfirst : shiftToTargetExponent Format.binary64 m e a =
      (ExtendedMantissa.ofMantissaAndAccuracy m a >>> k, spacing v) := by
    rw [shiftToTargetExponent, shiftToExponent, ← hspacing, ← hk]
    simp
  have hround := (hcuts.shiftRight k).roundsEven
  rw [div_div, ← zpow_natCast (2 : ℚ) k, ← zpow_add₀ (by norm_num), hk] at hround
  rw [roundWithAccuracy, hfirst]
  dsimp only
  generalize (ExtendedMantissa.ofMantissaAndAccuracy m a >>> k).roundedMantissa = r at hround ⊢
  obtain ⟨hupper, hnormal⟩ := significand_of_roundsEven hv hround
  -- The second shift does not change the value. What is left is whether its exponent is in
  -- range.
  refine ⟨s.apply r, ?_, ?_⟩
  · rw [spacing_signFactor_mul, mul_div_assoc]
    exact hround.apply s
  simp only [spacing_signFactor_mul, cast_apply, mul_assoc, Int.cast_natCast]
  rw [abs_signFactor_mul (by positivity)]
  rcases Nat.eq_zero_or_pos r with rfl | hpos
  · rw [shiftToTargetExponent_self (by norm_num) (minExponent_le_spacing v)]
    refine .inl ⟨?_, by rw [Nat.cast_zero, zero_mul]; exact two_zpow_pos _⟩
    simp [unpack_pack (show IsCanonical (.zero s) from trivial), valueOf]
  · obtain ⟨r', t', hfits, hvalue, hshift⟩ :=
      exists_shiftToTargetExponent_eq hpos hupper (minExponent_le_spacing v) hnormal
    simp only [hshift, dif_neg hfits.pos.ne', ← hvalue]
    rcases le_or_gt t' 971 with ht' | ht'
    · have hcanonical := hfits.canonical ht'
      refine .inl ⟨?_, hcanonical.mul_lt⟩
      rw [unpack_pack (show IsCanonical (.finite s r' t' hfits.pos) from hcanonical), valueOf]
    · refine .inr ⟨s, unpack_pack_of_lt_exponent hfits.pos ht', ?_⟩
      rw [← mul_assoc, signFactor_mul_self, one_mul]
      exact hfits.le_mul ht'

/-- Multiples of a power of two are multiples of the smaller ones. -/
theorem exists_int_mul_two_zpow (n : ℤ) {e t : ℤ} (h : t ≤ e) :
    ∃ k : ℤ, (n : ℚ) * 2 ^ e = k * 2 ^ t := by
  refine ⟨n * 2 ^ (e - t).toNat, ?_⟩
  push_cast
  rw [← zpow_natCast, Int.toNat_of_nonneg (by omega), mul_assoc, ← zpow_add₀ (by norm_num),
    sub_add_cancel]

/-- A representable value is a whole number of its last places. -/
theorem Representable.exists_int_mul_spacing {v : ℚ} (h : Representable v) :
    ∃ n : ℤ, v = n * 2 ^ spacing v := by
  obtain ⟨n, e, hn, hlow, -, rfl⟩ := h
  rcases eq_or_ne n 0 with rfl | hn0
  · exact ⟨0, by simp⟩
  · refine exists_int_mul_two_zpow n (spacing_le ?_ ?_ hlow)
    · exact mul_ne_zero (by exact_mod_cast hn0) (two_zpow_pos e).ne'
    · rw [abs_mul, abs_of_pos (two_zpow_pos e), zpow_add₀ (by norm_num), mul_comm]
      refine mul_lt_mul_of_pos_left ?_ (two_zpow_pos e)
      rw [← Int.cast_abs, Int.abs_eq_natAbs]
      exact_mod_cast hn

/-- A representable value is also a multiple of any smaller place, down to 53 bits below its
first. -/
theorem Representable.exists_int_mul_of_le {v : ℚ} {j : ℤ} (h : Representable v)
    (hle : 2 ^ (j + 52) ≤ |v|) : ∃ n : ℤ, v = n * 2 ^ j := by
  obtain ⟨n, hn⟩ := h.exists_int_mul_spacing
  rw [hn]
  exact exists_int_mul_two_zpow n (le_spacing hle)

/-- The largest double. -/
theorem Representable.abs_le {v : ℚ} (h : Representable v) :
    |v| ≤ 2 ^ (1024 : ℤ) - 2 ^ (971 : ℤ) := by
  obtain ⟨n, e, hn, -, hhigh, rfl⟩ := h
  have hn : |n| ≤ 2 ^ 53 - 1 := by
    rw [Int.abs_eq_natAbs]
    omega
  have hn : |(n : ℚ)| ≤ 2 ^ 53 - 1 := by exact_mod_cast hn
  rw [abs_mul, abs_of_pos (two_zpow_pos e)]
  calc |(n : ℚ)| * 2 ^ e ≤ (2 ^ 53 - 1) * 2 ^ (971 : ℤ) :=
        mul_le_mul hn (zpow_le_zpow_right₀ (by norm_num) hhigh) (two_zpow_pos e).le (by norm_num)
    _ = 2 ^ (1024 : ℤ) - 2 ^ (971 : ℤ) := by
        rw [sub_mul, one_mul, ← zpow_natCast, ← zpow_add₀ (by norm_num)]
        norm_num

/-- No double reaches `2 ^ 1024`. -/
theorem Representable.abs_lt {v : ℚ} (h : Representable v) : |v| < 2 ^ (1024 : ℤ) :=
  h.abs_le.trans_lt (sub_lt_self _ (two_zpow_pos 971))

/-- The significand of a representable value. -/
theorem Representable.exists_roundsEven {v : ℚ} (h : Representable v) :
    ∃ n, RoundsEven (v / 2 ^ spacing v) n ∧ (n : ℚ) * 2 ^ spacing v = v := by
  obtain ⟨n, hn⟩ := h.exists_int_mul_spacing
  refine ⟨n, ?_, hn.symm⟩
  rw [(div_eq_iff (two_zpow_pos _).ne').2 hn]
  exact RoundsEven.intCast n

/-- A representable value is nearest to itself. -/
theorem Nearest.of_representable {v : ℚ} {u : UnpackedFloat} (hv : Representable v)
    (hu : valueOf u = some v) : Nearest v u := by
  obtain ⟨n, hn, hvalue⟩ := hv.exists_roundsEven
  refine ⟨n, hn, ?_⟩
  rw [hvalue]
  exact .inl ⟨hu, hv.abs_lt⟩

/-- A number that a value is rounded to, by its significand. -/
theorem Nearest.exists_of_valueOf {v r : ℚ} {u : UnpackedFloat} (h : Nearest v u)
    (hr : valueOf u = some r) :
    ∃ n : ℤ, RoundsEven (v / 2 ^ spacing v) n ∧ r = n * 2 ^ spacing v := by
  obtain ⟨n, hn, ⟨hvalue, -⟩ | ⟨s, rfl, -⟩⟩ := h
  · exact ⟨n, hn, Option.some.inj (hr.symm.trans hvalue)⟩
  · simp [valueOf] at hr

/-- The significand decides on the double. -/
theorem Nearest.valueOf_eq {v : ℚ} {u : UnpackedFloat} {n : ℤ} (h : Nearest v u)
    (hn : RoundsEven (v / 2 ^ spacing v) n)
    (hlt : |(n : ℚ) * 2 ^ spacing v| < 2 ^ (1024 : ℤ)) :
    valueOf u = some ((n : ℚ) * 2 ^ spacing v) := by
  obtain ⟨k, hk, ⟨hvalue, -⟩ | ⟨s, -, hbeyond⟩⟩ := h
  · rw [hvalue, hk.unique hn]
  · rw [hk.unique hn] at hbeyond
    exact absurd (hbeyond.trans (signFactor_mul_le_abs s _)) (not_le.2 hlt)

/-- A value is rounded to one number only. -/
theorem Nearest.valueOf_unique {v : ℚ} {u w : UnpackedFloat} (hu : Nearest v u)
    (hw : Nearest v w) : valueOf u = valueOf w := by
  obtain ⟨n, hn, ⟨hvalue, hlt⟩ | ⟨s, rfl, hbeyond⟩⟩ := hu
  · rw [hvalue, hw.valueOf_eq hn hlt]
  · obtain ⟨k, hk, ⟨-, hlt⟩ | ⟨t, rfl, -⟩⟩ := hw
    · rw [hk.unique hn] at hlt
      exact absurd (hbeyond.trans (signFactor_mul_le_abs s _)) (not_le.2 hlt)
    · rfl

/-- A representable value is not rounded. -/
theorem Nearest.valueOf_of_representable {v : ℚ} {u : UnpackedFloat} (h : Nearest v u)
    (hv : Representable v) : valueOf u = some v := by
  obtain ⟨n, hn, hvalue⟩ := hv.exists_roundsEven
  rw [h.valueOf_eq hn (by rw [hvalue]; exact hv.abs_lt), hvalue]

/-- Distances are measured in last places. -/
theorem abs_mul_two_zpow_sub (n j : ℤ) (v : ℚ) :
    |(n : ℚ) * 2 ^ j - v| = |(n : ℚ) - v / 2 ^ j| * 2 ^ j := by
  have hunit := two_zpow_pos j
  rw [← abs_of_pos hunit, ← abs_mul, abs_of_pos hunit, sub_mul, div_mul_cancel₀ _ hunit.ne']

/-- Rounding moves a value by half a unit in the last place at most. -/
theorem RoundsEven.abs_mul_sub_le {v : ℚ} {n : ℤ} (h : RoundsEven (v / 2 ^ spacing v) n) :
    |(n : ℚ) * 2 ^ spacing v - v| ≤ 2 ^ spacing v / 2 := by
  calc |(n : ℚ) * 2 ^ spacing v - v| = |(n : ℚ) - v / 2 ^ spacing v| * 2 ^ spacing v :=
        abs_mul_two_zpow_sub n _ v
    _ ≤ 1 / 2 * 2 ^ spacing v := mul_le_mul_of_nonneg_right h.near (two_zpow_pos _).le
    _ = 2 ^ spacing v / 2 := by ring

/-- The last place is a small fraction of the value, or the smallest one. -/
theorem two_zpow_spacing_le_max {v : ℚ} (hv : v ≠ 0) :
    (2 : ℚ) ^ spacing v ≤ max (2 ^ (-52 : ℤ) * |v|) (2 ^ (-1074 : ℤ)) := by
  rcases (minExponent_le_spacing v).eq_or_lt with h | h
  · exact le_max_of_le_right (h ▸ le_rfl)
  · refine le_max_of_le_left ?_
    calc (2 : ℚ) ^ spacing v = 2 ^ (-52 : ℤ) * (2 ^ (52 : ℤ) * 2 ^ spacing v) := by
          rw [← mul_assoc, ← zpow_add₀ (by norm_num)]
          norm_num
      _ ≤ 2 ^ (-52 : ℤ) * |v| :=
          mul_le_mul_of_nonneg_left (two_zpow_spacing_le hv h) (two_zpow_pos _).le

/-- Rounding moves a value by a small fraction of itself, or by the smallest double at most. -/
theorem RoundsEven.abs_mul_sub_le_max {v : ℚ} {n : ℤ} (h : RoundsEven (v / 2 ^ spacing v) n) :
    |(n : ℚ) * 2 ^ spacing v - v| ≤ max (2 ^ (-52 : ℤ) * |v|) (2 ^ (-1074 : ℤ)) := by
  rcases eq_or_ne v 0 with rfl | hv
  · rw [zero_div] at h
    rw [h.unique (RoundsEven.intCast 0), Int.cast_zero, zero_mul, sub_zero, abs_zero]
    exact le_max_of_le_right (two_zpow_pos _).le
  · exact (h.abs_mul_sub_le.trans (half_le_self (two_zpow_pos _).le)).trans
      (two_zpow_spacing_le_max hv)

/-- A double that a value is rounded to: a number that is near it, or an infinity if the value is
beyond the middle between the largest double and the next power of two. -/
def RoundsTo (v : ℚ) (u : UnpackedFloat) : Prop :=
  (∃ r, valueOf u = some r ∧ |r - v| ≤ max (2 ^ (-52 : ℤ) * |v|) (2 ^ (-1074 : ℤ))) ∨
    ∃ s, u = .infinity s ∧ 2 ^ (1024 : ℤ) - 2 ^ (970 : ℤ) ≤ signFactor s * v

/-- A value that is not beyond the largest double is rounded to a number. -/
theorem RoundsTo.exists_valueOf {v : ℚ} {u : UnpackedFloat} (h : RoundsTo v u)
    (hlt : |v| < 2 ^ (1024 : ℤ) - 2 ^ (970 : ℤ)) :
    ∃ r, valueOf u = some r ∧ |r - v| ≤ max (2 ^ (-52 : ℤ) * |v|) (2 ^ (-1074 : ℤ)) := by
  obtain hnear | ⟨s, -, hle⟩ := h
  · exact hnear
  · exact absurd (hle.trans (signFactor_mul_le_abs s v)) (not_le.2 hlt)

/-- The middle between the largest double and the next power of two. -/
theorem two_zpow_lt_middle : (2 : ℚ) ^ (1023 : ℤ) < 2 ^ (1024 : ℤ) - 2 ^ (970 : ℤ) := by
  rw [show (1024 : ℤ) = 1 + 1023 by norm_num, zpow_one_add₀ (by norm_num), two_mul, add_sub_assoc]
  exact lt_add_of_pos_right _ (sub_pos.2 (zpow_lt_zpow_right₀ (by norm_num) (by norm_num)))

/-- A value that rounds beyond the largest double is above the middle between that and the next
power of two. -/
theorem RoundsEven.le_of_beyond {v : ℚ} {n : ℤ} (h : RoundsEven (v / 2 ^ spacing v) n)
    (hbeyond : 2 ^ (1024 : ℤ) ≤ (n : ℚ) * 2 ^ spacing v) :
    2 ^ (1024 : ℤ) - 2 ^ (970 : ℤ) ≤ v := by
  have hunit := two_zpow_pos (spacing v)
  have herror := (abs_le.1 h.abs_mul_sub_le).2
  rcases le_or_gt (spacing v) 971 with hs | hs
  · -- the last place is at most that of the largest double, and the value is half of it away at
    -- most
    have hhalf : (2 : ℚ) ^ spacing v ≤ 2 * 2 ^ (970 : ℤ) := by
      rw [← zpow_one_add₀ (by norm_num)]
      exact zpow_le_zpow_right₀ (by norm_num) (by omega)
    linarith
  · -- a larger last place belongs to a value that is beyond all doubles itself
    have hn : 1 ≤ n := by
      have : (0 : ℚ) < n :=
        (mul_pos_iff_of_pos_right hunit).1 (lt_of_lt_of_le (two_zpow_pos 1024) hbeyond)
      exact_mod_cast this
    have hn : (1 : ℚ) ≤ n := by exact_mod_cast hn
    have hv : 0 < v := by
      have hle := mul_le_mul_of_nonneg_right hn hunit.le
      generalize (2 : ℚ) ^ spacing v = unit at hunit herror hle
      linarith
    refine (sub_le_self _ (two_zpow_pos 970).le).trans ?_
    have hlarge := two_zpow_spacing_le hv.ne' (by omega)
    rw [abs_of_pos hv, ← zpow_add₀ (by norm_num)] at hlarge
    exact (zpow_le_zpow_right₀ (by norm_num) (by omega)).trans hlarge

/-- What is nearest to a value is near it, or the value is beyond the largest double. -/
theorem Nearest.roundsTo {v : ℚ} {u : UnpackedFloat} (h : Nearest v u) : RoundsTo v u := by
  obtain ⟨n, hn, ⟨hvalue, -⟩ | ⟨s, hs, hbeyond⟩⟩ := h
  · exact .inl ⟨_, hvalue, hn.abs_mul_sub_le_max⟩
  · refine .inr ⟨s, hs, ?_⟩
    have hsigned := hn.apply s
    rw [← mul_div_assoc, ← spacing_signFactor_mul s v] at hsigned
    refine hsigned.le_of_beyond ?_
    rwa [cast_apply, mul_assoc, spacing_signFactor_mul]

/-- Above that middle, a value rounds beyond the largest double: the power of two is even. -/
theorem RoundsEven.beyond_of_le {v : ℚ} {n : ℤ} (h : RoundsEven (v / 2 ^ spacing v) n)
    (hle : 2 ^ (1024 : ℤ) - 2 ^ (970 : ℤ) ≤ v) :
    2 ^ (1024 : ℤ) ≤ (n : ℚ) * 2 ^ spacing v := by
  have hunit := two_zpow_pos (spacing v)
  have hbinade := two_zpow_lt_middle.le.trans hle
  have hpos : 0 < v := lt_of_lt_of_le (two_zpow_pos 1023) hbinade
  have hge : 971 ≤ spacing v := le_spacing (by rw [abs_of_pos hpos]; exact hbinade)
  rcases hge.eq_or_lt with hs | hs
  · rw [← hs] at h ⊢
    -- in the last place of the largest double the value is half a unit below an even number
    have htop : (2 : ℚ) ^ 53 - 1 / 2 ≤ v / 2 ^ (971 : ℤ) := by
      rw [le_div_iff₀ (two_zpow_pos 971), sub_mul]
      refine le_trans (le_of_eq ?_) hle
      rw [show (1024 : ℤ) = 53 + 971 by norm_num, zpow_add₀ (by norm_num),
        show (971 : ℤ) = 1 + 970 by norm_num, zpow_one_add₀ (by norm_num), ← mul_assoc (1 / 2)]
      norm_num
    have hn : 2 ^ 53 ≤ n := h.le_of_sub_half_le (by decide) (by exact_mod_cast htop)
    rw [show (1024 : ℤ) = 53 + 971 by norm_num, zpow_add₀ (by norm_num)]
    exact mul_le_mul_of_nonneg_right (by exact_mod_cast hn) (two_zpow_pos 971).le
  · -- in a larger last place, 53 bits are beyond all doubles
    have hlarge := two_zpow_spacing_le hpos.ne' (by omega)
    rw [abs_of_pos hpos] at hlarge
    have hn : 2 ^ 52 ≤ n := h.le_of_le ((le_div_iff₀ hunit).2 (by exact_mod_cast hlarge))
    rw [show (1024 : ℤ) = 52 + 972 by norm_num, zpow_add₀ (by norm_num)]
    exact mul_le_mul (by exact_mod_cast hn) (zpow_le_zpow_right₀ (by norm_num) (by omega))
      (two_zpow_pos _).le (by exact_mod_cast le_trans (by norm_num) hn)

/-- Above that middle, a value is rounded to an infinity. -/
theorem nearest_infinity {v : ℚ} (h : 2 ^ (1024 : ℤ) - 2 ^ (970 : ℤ) ≤ v) :
    Nearest v (.infinity .positive) := by
  obtain ⟨n, hn⟩ := exists_roundsEven (v / 2 ^ spacing v)
  refine ⟨n, hn, .inr ⟨.positive, rfl, ?_⟩⟩
  rw [signFactor, one_mul]
  exact hn.beyond_of_le h

/-- Below half of the smallest double, a value is rounded to zero. -/
theorem nearest_zero {v : ℚ} (s : Sign) (h : |v| < 2 ^ (-1075 : ℤ)) : Nearest v (.zero s) := by
  have hunit := two_zpow_pos (spacing v)
  refine ⟨0, .inl ?_, .inl ⟨?_, ?_⟩⟩
  · have hsmallest : (2 : ℚ) * 2 ^ (-1075 : ℤ) ≤ 2 ^ spacing v := by
      rw [← zpow_one_add₀ (by norm_num)]
      exact zpow_le_zpow_right₀ (by norm_num) (minExponent_le_spacing v)
    rw [Int.cast_zero, zero_sub, abs_neg, abs_div, abs_of_pos hunit, div_lt_iff₀ hunit]
    linarith
  · rw [Int.cast_zero, zero_mul, valueOf]
  · rw [Int.cast_zero, zero_mul, abs_zero]
    exact two_zpow_pos 1024

/-- A value rounds to a positive number exactly if it is above the middle between zero and the
smallest double, and below that between the largest double and the next power of two.

Half of the smallest double itself goes to zero, which is even, and the upper middle goes to the
power of two, which is even as well and no double. So the first middle does not round to a
positive number, and neither does the second one. -/
theorem Nearest.exists_pos_iff {v : ℚ} {u : UnpackedFloat} (h : Nearest v u) :
    (∃ r, valueOf u = some r ∧ 0 < r) ↔
      2 ^ (-1075 : ℤ) < v ∧ v < 2 ^ (1024 : ℤ) - 2 ^ (970 : ℤ) := by
  have hunit := two_zpow_pos (spacing v)
  have hhalf : (2 : ℚ) ^ (-1074 : ℤ) = 2 * 2 ^ (-1075 : ℤ) := by
    rw [← zpow_one_add₀ (by norm_num)]
    norm_num
  have hsmallest : (2 : ℚ) ^ (-1074 : ℤ) ≤ 2 ^ spacing v :=
    zpow_le_zpow_right₀ (by norm_num) (minExponent_le_spacing v)
  constructor
  · rintro ⟨r, hr, hpos⟩
    obtain ⟨n, hn, ⟨hvalue, hlt⟩ | ⟨s, rfl, -⟩⟩ := h
    · obtain rfl := Option.some.inj (hr.symm.trans hvalue)
      refine ⟨not_le.1 fun hle ↦ ?_, not_le.1 fun hle ↦ ?_⟩
      · -- half of the smallest double or less goes to zero, which is even
        have hzero := hn.le_of_le_add_half (k := 0) (by decide) (by
          rw [Int.cast_zero, zero_add, div_le_iff₀ hunit]
          linarith)
        have hn0 : (n : ℚ) ≤ 0 := by exact_mod_cast hzero
        exact absurd hpos (mul_nonpos_of_nonpos_of_nonneg hn0 hunit.le).not_gt
      · exact absurd (le_abs_self _) (not_le.2 (hlt.trans_le (hn.beyond_of_le hle)))
    · simp [valueOf] at hr
  · rintro ⟨hlow, hhigh⟩
    have hv : 0 < v := (two_zpow_pos _).trans hlow
    obtain ⟨r, hr, -⟩ := h.roundsTo.exists_valueOf (by rwa [abs_of_pos hv])
    obtain ⟨n, hn, rfl⟩ := h.exists_of_valueOf hr
    refine ⟨_, hr, not_le.1 fun hle ↦ ?_⟩
    -- a value that goes to zero is at most half of its last place, and so is below all normal
    -- doubles
    have hsmall : v ≤ 2 ^ spacing v / 2 := by linarith [(abs_le.1 hn.abs_mul_sub_le).1]
    rcases (minExponent_le_spacing v).eq_or_lt with hs | hs
    · rw [← hs] at hsmall
      linarith
    · have hnormal := two_zpow_spacing_le hv.ne' hs
      rw [abs_of_pos hv] at hnormal
      norm_num at hnormal
      linarith

/-- A canonical form is packed as it is, and so is nearest to its own value. -/
theorem Nearest.of_canonical {v : ℚ} {u : UnpackedFloat} (hcanonical : IsCanonical u)
    (hu : valueOf u = some v) : Nearest v (Float.Model.pack u).unpack := by
  rw [unpack_pack hcanonical]
  exact .of_representable (representable_of_valueOf hcanonical hu) hu

/-- Rounding a value of which nothing is cut off. -/
theorem nearest_roundWithAccuracy_exact (s : Sign) {m : ℕ} {e : ℤ} (hm : 0 < m)
    (he : e ≤ Format.binary64.targetExponent (totalExponent m e)) :
    Nearest (signFactor s * (m * 2 ^ e))
      (Float.Model.pack (roundWithAccuracy Format.binary64 s m e .exact)).unpack := by
  refine nearest_roundWithAccuracy s (mul_two_zpow_pos hm e) ?_ he
  rw [mul_div_cancel_right₀ _ (two_zpow_pos e).ne']
  exact .exact m

/-- Normalizing finds the nearest double. -/
theorem nearest_normalize (zeroSign : Sign) (n e : ℤ) :
    Nearest (n * 2 ^ e) (Float.Model.pack (normalize Format.binary64 n e zeroSign)).unpack := by
  obtain ⟨rfl, h⟩ | ⟨s, m, e', hm, he', hvalue, h⟩ := normalize_cases n e zeroSign
  · rw [h, Int.cast_zero, zero_mul]
    exact .of_canonical trivial rfl
  · rw [h, ← hvalue]
    exact nearest_roundWithAccuracy_exact s hm he'

end DimensionalAnalysis.Number
