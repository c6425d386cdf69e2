import DimensionalAnalysis.Number.Arithmetic
import DimensionalAnalysis.Proofs.Number.Exact

/-!
# Quotients without their fractions

A remainder is exact, and so is truncation, but the quotient that is truncated has been rounded.
So the two parts of a division with remainder need not belong to the same quotient. They do
unless the rounded quotient has reached the next integer (`exists_truncate_div_remainder`).

Below `2 ^ 53` integers are doubles. A rounded quotient lies between the same two integers as
the exact one, and reaches the outer one exactly if that is within half a last place. Ties count
as reached: either the integer is even as a significand, or the last place is one, and then
there are no ties, since a quotient of doubles does not have the 54 bits of a midpoint
(`not_isMidpoint_div`).

Where dividend and divisor are integers of 53 bits the exact quotient stays away from the next
integer by more than that (`not_reachesNext_div`), so that integers divide without exception.
-/

namespace DimensionalAnalysis.Number

open Float.Model (Format UnpackedFloat)
open Float.Model.UnpackedFloat

/-! ### Toward zero -/

/-- The value without its fraction. -/
def towardZero (v : ℚ) : ℤ :=
  if 0 ≤ v then ⌊v⌋ else ⌈v⌉

/-- Rounding toward zero does not see the sign. -/
theorem towardZero_neg (v : ℚ) : towardZero (-v) = -towardZero v := by
  unfold towardZero
  rcases lt_trichotomy v 0 with h | rfl | h
  · rw [if_pos (by linarith), if_neg (by linarith), Int.floor_neg]
  · simp
  · rw [if_neg (by linarith), if_pos h.le, Int.ceil_neg]

/-- For magnitudes it is the floor, under the sign that is put back. -/
theorem towardZero_signFactor_mul (s : Sign) {v : ℚ} (hv : 0 ≤ v) :
    towardZero (signFactor s * v) = s.apply ⌊v⌋ := by
  cases s with
  | positive => rw [signFactor, one_mul, towardZero, if_pos hv]; rfl
  | negative => rw [signFactor, neg_one_mul, towardZero_neg, towardZero, if_pos hv]; rfl

/-- What is left out is the fraction of the magnitude, under the sign of the value. -/
theorem sub_towardZero (s : Sign) {v : ℚ} (hv : 0 ≤ v) :
    signFactor s * v - towardZero (signFactor s * v) = signFactor s * Int.fract v := by
  rw [towardZero_signFactor_mul s hv, cast_apply, ← mul_sub, Int.self_sub_floor]

/-- The magnitude of what is left out. -/
theorem abs_sub_towardZero (v : ℚ) : |v - towardZero v| = Int.fract |v| := by
  obtain ⟨s, hs⟩ := exists_eq_signFactor_mul_abs v
  rw [hs, sub_towardZero s (abs_nonneg v), abs_signFactor_mul (Int.fract_nonneg _),
    abs_signFactor_mul (abs_nonneg v)]

/-- What is left out has the sign of the value, or is zero. -/
theorem mul_sub_towardZero_nonneg (v : ℚ) : 0 ≤ v * (v - towardZero v) := by
  obtain ⟨s, hs⟩ := exists_eq_signFactor_mul_abs v
  rw [hs, sub_towardZero s (abs_nonneg v), mul_mul_mul_comm, signFactor_mul_self, one_mul]
  exact mul_nonneg (abs_nonneg v) (Int.fract_nonneg _)

/-! ### Truncation and remainder are exact -/

/-- A signed significand at an exponent has the value it spells, if that is representable. -/
theorem rational?_scaled {s : Sign} {m : ℕ} {e : ℤ}
    (hrep : Representable ((m : ℚ) * 2 ^ e)) :
    rational? (scaled s m e) = some (signFactor s * (m * 2 ^ e)) := by
  have hnearest := nearest_normalize s (s.apply m) e
  have hvalue : ((s.apply m : ℤ) : ℚ) * 2 ^ e = signFactor s * (m * 2 ^ e) := by
    rw [cast_apply, Int.cast_natCast, mul_assoc]
  rw [hvalue] at hnearest
  exact hnearest.valueOf_of_representable (hrep.signFactor_mul s)

/-- What has a significand of a double, at an exponent of a double, is a double. -/
theorem representable_of_lt {m n : ℕ} {e : ℤ} (hn : Canonical n e) (hm : m < 2 ^ 53) :
    Representable ((m : ℚ) * 2 ^ e) :=
  ⟨m, e, by simpa using hm, hn.minExponent_le, hn.le_maxExponent, by push_cast; rfl⟩

section Parts

variable {x y : Float} {p q : ℚ}

/-- **Truncation is not rounded**: what is left of the significand has no more bits than it had.
-/
theorem rational?_truncate (hx : rational? x = some p) :
    rational? (truncate x) = some (towardZero p : ℚ) := by
  have hcanonical := canonical_unpack x.toModel
  rw [truncate]
  obtain ⟨s, hu, rfl⟩ | ⟨s, m, e, hm, hu, rfl⟩ := valueOf_cases hx
  · rw [hu]
    simpa [towardZero] using hx
  · rw [hu] at hcanonical ⊢
    dsimp only
    rw [towardZero_signFactor_mul s (mul_two_zpow_pos hm e).le, cast_apply]
    split
    · -- already an integer
      rename_i he
      have hwhole : (m : ℚ) * 2 ^ e = ((m * 2 ^ e.toNat : ℕ) : ℚ) := by
        rw [two_zpow_toNat he, ← Nat.cast_mul]
      rw [hx, hwhole, Int.floor_natCast, Int.cast_natCast]
    · rename_i he
      have hbelow : (m : ℚ) * 2 ^ e = (m : ℚ) / ((2 ^ (-e).toNat : ℕ) : ℚ) := by
        rw [← two_zpow_toNat (by omega), zpow_neg, div_inv_eq_mul]
      have hlt : m / 2 ^ (-e).toNat < 2 ^ 53 := (Nat.div_le_self _ _).trans_lt hcanonical.lt
      have hrep : Representable (((m / 2 ^ (-e).toNat : ℕ) : ℤ) : ℚ) :=
        representable_intCast (by exact_mod_cast hlt)
      rw [Int.cast_natCast, ← mul_one ((m / 2 ^ (-e).toNat : ℕ) : ℚ), ← zpow_zero 2] at hrep
      have hscaled := rational?_scaled (s := s) hrep
      rw [zpow_zero, mul_one] at hscaled
      rw [hbelow, Rat.floor_natCast_div_natCast]
      exact hscaled

/-- Over a common power of two values divide like integers. -/
theorem sub_towardZero_div_mul (s t : Sign) (m : ℕ) {n : ℕ} (hn : 0 < n) (e : ℤ) :
    signFactor s * (m * 2 ^ e) -
        towardZero (signFactor s * (m * 2 ^ e) / (signFactor t * (n * 2 ^ e))) *
          (signFactor t * (n * 2 ^ e)) =
      signFactor s * ((m % n : ℕ) * 2 ^ e) := by
  have hunit := (two_zpow_pos e).ne'
  have hsplit : (m : ℚ) = n * (m / n : ℕ) + (m % n : ℕ) := by
    exact_mod_cast (Nat.div_add_mod m n).symm
  have hsign := signFactor_mul_self t
  rw [mul_div_mul_comm, ← signFactor_div, mul_div_mul_right _ _ hunit,
    towardZero_signFactor_mul _ (by positivity), cast_apply, Rat.floor_natCast_div_natCast,
    ← Int.natCast_div, Int.cast_natCast, signFactor_div, div_eq_mul_inv,
    inv_eq_of_mul_eq_one_left hsign]
  linear_combination signFactor s * 2 ^ e * hsplit -
    signFactor s * 2 ^ e * n * (m / n : ℕ) * hsign

/-- **A remainder is not rounded.** It is what the quotient without its fraction leaves. -/
theorem rational?_remainder (hx : rational? x = some p) (hy : rational? y = some q) (hq : q ≠ 0) :
    rational? (remainder x y) = some (p - towardZero (p / q) * q) := by
  have hxcanonical := canonical_unpack x.toModel
  have hycanonical := canonical_unpack y.toModel
  rw [remainder]
  obtain ⟨t, -, rfl⟩ | ⟨t, n, f, hn, hv, rfl⟩ := valueOf_cases hy
  · exact absurd rfl hq
  obtain ⟨s, hu, rfl⟩ | ⟨s, m, e, hm, hu, rfl⟩ := valueOf_cases hx
  · rw [hu, hv]
    simpa [towardZero] using hx
  rw [hu] at hxcanonical ⊢
  rw [hv] at hycanonical ⊢
  simp only [Nat.pow_eq]
  generalize hc : min e f = c
  have hvalue : ∀ (k : ℕ) {e : ℤ}, c ≤ e →
      (k : ℚ) * 2 ^ e = ((k * 2 ^ (e - c).toNat : ℕ) : ℚ) * 2 ^ c := by
    intro k e hle
    rw [← Nat.shiftLeft_eq, shiftLeft_mul_two_zpow k hle]
  rw [hvalue m (hc ▸ min_le_left e f), hvalue n (hc ▸ min_le_right e f),
    sub_towardZero_div_mul s t _ (by positivity)]
  refine rational?_scaled ?_
  -- the remainder is below either the divisor or the dividend as it is
  rcases le_total f e with h | h
  · rw [min_eq_right h] at hc
    obtain rfl := hc
    have hlt := Nat.mod_lt (m * 2 ^ (e - f).toNat) hn
    rw [sub_self, Int.toNat_zero, pow_zero, mul_one]
    exact representable_of_lt hycanonical (hlt.trans hycanonical.lt)
  · rw [min_eq_left h] at hc
    obtain rfl := hc
    rw [sub_self, Int.toNat_zero, pow_zero, mul_one]
    exact representable_of_lt hxcanonical ((Nat.mod_le _ _).trans_lt hxcanonical.lt)

end Parts

/-! ### Midpoints -/

section Rounded

variable {x y : Float} {p q v : ℚ} {n : ℤ}

/-- The value is halfway between two integers of 53 bits. -/
def IsMidpoint (v : ℚ) : Prop :=
  2 ^ 52 ≤ |v| ∧ ∃ i : ℤ, v = i + 1 / 2

/-- Midpoints lie symmetrically around zero. -/
theorem IsMidpoint.signFactor_mul (h : IsMidpoint v) (s : Sign) :
    IsMidpoint (signFactor s * v) := by
  obtain ⟨hlarge, i, rfl⟩ := h
  refine ⟨by rwa [abs_mul, abs_signFactor, one_mul], ?_⟩
  cases s with
  | positive => exact ⟨i, by rw [signFactor, one_mul]⟩
  | negative =>
    refine ⟨-i - 1, ?_⟩
    rw [signFactor]
    push_cast
    ring

/-- A midpoint has 54 bits, and so it is no quotient of doubles. Were it one, the odd number of
54 bits that is twice the midpoint would divide the significand of the dividend, which has 53.
-/
theorem not_isMidpoint_div (hp : Representable p) (hq : Representable q) :
    ¬IsMidpoint (p / q) := by
  rintro ⟨hlarge, i, h⟩
  have hq0 : q ≠ 0 := by
    rintro rfl
    norm_num at hlarge
  obtain ⟨n, e, hn, -, -, rfl⟩ := hp
  obtain ⟨d, f, -, -, -, rfl⟩ := hq
  have hodd : (n : ℚ) * 2 ^ (e + 1) = (2 * i + 1) * (d * 2 ^ f) := by
    rw [div_eq_iff hq0] at h
    rw [zpow_add_one₀ two_ne_zero]
    linear_combination 2 * h
  -- over a common power of two the odd number divides the significand of the dividend
  obtain ⟨j, hj⟩ := Int.le.dest (min_le_left (e + 1) f)
  obtain ⟨k, hk⟩ := Int.le.dest (min_le_right (e + 1) f)
  have heq : (n : ℚ) * 2 ^ j = (2 * i + 1) * (d * 2 ^ k) := by
    refine mul_right_cancel₀ (two_zpow_pos (min (e + 1) f)).ne' ?_
    rw [← zpow_natCast, ← zpow_natCast, mul_assoc, mul_assoc, mul_assoc, ← zpow_add₀ two_ne_zero,
      ← zpow_add₀ two_ne_zero, add_comm (j : ℤ), hj, add_comm (k : ℤ), hk, hodd]
  have hdvd : 2 * i + 1 ∣ n * 2 ^ j := ⟨d * 2 ^ k, by exact_mod_cast heq⟩
  have hcoprime : IsCoprime (2 * i + 1) (2 ^ j) :=
    (Int.isCoprime_two_right.2 (odd_two_mul_add_one i)).pow_right
  have hn0 : n ≠ 0 := by
    rintro rfl
    norm_num at hlarge
  have hle := Int.natAbs_le_of_dvd_ne_zero (hcoprime.dvd_of_dvd_mul_right hdvd) hn0
  have hge : (2 : ℚ) ^ 53 ≤ |((2 * i + 1 : ℤ) : ℚ)| := by
    have hhalf : ((2 * i + 1 : ℤ) : ℚ) = 2 * (i + 1 / 2) := by
      push_cast
      ring
    rw [hhalf, ← h, abs_mul, abs_two]
    linarith
  have hge : (2 : ℤ) ^ 53 ≤ |2 * i + 1| := by exact_mod_cast hge
  rw [Int.abs_eq_natAbs] at hge
  omega

/-! ### Rounded quotients -/

/-- What is rounded reaches every integer that is above it by half a last place or less.

A tie would have to go up for that. It does where the last place is less than one, since the
integer is then an even multiple of it. Where the last place is one, a tie is a midpoint, which
is excluded. -/
theorem intCast_le_of_roundsEven (hv : 0 ≤ v) (hlt : v < 2 ^ 53) (hmid : ¬IsMidpoint v)
    (hn : RoundsEven (v / 2 ^ spacing v) n) {k : ℤ} (hle : k - v ≤ 2 ^ spacing v / 2) :
    (k : ℚ) ≤ n * 2 ^ spacing v := by
  have hunit := two_zpow_pos (spacing v)
  rcases (spacing_nonpos (by rwa [abs_of_nonneg hv])).eq_or_lt with hzero | hneg
  · -- the last place is one, and the value is no midpoint
    have hne : v ≠ 0 := by
      rintro rfl
      simp [spacing] at hzero
    have hlarge := two_zpow_spacing_le hne (by omega)
    have hne : v ≠ k - 1 / 2 := fun h ↦
      hmid ⟨by simpa [hzero] using hlarge, k - 1, by push_cast; linarith⟩
    have hnear := (abs_le.1 hn.near).1
    simp only [hzero, zpow_zero, div_one, mul_one] at hle hnear ⊢
    have habove : (k : ℚ) - 1 / 2 < v := lt_of_le_of_ne (by linarith) hne.symm
    have hlt : (k : ℚ) < n + 1 := by linarith
    have hlt : k < n + 1 := by exact_mod_cast hlt
    exact_mod_cast Int.lt_add_one_iff.1 hlt
  · -- the integer is even as a significand
    obtain ⟨j, hj⟩ := exists_int_mul_two_zpow k (show spacing v + 1 ≤ 0 by omega)
    have heven : (k : ℚ) = ((j + j : ℤ) : ℚ) * 2 ^ spacing v := by
      rw [zpow_zero, mul_one, zpow_add_one₀ two_ne_zero] at hj
      push_cast
      linear_combination hj
    rw [heven] at hle ⊢
    have hhalf : ((j + j : ℤ) : ℚ) - 1 / 2 ≤ v / 2 ^ spacing v := by
      rw [le_div_iff₀ hunit]
      linarith
    have hreached := hn.le_of_sub_half_le ⟨j, rfl⟩ hhalf
    exact mul_le_mul_of_nonneg_right (by exact_mod_cast hreached) hunit.le

/-- The next integer away from zero is within half a last place. -/
def ReachesNext (v : ℚ) : Prop :=
  1 - Int.fract |v| ≤ 2 ^ spacing v / 2

/-- The condition is a comparison of rational numbers, and so can be tested. -/
instance : DecidablePred ReachesNext := fun _ ↦
  inferInstanceAs (Decidable (_ ≤ _))

/-- Zero is as far from the next integer as can be. -/
theorem ReachesNext.ne_zero (h : ReachesNext v) : v ≠ 0 := by
  rintro rfl
  norm_num [ReachesNext, spacing] at h

/-- The condition is one on the magnitude. -/
theorem reachesNext_signFactor_mul (s : Sign) (v : ℚ) :
    ReachesNext (signFactor s * v) ↔ ReachesNext v := by
  rw [ReachesNext, spacing_signFactor_mul, abs_mul, abs_signFactor, one_mul, ReachesNext]

/-- **A rounded value lies between the same two integers**, and is the upper one if it reaches
that. -/
theorem floor_of_roundsEven (hv : 0 ≤ v) (hlt : v < 2 ^ 53) (hmid : ¬IsMidpoint v)
    (hn : RoundsEven (v / 2 ^ spacing v) n) :
    ⌊(n : ℚ) * 2 ^ spacing v⌋ = if ReachesNext v then ⌊v⌋ + 1 else ⌊v⌋ := by
  have hunit := two_zpow_spacing_le_one (by rwa [abs_of_nonneg hv])
  have hnear := (abs_le.1 hn.abs_mul_sub_le).2
  have hfloor := Int.floor_add_fract v
  have hfract := Int.fract_nonneg v
  have hbelow := Int.fract_lt_one v
  split
  · rename_i hnext
    rw [ReachesNext, abs_of_nonneg hv] at hnext
    have hreached := intCast_le_of_roundsEven hv hlt hmid hn (k := ⌊v⌋ + 1) (by
      push_cast
      linarith)
    exact Int.floor_eq_iff.2 ⟨hreached, by push_cast; linarith⟩
  · rename_i hnext
    rw [ReachesNext, abs_of_nonneg hv, not_le] at hnext
    -- the lower integer is reached from above in any case
    have hlow := intCast_le_of_roundsEven hv hlt hmid hn (k := ⌊v⌋) (by
      linarith [two_zpow_pos (spacing v)])
    exact Int.floor_eq_iff.2 ⟨hlow, by linarith⟩

/-- The integer part of a rounded value of either sign: one further out where the value reaches
the next integer, and else that of the value. -/
theorem towardZero_of_roundsEven (hlt : |v| < 2 ^ 53) (hmid : ¬IsMidpoint v)
    (hn : RoundsEven (v / 2 ^ spacing v) n) :
    towardZero (n * 2 ^ spacing v) =
      towardZero v + if ReachesNext v then (SignType.sign v : ℤ) else 0 := by
  obtain ⟨s, hs⟩ := exists_eq_signFactor_mul_abs v
  have hnonneg := abs_nonneg v
  generalize |v| = w at hs hlt hnonneg
  subst hs
  have hmid : ¬IsMidpoint w := fun h ↦ hmid (h.signFactor_mul s)
  have hsign := signFactor_mul_self s
  rw [spacing_signFactor_mul] at hn ⊢
  -- the same integer for the magnitude, under the sign of the value
  have hmagnitude := hn.apply s
  rw [mul_div_assoc, ← mul_assoc, hsign, one_mul] at hmagnitude
  have hvalue : (n : ℚ) * 2 ^ spacing w = signFactor s * ((s.apply n : ℤ) * 2 ^ spacing w) := by
    rw [cast_apply, ← mul_assoc, ← mul_assoc, hsign, one_mul]
  have hpos := intCast_le_of_roundsEven hnonneg hlt hmid hmagnitude (k := 0) (by
    push_cast
    linarith [two_zpow_pos (spacing w)])
  rw [Int.cast_zero] at hpos
  rw [hvalue, towardZero_signFactor_mul s hpos, towardZero_signFactor_mul s hnonneg,
    floor_of_roundsEven hnonneg hlt hmid hmagnitude]
  simp only [reachesNext_signFactor_mul]
  split
  · rename_i hnext
    have hw : 0 < w := hnonneg.lt_of_ne hnext.ne_zero.symm
    cases s with
    | positive => simp [signFactor, Sign.apply, sign_pos hw]
    | negative => simp [signFactor, Sign.apply, sign_pos hw, Left.sign_neg, add_comm]
  · rw [add_zero]

/-- The truncated quotient of two doubles. -/
theorem rational?_truncate_div (hx : rational? x = some p) (hy : rational? y = some q) (hq : q ≠ 0)
    (hlt : |p / q| < 2 ^ 53) :
    rational? (truncate (x / y)) = some ((towardZero (p / q) +
      if ReachesNext (p / q) then (SignType.sign (p / q) : ℤ) else 0 : ℤ) : ℚ) := by
  have hnearest := nearest_div hx hy hq
  have hrange : |p / q| < 2 ^ (1024 : ℤ) - 2 ^ (970 : ℤ) := by
    have hle : (2 : ℚ) ^ 53 ≤ 2 ^ (1023 : ℤ) := by
      exact_mod_cast pow_le_pow_right₀ (one_le_two (α := ℚ)) (by norm_num)
    exact (hlt.trans_le hle).trans two_zpow_lt_middle
  obtain ⟨r, hr, -⟩ := hnearest.roundsTo.exists_valueOf hrange
  obtain ⟨n, hn, rfl⟩ := hnearest.exists_of_valueOf hr
  have hmid := not_isMidpoint_div (representable_of_rational? hx) (representable_of_rational? hy)
  rw [rational?_truncate hr, towardZero_of_roundsEven hlt hmid hn]

/-- **Division with remainder.** The remainder is below the divisor and has the sign of the
dividend, and it belongs to the exact quotient. The truncated quotient is one too far out
exactly if the exact one reaches the next integer by rounding.

In that case quotient times divisor and remainder add up to one divisor too much, in the
direction of the quotient. Nothing else can go wrong as long as the quotient is below `2 ^ 53`.
-/
theorem exists_truncate_div_remainder (hx : rational? x = some p) (hy : rational? y = some q)
    (hq : q ≠ 0) (hlt : |p / q| < 2 ^ 53) :
    ∃ (k : ℤ) (r : ℚ), rational? (truncate (x / y)) = some (k : ℚ) ∧
      rational? (remainder x y) = some r ∧ |r| < |q| ∧ 0 ≤ p * r ∧
      r = p - towardZero (p / q) * q ∧
      (k * q + r = p ↔ ¬ReachesNext (p / q)) ∧
      (ReachesNext (p / q) → k * q + r = p + (SignType.sign (p / q) : ℤ) * q) := by
  refine ⟨_, _, rational?_truncate_div hx hy hq hlt, rational?_remainder hx hy hq, ?_⟩
  obtain ⟨v, hv⟩ : ∃ v, v = p / q := ⟨_, rfl⟩
  obtain rfl : p = v * q := by rw [hv, div_mul_cancel₀ _ hq]
  rw [← hv] at hlt ⊢
  have hleft : v * q - towardZero v * q = (v - towardZero v) * q := by ring
  refine ⟨?_, ?_, rfl, ?_⟩
  · rw [hleft, abs_mul, abs_sub_towardZero]
    exact mul_lt_of_lt_one_left (abs_pos.2 hq) (Int.fract_lt_one _)
  · rw [hleft, mul_mul_mul_comm]
    exact mul_nonneg (mul_sub_towardZero_nonneg v) (mul_self_nonneg q)
  · by_cases hnext : ReachesNext v
    · have hone : ((SignType.sign v : ℤ) : ℚ) * q ≠ 0 := by
        rcases hnext.ne_zero.lt_or_gt with h | h
        · simpa [sign_neg h] using hq
        · simpa [sign_pos h] using hq
      rw [if_pos hnext, Int.cast_add]
      refine ⟨iff_of_false (fun h ↦ hone ?_) (not_not.2 hnext), fun _ ↦ by ring⟩
      linear_combination h
    · simp [hnext]

end Rounded

/-! ### Integers -/

section Integers

variable {i k : ℤ}

/-- A quotient times its divisor is the dividend, for magnitudes. -/
theorem abs_div_mul_abs (i : ℤ) (hk : k ≠ 0) : |(i : ℚ) / k| * |(k : ℚ)| = |(i : ℚ)| := by
  rw [← abs_mul, div_mul_cancel₀ _ (Int.cast_ne_zero.2 hk)]

/-- A quotient of integers is no larger than the dividend. -/
theorem abs_div_lt_of_abs_lt (hi : |i| < 2 ^ 53) (hk : k ≠ 0) : |(i : ℚ) / k| < 2 ^ 53 := by
  have hone : (1 : ℚ) ≤ |(k : ℚ)| := by exact_mod_cast Int.one_le_abs hk
  calc |(i : ℚ) / k| ≤ |(i : ℚ) / k| * |(k : ℚ)| := le_mul_of_one_le_right (abs_nonneg _) hone
    _ = |(i : ℚ)| := abs_div_mul_abs i hk
    _ < 2 ^ 53 := by exact_mod_cast hi

/-- What is missing to the next multiple of the divisor is a whole number. -/
theorem one_le_one_sub_fract_mul (i : ℤ) (hk : k ≠ 0) :
    1 ≤ (1 - Int.fract |(i : ℚ) / k|) * |(k : ℚ)| := by
  have hfloor := Int.floor_add_fract |(i : ℚ) / k|
  have hwhole : (1 - Int.fract |(i : ℚ) / k|) * |(k : ℚ)| =
      ((|k| - (|i| - ⌊|(i : ℚ) / k|⌋ * |k|) : ℤ) : ℚ) := by
    push_cast
    linear_combination -|(k : ℚ)| * hfloor - abs_div_mul_abs i hk
  have hpos : 0 < (1 - Int.fract |(i : ℚ) / k|) * |(k : ℚ)| :=
    mul_pos (sub_pos.2 (Int.fract_lt_one _)) (abs_pos.2 (Int.cast_ne_zero.2 hk))
  rw [hwhole] at hpos ⊢
  exact_mod_cast hpos

/-- A quotient of integers of 53 bits stays away from the next integer. -/
theorem not_reachesNext_div (hi : |i| < 2 ^ 53) (hk : k ≠ 0) : ¬ReachesNext ((i : ℚ) / k) := by
  intro hnext
  have hlt := abs_div_lt_of_abs_lt hi hk
  have habs := abs_div_mul_abs i hk
  have hmissing := one_le_one_sub_fract_mul i hk
  have hne := hnext.ne_zero
  rw [ReachesNext] at hnext
  generalize (i : ℚ) / k = v at hnext hlt habs hmissing hne
  rcases lt_or_ge |v| (1 / 2) with hsmall | hlarge
  · have hunit := two_zpow_spacing_le_one hlt
    rw [Int.fract_eq_self.2 ⟨abs_nonneg v, by linarith⟩] at hnext
    linarith
  · -- a last place of the quotient is less than one over the divisor
    have hnormal : -53 ≤ spacing v := le_spacing (by norm_num; linarith)
    have hunit := two_zpow_spacing_le hne (by omega)
    have hnext : 1 - Int.fract |v| ≤ |v| / 2 ^ 53 := by
      norm_num at hunit ⊢
      linarith
    have hi : |(i : ℚ)| < 2 ^ 53 := by exact_mod_cast hi
    have hle := hmissing.trans (mul_le_mul_of_nonneg_right hnext (abs_nonneg _))
    rw [div_mul_eq_mul_div, habs, le_div_iff₀ (by positivity)] at hle
    linarith

/-- Toward zero is how integers divide. -/
theorem towardZero_div (i k : ℤ) : towardZero ((i : ℚ) / k) = i.tdiv k := by
  have hnat : ∀ m n : ℕ, towardZero ((m : ℚ) / n) = (m : ℤ).tdiv n := by
    intro m n
    rw [towardZero, if_pos (by positivity), Rat.floor_natCast_div_natCast]
    rfl
  obtain ⟨m, rfl | rfl⟩ := Int.eq_nat_or_neg i <;> obtain ⟨n, rfl | rfl⟩ := Int.eq_nat_or_neg k
  all_goals simp [neg_div, div_neg, towardZero_neg, hnat]

end Integers

end DimensionalAnalysis.Number
