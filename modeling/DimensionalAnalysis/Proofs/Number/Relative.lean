import DimensionalAnalysis.Number.Arithmetic
import DimensionalAnalysis.Proofs.Number.Exact

/-!
# Errors of products and quotients

A product or a quotient that lies well within the range of doubles is off by a small fraction of
itself (`rational?_mul_near`, `rational?_div_near`), since it is so for all that is rounded
(`RoundsTo.exists_near`).

Errors of this kind add up along a chain of operations when they are measured on logarithms. A
double **has a logarithm** up to some error (`HasLog`), products and quotients add and subtract
logarithms, and each of them adds the same amount to the errors (`roundoff`). When errors are
counted in shares, one for each factor that is not one, an operation is paid for by what it adds
to each share (`HasLog.mul_shares`, `HasLog.div_shares`). An error that was there from the start
goes along unchanged.
-/

namespace DimensionalAnalysis.Number

open Float.Model (UnpackedFloat)

/-! ### The range of doubles -/

/-- The range in which doubles have all of their bits. -/
structure InRange (v : ℚ) : Prop where
  two_zpow_le : 2 ^ (-1022 : ℤ) ≤ v
  lt_two_zpow : v < 2 ^ (1023 : ℤ)

/-- Values of ordinary size are well within the range. -/
theorem inRange_of_le {v : ℚ} (hlow : 1 / 1024 ≤ v) (hhigh : v ≤ 1024) : InRange v := by
  have hsmall : (2 : ℚ) ^ (-1022 : ℤ) ≤ 2 ^ (-10 : ℤ) :=
    zpow_le_zpow_right₀ (by norm_num) (by norm_num)
  have hlarge : (2 : ℚ) ^ (11 : ℤ) ≤ 2 ^ (1023 : ℤ) :=
    zpow_le_zpow_right₀ (by norm_num) (by norm_num)
  norm_num at hsmall hlarge
  exact ⟨hsmall.trans hlow, (hhigh.trans_lt (by norm_num)).trans_le hlarge⟩

/-- Within the range, a value is rounded to a number that is off by a small fraction. -/
theorem RoundsTo.exists_near {v : ℚ} {u : UnpackedFloat} (h : RoundsTo v u) (hv : InRange v) :
    ∃ r, valueOf u = some r ∧ |r - v| ≤ 2 ^ (-52 : ℤ) * v := by
  have hpos : 0 < v := (two_zpow_pos _).trans_le hv.two_zpow_le
  obtain ⟨r, hr, hnear⟩ := h.exists_valueOf (by
    rw [abs_of_pos hpos]
    exact hv.lt_two_zpow.trans two_zpow_lt_middle)
  refine ⟨r, hr, hnear.trans (max_le (by rw [abs_of_pos hpos]) ?_)⟩
  rw [show (-1074 : ℤ) = -52 + -1022 by norm_num, zpow_add₀ (by norm_num)]
  exact mul_le_mul_of_nonneg_left hv.two_zpow_le (two_zpow_pos _).le

section Operations

variable {x y : Float} {p q : ℚ}

/-- A product in the range is off by a small fraction of itself. -/
theorem rational?_mul_near (hx : rational? x = some p) (hy : rational? y = some q)
    (hrange : InRange (p * q)) :
    ∃ r, rational? (x * y) = some r ∧ |r - p * q| ≤ 2 ^ (-52 : ℤ) * (p * q) :=
  (nearest_mul hx hy).roundsTo.exists_near hrange

/-- A quotient in the range is off by a small fraction of itself. -/
theorem rational?_div_near (hx : rational? x = some p) (hy : rational? y = some q) (hq : q ≠ 0)
    (hrange : InRange (p / q)) :
    ∃ r, rational? (x / y) = some r ∧ |r - p / q| ≤ 2 ^ (-52 : ℤ) * (p / q) :=
  (nearest_div hx hy hq).roundsTo.exists_near hrange

end Operations

/-- Every power of one is one. -/
theorem power_one (y : Float) : power 1.0 y = 1.0 := by
  rw [power, show ((1.0 : Float) == 1.0) = true by decide +kernel, Bool.or_true]
  rfl

/-! ### Logarithms -/

/-- What one rounding adds to the error of a logarithm. -/
noncomputable def roundoff : ℝ :=
  2 ^ (-51 : ℤ)

/-- Every rounding costs something. -/
theorem roundoff_pos : 0 < roundoff :=
  zpow_pos (by norm_num) _

/-- The double is a positive number with this logarithm, up to an error. Logarithms are real
numbers, and so is the error; both are there to reason with and are never computed. -/
def HasLog (x : Float) (ℓ ε : ℝ) : Prop :=
  ∃ q : ℚ, rational? x = some q ∧ 0 < q ∧ |Real.log q - ℓ| ≤ ε

/-- A number that is off by a small fraction has nearly the same logarithm. -/
theorem abs_log_sub_log_le {a b : ℝ} (hb : 0 < b) (h : |a - b| ≤ 2 ^ (-52 : ℤ) * b) :
    0 < a ∧ |Real.log a - Real.log b| ≤ roundoff := by
  -- The quotient `t` of the two numbers is near one, and the logarithm of such a number lies
  -- between `1 - 1 / t` and `t - 1`.
  obtain ⟨u, hu⟩ : ∃ u : ℝ, u = 2 ^ (-52 : ℤ) := ⟨_, rfl⟩
  have hupos : 0 < u := hu ▸ zpow_pos (by norm_num) _
  have huhalf : u ≤ 1 / 2 := by
    rw [hu]
    norm_num
  have hround : roundoff = 2 * u := by
    rw [roundoff, hu]
    norm_num
  obtain ⟨t, ht⟩ : ∃ t, t = a / b := ⟨_, rfl⟩
  rw [← hu, abs_le] at h
  have hlow : 1 - u ≤ t := by
    rw [ht, le_div_iff₀ hb]
    linarith
  have hhigh : t ≤ 1 + u := by
    rw [ht, div_le_iff₀ hb]
    linarith
  have htpos : 0 < t := by linarith
  have hapos : 0 < a := by
    rw [ht] at htpos
    exact (div_pos_iff_of_pos_right hb).1 htpos
  refine ⟨hapos, ?_⟩
  rw [← Real.log_div hapos.ne' hb.ne', ← ht, hround, abs_le]
  have hinv : t⁻¹ ≤ 1 + 2 * u := by
    rw [inv_le_iff_one_le_mul₀ htpos]
    nlinarith
  constructor
  · linarith [Real.one_sub_inv_le_log_of_pos htpos]
  · linarith [Real.log_le_sub_one_of_pos htpos]

/-- A number whose logarithm is not too large lies in the range of doubles. The bound is a round
number below `1022 · log 2`. -/
theorem inRange_of_abs_log_le {q : ℚ} (hq : 0 < q) (h : |Real.log q| ≤ 708) : InRange q := by
  have hq' : (0 : ℝ) < q := by exact_mod_cast hq
  have htwo := Real.log_two_gt_d9
  obtain ⟨hlow, hhigh⟩ := abs_le.1 h
  constructor
  · have hle : (2 : ℝ) ^ (-1022 : ℤ) ≤ q := by
      rw [← Real.log_le_log_iff (zpow_pos (by norm_num) _) hq', Real.log_zpow]
      push_cast
      linarith
    rwa [← Rat.cast_le (K := ℝ), Rat.cast_zpow, Rat.cast_ofNat]
  · have hlt : (q : ℝ) < 2 ^ (1023 : ℤ) := by
      rw [← Real.log_lt_log_iff hq' (zpow_pos (by norm_num) _), Real.log_zpow]
      push_cast
      linarith
    exact_mod_cast hlt

namespace HasLog

variable {x y : Float} {ℓ k ε δ : ℝ}

/-- An error may be overstated. -/
theorem mono (h : HasLog x ℓ ε) (hle : ε ≤ δ) : HasLog x ℓ δ := by
  obtain ⟨q, hx, hq, hlog⟩ := h
  exact ⟨q, hx, hq, hlog.trans hle⟩

/-- The logarithm of one is known without an error. -/
theorem one : HasLog 1.0 0 0 :=
  ⟨1, rational?_one, one_pos, by simp⟩

/-- What is near the logarithm is the logarithm up to a larger error. -/
theorem shift (h : HasLog x ℓ ε) (hle : |ℓ - k| ≤ δ) : HasLog x k (ε + δ) := by
  obtain ⟨q, hx, hq, hlog⟩ := h
  exact ⟨q, hx, hq, (abs_sub_le _ ℓ _).trans (add_le_add hlog hle)⟩

/-- A double that is near a positive number has nearly its logarithm. -/
theorem of_near {p v : ℚ} (hx : rational? x = some p) (hv : 0 < v)
    (hnear : |p - v| ≤ 2 ^ (-52 : ℤ) * v) (hlog : |Real.log v - ℓ| ≤ ε) :
    HasLog x ℓ (ε + roundoff) := by
  rw [← Rat.cast_le (K := ℝ), Rat.cast_abs, Rat.cast_sub, Rat.cast_mul, Rat.cast_zpow,
    Rat.cast_ofNat] at hnear
  obtain ⟨hpos, hclose⟩ := abs_log_sub_log_le (by exact_mod_cast hv) hnear
  refine ⟨p, hx, by exact_mod_cast hpos, ?_⟩
  calc |Real.log p - ℓ| ≤ |Real.log p - Real.log v| + |Real.log v - ℓ| := abs_sub_le _ _ _
    _ ≤ ε + roundoff := by linarith

/-- Logarithms add under products. -/
theorem mul (hx : HasLog x ℓ ε) (hy : HasLog y k δ) (h : |ℓ + k| + (ε + δ) ≤ 708) :
    HasLog (x * y) (ℓ + k) (ε + δ + roundoff) := by
  obtain ⟨p, hxp, hp, hlogp⟩ := hx
  obtain ⟨q, hyq, hq, hlogq⟩ := hy
  -- the exact product first, then the one rounding
  have hlog : Real.log ((p * q : ℚ) : ℝ) = Real.log p + Real.log q := by
    rw [Rat.cast_mul, Real.log_mul (by exact_mod_cast hp.ne') (by exact_mod_cast hq.ne')]
  have hclose : |Real.log ((p * q : ℚ) : ℝ) - (ℓ + k)| ≤ ε + δ := by
    rw [hlog, add_sub_add_comm]
    exact (abs_add_le _ _).trans (add_le_add hlogp hlogq)
  have hrange : InRange (p * q) := by
    refine inRange_of_abs_log_le (mul_pos hp hq) (le_trans ?_ h)
    have := abs_sub_abs_le_abs_sub (Real.log ((p * q : ℚ) : ℝ)) (ℓ + k)
    linarith
  obtain ⟨r, hr, hnear⟩ := rational?_mul_near hxp hyq hrange
  exact of_near hr (mul_pos hp hq) hnear hclose

/-- Logarithms subtract under quotients. -/
theorem div (hx : HasLog x ℓ ε) (hy : HasLog y k δ) (h : |ℓ - k| + (ε + δ) ≤ 708) :
    HasLog (x / y) (ℓ - k) (ε + δ + roundoff) := by
  obtain ⟨p, hxp, hp, hlogp⟩ := hx
  obtain ⟨q, hyq, hq, hlogq⟩ := hy
  -- the exact quotient first, then the one rounding
  have hlog : Real.log ((p / q : ℚ) : ℝ) = Real.log p - Real.log q := by
    rw [Rat.cast_div, Real.log_div (by exact_mod_cast hp.ne') (by exact_mod_cast hq.ne')]
  have hclose : |Real.log ((p / q : ℚ) : ℝ) - (ℓ - k)| ≤ ε + δ := by
    rw [hlog, sub_sub_sub_comm]
    exact (abs_sub _ _).trans (add_le_add hlogp hlogq)
  have hrange : InRange (p / q) := by
    refine inRange_of_abs_log_le (div_pos hp hq) (le_trans ?_ h)
    have := abs_sub_abs_le_abs_sub (Real.log ((p / q : ℚ) : ℝ)) (ℓ - k)
    linarith
  obtain ⟨r, hr, hnear⟩ := rational?_div_near hxp hyq hq.ne' hrange
  exact of_near hr (div_pos hp hq) hnear hclose

/-- A number with a logarithm is not zero. -/
theorem beq_zero (h : HasLog x ℓ ε) : (x == 0.0) = false := by
  obtain ⟨q, hx, hq, -⟩ := h
  rw [Bool.eq_false_iff, ne_eq, beq_iff hx rational?_zero]
  exact hq.ne'

/-- Without an error, the number of logarithm zero is one. -/
theorem eq_one (h : HasLog x 0 0) : x = 1.0 := by
  obtain ⟨q, hx, hq, hlog⟩ := h
  have hone : (q : ℝ) = 1 := by
    have hzero : Real.log q = 0 := by simpa using hlog
    exact Real.eq_one_of_pos_of_log_eq_zero (by exact_mod_cast hq) hzero
  exact eq_of_rational? hx (by rw [rational?_one, show q = 1 by exact_mod_cast hone]) hq.ne'

/-! Errors that are counted in shares, apart from a fixed part `σ`. Where there are no shares the
number is one, which a product or a quotient leaves as it is. -/

section Shares

variable {m n : ℕ} {ρ σ τ : ℝ}

/-- Where there are no shares, and nothing that is fixed, the number is exactly one. -/
theorem eq_one_of_shares (hx : HasLog x ℓ (m * ρ + σ)) (hm : m = 0) (hℓ : ℓ = 0) (hσ : σ = 0) :
    x = 1.0 := by
  rw [hm, hℓ, hσ, Nat.cast_zero, zero_mul, zero_add] at hx
  exact hx.eq_one

/-- One rounding adds no more than it adds to each share. -/
theorem share_add_le (σ τ : ℝ) (hne : m + n ≠ 0) :
    m * ρ + σ + (n * ρ + τ) + roundoff ≤ ((m + n : ℕ) : ℝ) * (ρ + roundoff) + (σ + τ) := by
  have hone : (1 : ℝ) ≤ ((m + n : ℕ) : ℝ) := by exact_mod_cast Nat.one_le_iff_ne_zero.2 hne
  have := mul_le_mul_of_nonneg_right hone roundoff_pos.le
  push_cast at this ⊢
  linarith

/-- Shares add under products, and the rounding of the product is paid for by raising the price
of each share by one rounding. Without any shares there is nothing to round, as both factors are
one. -/
theorem mul_shares (hx : HasLog x ℓ (m * ρ + σ)) (hy : HasLog y k (n * ρ + τ))
    (hm : m = 0 → ℓ = 0 ∧ σ = 0) (hn : n = 0 → k = 0 ∧ τ = 0)
    (h : |ℓ + k| + (m * ρ + σ + (n * ρ + τ)) ≤ 708) :
    HasLog (x * y) (ℓ + k) ((m + n : ℕ) * (ρ + roundoff) + (σ + τ)) := by
  by_cases hne : m + n = 0
  · obtain ⟨hm', hn'⟩ := Nat.add_eq_zero_iff.1 hne
    obtain ⟨hℓ, hσ⟩ := hm hm'
    obtain ⟨hk, hτ⟩ := hn hn'
    rw [hx.eq_one_of_shares hm' hℓ hσ, hy.eq_one_of_shares hn' hk hτ, mul_one_eq_self, hℓ, hk, hσ,
      hτ, hne, Nat.cast_zero, zero_mul, add_zero, add_zero]
    exact one
  · exact (hx.mul hy h).mono (share_add_le σ τ hne)

/-- Shares add under quotients in the same way. -/
theorem div_shares (hx : HasLog x ℓ (m * ρ + σ)) (hy : HasLog y k (n * ρ + τ))
    (hm : m = 0 → ℓ = 0 ∧ σ = 0) (hn : n = 0 → k = 0 ∧ τ = 0)
    (h : |ℓ - k| + (m * ρ + σ + (n * ρ + τ)) ≤ 708) :
    HasLog (x / y) (ℓ - k) ((m + n : ℕ) * (ρ + roundoff) + (σ + τ)) := by
  by_cases hne : m + n = 0
  · obtain ⟨hm', hn'⟩ := Nat.add_eq_zero_iff.1 hne
    obtain ⟨hℓ, hσ⟩ := hm hm'
    obtain ⟨hk, hτ⟩ := hn hn'
    rw [hx.eq_one_of_shares hm' hℓ hσ, hy.eq_one_of_shares hn' hk hτ,
      div_self_eq_one rational?_one one_ne_zero, hℓ, hk, hσ, hτ, hne, sub_zero, Nat.cast_zero,
      zero_mul, add_zero, add_zero]
    exact one
  · exact (hx.div hy h).mono (share_add_le σ τ hne)

end Shares

end HasLog

end DimensionalAnalysis.Number
