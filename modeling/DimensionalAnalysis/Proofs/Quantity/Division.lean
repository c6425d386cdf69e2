import DimensionalAnalysis.Proofs.Fallible
import DimensionalAnalysis.Proofs.Number.Division
import DimensionalAnalysis.Quantity.Operation

/-!
# Division with remainder

`divMod` truncates the rounded quotient and takes the remainder of the exact one. Its parts are an
integer and what is left of the dividend, of less than the divisor's magnitude, but they need not
fit: the quotient may be one too far out (`Quantity.divMod_law`). This takes an exact quotient that
rounding brings to the next integer. One divided by a tenth is such a quotient, since the double
that stands for a tenth is slightly larger. Integers have none (`Quantity.divMod_of_integers`).
-/

namespace DimensionalAnalysis.Quantity

open Number (rational? towardZero ReachesNext)

variable {p q : Quantity} {a b : ℚ}

/-- Without two different units the values are taken as they are. -/
theorem align_eq (hunit : p.isUntyped ∨ q.isUntyped ∨ p.unit? = q.unit?) :
    p.align q = .ok (p.value, q.value) := by
  rw [align]
  split
  · rename_i m n hm hn
    have htext : m.text = n.text := by simpa [isUntyped, unit?, hm, hn] using hunit
    rw [if_pos htext]
  · rfl

/-- Then the quotient is truncated and the remainder taken of the values alone. -/
theorem divMod_eq (hunit : p.isUntyped ∨ q.isUntyped ∨ p.unit? = q.unit?) :
    p.divMod q =
      .ok (Number.truncate (p.value / q.value), Number.remainder p.value q.value) := by
  rw [divMod, align_eq hunit]
  rfl

/-- **The division law, and where it fails.** The quotient is an integer. The remainder is below
the divisor, has the sign of the dividend, and is what the exact quotient leaves of it without
its fraction. The two give back the dividend exactly if rounding does not bring the exact
quotient to the next integer, and otherwise they give one divisor too much.

The remainder is exact in either case, as the remainder of doubles always is one. It is the
quotient that has been rounded before it is truncated. -/
theorem divMod_law (hp : rational? p.value = some a) (hq : rational? q.value = some b)
    (hb : b ≠ 0) (hlt : |a / b| < 2 ^ 53)
    (hunit : p.isUntyped ∨ q.isUntyped ∨ p.unit? = q.unit?) :
    ∃ (n m : Float) (k : ℤ) (r : ℚ), p.divMod q = .ok (n, m) ∧ rational? n = some (k : ℚ) ∧
      rational? m = some r ∧ |r| < |b| ∧ 0 ≤ a * r ∧ r = a - towardZero (a / b) * b ∧
      (k * b + r = a ↔ ¬ReachesNext (a / b)) ∧
      (ReachesNext (a / b) → k * b + r = a + (SignType.sign (a / b) : ℤ) * b) := by
  obtain ⟨k, r, hn, hm, h⟩ := Number.exists_truncate_div_remainder hp hq hb hlt
  exact ⟨_, _, k, r, divMod_eq hunit, hn, hm, h⟩

/-- Minus seven metres and two metres. -/
theorem divMod_law_metres :
    ∃ p q, withUnit (-7.0) "m" = .ok p ∧ withUnit 2.0 "m" = .ok q ∧
      ∃ n m : Float, p.divMod q = .ok (n, m) ∧ rational? n = some (-3) ∧
        rational? m = some (-1) := by
  have hvalues : (withUnit (-7.0) "m").toOption.any fun p ↦ (withUnit 2.0 "m").toOption.any fun q ↦
      rational? p.value = some (-7) && rational? q.value = some 2 && p.unit? = q.unit? := by
    decide +kernel
  simp only [Option.any_eq_true, toOption_eq_some_iff, Bool.and_eq_true, decide_eq_true_eq]
    at hvalues
  obtain ⟨p, hp, q, hq, ⟨hpvalue, hqvalue⟩, hunit⟩ := hvalues
  have hlt : |(-7 : ℚ) / 2| < 2 ^ 53 := by norm_num
  obtain ⟨n, m, k, r, hdivMod, hn, hm, -, -, hr, hlaw, -⟩ :=
    divMod_law hpvalue hqvalue two_ne_zero hlt (.inr (.inr hunit))
  have hexact : towardZero (-7 / 2) = -3 := by decide +kernel
  have hr : r = -1 := by
    rw [hr, hexact]
    norm_num
  -- three and a half is a double, so that nothing is rounded
  have hk : (k : ℚ) = -3 := by
    have hsum := hlaw.2 (by decide +kernel)
    linarith
  exact ⟨p, q, hp, hq, n, m, hdivMod, hk ▸ hn, hr ▸ hm⟩

/-- Ten times the double that stands for a tenth is more than one, and yet the quotient is ten. -/
theorem not_divMod_law :
    ∃ (n m : Float) (a b r : ℚ) (k : ℤ), (untyped 1.0).divMod (untyped 0.1) = .ok (n, m) ∧
      rational? 1.0 = some a ∧ rational? 0.1 = some b ∧ b ≠ 0 ∧ |a / b| < 2 ^ 53 ∧
      rational? n = some (k : ℚ) ∧ rational? m = some r ∧ k * b + r ≠ a := by
  have htenth : rational? 0.1 = some (3602879701896397 / 36028797018963968) := by decide +kernel
  have hquotient : rational? (Number.truncate (1.0 / 0.1)) = some ((10 : ℤ) : ℚ) := by
    decide +kernel
  have hremainder : rational? (Number.remainder 1.0 0.1) =
      some (3602879701896395 / 36028797018963968) := by decide +kernel
  refine ⟨_, _, _, _, _, _, divMod_eq (.inl rfl), Number.rational?_one, htenth, ?_, ?_, hquotient,
    hremainder, ?_⟩ <;> norm_num [abs_of_pos]

/-- Integers divide as integers. -/
theorem divMod_of_integers {i k : ℤ} (hp : rational? p.value = some (i : ℚ))
    (hq : rational? q.value = some (k : ℚ)) (hi : |i| < 2 ^ 53) (hk : k ≠ 0)
    (hunit : p.isUntyped ∨ q.isUntyped ∨ p.unit? = q.unit?) :
    ∃ n m : Float, p.divMod q = .ok (n, m) ∧ rational? n = some ((i.tdiv k : ℤ) : ℚ) ∧
      rational? m = some ((i.tmod k : ℤ) : ℚ) := by
  have hk0 : (k : ℚ) ≠ 0 := Int.cast_ne_zero.2 hk
  have hlt := Number.abs_div_lt_of_abs_lt hi hk
  refine ⟨_, _, divMod_eq hunit, ?_, ?_⟩
  · rw [Number.rational?_truncate_div hp hq hk0 hlt, if_neg (Number.not_reachesNext_div hi hk),
      add_zero, Number.towardZero_div]
  · rw [Number.rational?_remainder hp hq hk0, Number.towardZero_div, Int.tmod_def]
    push_cast
    rw [mul_comm]

end DimensionalAnalysis.Quantity
