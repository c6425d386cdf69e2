import DimensionalAnalysis.Number.Shortest
import DimensionalAnalysis.Proofs.Number.Decimal

/-!
# Decimals that read back

`Decimal.shortest` gives a decimal that reads back as the double it was made for
(`toFloat_shortest`). For a decimal found on a grid this is how it was found, so that the
search needs no bound and no analysis. What remains is the decimal expansion of a double that
stands in where the search finds nothing. It is equal to the double and so read exactly
(`toFloat_exact`).
-/

namespace DimensionalAnalysis.Decimal

open Float.Model.UnpackedFloat (Sign)
open Number

/-- The decimal expansion of a dyadic fraction is equal to it. -/
theorem value_exact (s : Sign) (m : ℕ) (e : ℤ) :
    (exact (s == .negative) m e).value = signFactor s * (m * 2 ^ e) := by
  have hsign : (exact (s == .negative) m e).sign = s := by cases s <;> rfl
  rw [value, hsign, exact]
  simp only [Nat.pow_eq]
  rcases lt_or_ge e 0 with he | he
  · obtain ⟨k, rfl⟩ : ∃ k : ℕ, e = -k := ⟨(-e).toNat, by omega⟩
    have hten : (5 : ℚ) ^ k * 10 ^ (-k : ℤ) = 2 ^ (-k : ℤ) := by
      rw [zpow_neg, zpow_neg, zpow_natCast, zpow_natCast, ← div_eq_mul_inv, ← inv_div,
        ← div_pow]
      norm_num
    rw [min_eq_left he.le, Int.toNat_of_nonpos he.le, neg_neg, Int.toNat_natCast, pow_zero, mul_one]
    push_cast
    rw [mul_assoc, hten]
  · obtain ⟨k, rfl⟩ := Int.eq_ofNat_of_zero_le he
    rw [min_eq_right he, Int.toNat_natCast, Int.toNat_of_nonpos (by omega), pow_zero, mul_one,
      zpow_zero, mul_one, zpow_natCast]
    push_cast
    rfl

/-- The decimal expansion of a double is read as that double. -/
theorem toFloat_exact {x : Float} {s : Sign} {m : ℕ} {e : ℤ} {hm : 0 < m}
    (hx : x.toModel.unpack = .finite s m e hm) : (exact (s == .negative) m e).toFloat = x := by
  have hvalue : rational? x = some (signFactor s * (m * 2 ^ e)) := by
    rw [rational?, hx, valueOf]
  have hexact := value_exact s m e
  refine eq_of_rational? ?_ hvalue (signFactor_mul_ne_zero hm)
  rw [← hexact]
  exact rational?_toFloat_of_representable (hexact ▸ representable_of_rational? hvalue)

/-- A decimal from the search reads back, as it was looked for. -/
theorem toFloat_of_hit? {x : Float} {negative : Bool} {num den : ℕ} {grid : ℤ} {d : Decimal}
    (h : hit? x negative num den grid = some d) : d.toFloat = x := by
  simpa using List.find?_some h

/-- **The shortest decimal of a double reads back.** Nothing is said here on how short it is. -/
theorem toFloat_shortest {x : Float} {q : ℚ} (hx : rational? x = some q) :
    (shortest x).toFloat = x := by
  unfold shortest
  obtain ⟨s, hu, -⟩ | ⟨s, m, e, hm, hu, -⟩ := valueOf_cases hx
  · -- there are two zeros, and both are looked at
    have hzero : x = .ofModel (.pack (.zero s)) := by
      rw [← hu, pack_unpack]
    rw [hu, hzero]
    cases s <;> decide +kernel
  · rw [hu]
    dsimp only
    -- what the search finds it has tested, and where it finds nothing the expansion stands in
    rcases hfound : (List.range gridCount).findSome? _ with - | d
    · exact toFloat_exact hu
    · obtain ⟨i, -, hi⟩ := List.exists_of_findSome?_eq_some hfound
      exact toFloat_of_hit? hi

/-- A power of ten behind a zero changes nothing. -/
theorem toFloat_zero_digits (negative : Bool) (e : ℤ) :
    toFloat ⟨negative, 0, e⟩ = toFloat ⟨negative, 0, 0⟩ :=
  toFloat_congr rfl (by simp)

/-- The shortest decimal has no power of ten behind a zero. -/
theorem digits_shortest {x : Float} {q : ℚ} (hx : rational? x = some q) :
    (shortest x).digits ≠ 0 ∨ (shortest x).exponent = 0 := by
  have hread := toFloat_shortest hx
  rcases hd : shortest x with ⟨negative, n, e⟩
  rw [hd] at hread
  rcases eq_or_ne n 0 with rfl | hn
  · rw [toFloat_zero_digits] at hread
    have hshortest : (shortest x).exponent = 0 := by
      rw [← hread]
      cases negative <;> decide +kernel
    exact .inr (by rwa [hd] at hshortest)
  · exact .inl hn

end DimensionalAnalysis.Decimal
