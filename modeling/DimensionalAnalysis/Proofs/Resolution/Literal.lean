import DimensionalAnalysis.Proofs.Catalog.Symbols
import DimensionalAnalysis.Proofs.Expression.Numeral

/-!
# Exponents as they are written

A base unit to the power of a literal has the literal for its exponent, as far as the resolver's
way to get there allows (`Catalog.resolve_literal`). The resolver adds the unit once, and then
its power less one: what it stores is one plus the difference of the literal and one, and both
are rounded.

Where the difference is a double, nothing is rounded. Where it is not, there are two cases.

* Below 53 bits the difference alone is rounded, to a multiple of the last place of one. The sum
  is exact, and so it is not the literal.
* Beyond 53 bits doubles are even, and ties go to multiples of four. A literal that is one is
  found again, and from the others two is taken away.

Together this is a condition on the literal alone (`Number.IsExactExponent`). All integers of 53
bits meet it, a tenth does not.

The first half of the module is about doubles and knows of no units: it says what `1 + (x - 1)`
is. The second half says that this is what the resolver stores.
-/

namespace DimensionalAnalysis

/-! ### One less and one more -/

namespace Number

variable {x z : Float} {p v : ℚ}

/-- A difference that is a double is not rounded, and neither is the sum that undoes it. -/
theorem one_add_sub_one_of_representable (hx : rational? x = some p)
    (hrep : Representable (p - 1)) : rational? (1.0 + (x - 1.0)) = some p := by
  have hsum := rational?_add rational?_one (rational?_sub hx rational?_one hrep)
  rw [add_sub_cancel] at hsum
  exact hsum (representable_of_rational? hx)

/-- Taking one away from a double of moderate size leaves a double. From a half on the
difference is no larger than the double is, or than one, and a multiple of the same last place.
-/
theorem representable_sub_one (hp : Representable p) (hlow : 1 / 2 ≤ p) (hhigh : p ≤ 2 ^ 53) :
    Representable (p - 1) := by
  have hpos : 0 < p := by linarith
  rcases hhigh.eq_or_lt with rfl | hlt
  · exact_mod_cast representable_intCast (show |(2 ^ 53 - 1 : ℤ)| < 2 ^ 53 by norm_num)
  obtain ⟨n, hn⟩ := hp.exists_int_mul_spacing
  have hbits := abs_lt_two_zpow_spacing p
  have hge : -53 ≤ spacing p := le_spacing (by rw [abs_of_pos hpos]; norm_num; linarith)
  have hle : spacing p ≤ 0 :=
    spacing_le hpos.ne' (by rw [abs_of_pos hpos]; exact_mod_cast hlt) (by norm_num)
  obtain ⟨k, hk⟩ : ∃ k : ℕ, spacing p = -k := ⟨(-spacing p).toNat, by omega⟩
  rw [hk] at hn hbits hge
  have hunit : (2 : ℚ) ^ k * 2 ^ (-k : ℤ) = 1 := by
    rw [zpow_neg, zpow_natCast, mul_inv_cancel₀ (by positivity)]
  refine ⟨n - 2 ^ k, -k, ?_, by omega, by omega, ?_⟩
  · -- in units of the last place one is a power of two, and not more than 53 bits
    have hn0 : 0 < n := by
      have : (0 : ℚ) < n := (mul_pos_iff_of_pos_right (two_zpow_pos (-k))).1 (hn ▸ hpos)
      exact_mod_cast this
    have hn1 : n < 2 ^ 53 := by
      rw [abs_of_pos hpos, hn] at hbits
      exact_mod_cast lt_of_mul_lt_mul_right hbits (two_zpow_pos (-k)).le
    have hk1 : (2 : ℤ) ^ k ≤ 2 ^ 53 := pow_le_pow_right₀ (by norm_num) (by omega)
    have hk0 : (0 : ℤ) < 2 ^ k := by positivity
    omega
  · rw [hn]
    push_cast
    rw [sub_mul, hunit]

/-- The difference below a half is rounded to at least the last place of one.

It is negative, and its last place is a fraction of one. So one more than the rounded difference
is a multiple of that place and of no more bits, which is what makes the sum exact. -/
theorem representable_one_add {n : ℤ} (hlow : -(2 ^ 53) < v) (hhigh : v < -1 / 2)
    (hn : RoundsEven (v / 2 ^ spacing v) n) : Representable (1 + n * 2 ^ spacing v) := by
  have hneg : v < 0 := by linarith
  have habs : |v| = -v := abs_of_neg hneg
  have hge : -53 ≤ spacing v := le_spacing (by rw [habs]; norm_num; linarith)
  have hle : spacing v ≤ 0 :=
    spacing_le hneg.ne (by rw [habs]; norm_num; linarith) (by norm_num)
  have hbits := abs_lt_two_zpow_spacing v
  have hnormal := two_zpow_spacing_le hneg.ne (by omega)
  rw [habs] at hbits hnormal
  have hunit := two_zpow_pos (spacing v)
  have hnlow : -2 ^ 53 ≤ n := hn.le_of_le ((le_div_iff₀ hunit).2 (by
    push_cast
    rw [neg_mul]
    exact_mod_cast (neg_lt.1 hbits).le))
  have hnhigh : n ≤ -2 ^ 52 := hn.le_of_ge ((div_le_iff₀ hunit).2 (by
    push_cast
    rw [neg_mul]
    exact_mod_cast le_neg.1 hnormal))
  obtain ⟨k, hk⟩ : ∃ k : ℕ, spacing v = -k := ⟨(-spacing v).toNat, by omega⟩
  rw [hk] at hge ⊢
  refine ⟨2 ^ k + n, -k, ?_, by omega, by omega, ?_⟩
  · have hk1 : (2 : ℤ) ^ k ≤ 2 ^ 53 := pow_le_pow_right₀ (by norm_num) (by omega)
    have hk0 : (0 : ℤ) < 2 ^ k := by positivity
    omega
  · push_cast
    rw [add_mul, zpow_neg, zpow_natCast, mul_inv_cancel₀ (by positivity)]

/-- Next to a multiple of four beyond 53 bits, the last place is not finer than that of the
multiple. -/
theorem exists_int_mul_spacing_of_near {k : ℤ} (hrep : Representable (4 * k : ℤ))
    (hnear : |((4 * k : ℤ) : ℚ) - v| = 1) (hlarge : 2 ^ 53 ≤ |v|) :
    ∃ m : ℤ, ((4 * k : ℤ) : ℚ) = m * 2 ^ spacing v := by
  have hv : v ≠ 0 := by
    rintro rfl
    norm_num at hlarge
  have hdown := abs_sub_abs_le_abs_sub v ((4 * k : ℤ) : ℚ)
  rw [abs_sub_comm, hnear] at hdown
  have hbits := abs_lt_two_zpow_spacing ((4 * k : ℤ) : ℚ)
  -- the multiple is an integer of its last place, which is a power of two and not a fraction
  have hge : 0 ≤ spacing ((4 * k : ℤ) : ℚ) := le_spacing (by norm_num at hdown ⊢; linarith)
  obtain ⟨n, hn⟩ := hrep.exists_int_mul_spacing
  generalize spacing ((4 * k : ℤ) : ℚ) = t at hn hbits hge
  rw [hn]
  refine exists_int_mul_two_zpow n (spacing_le hv ?_ (by omega))
  obtain ⟨j, rfl⟩ := Int.eq_ofNat_of_zero_le hge
  have hpow : (2 : ℚ) ^ ((j : ℤ) + 53) = ((4 * 2 ^ (51 + j) : ℤ) : ℚ) := by
    rw [show (j : ℤ) + 53 = ((2 + (51 + j) : ℕ) : ℤ) by push_cast; ring, zpow_natCast, pow_add]
    norm_num
  -- the multiple is below the next power of two, so it is below it by four
  rw [← zpow_add₀ (by norm_num), add_comm, hpow] at hbits
  have hint : |4 * k| < 4 * 2 ^ (51 + j) := by exact_mod_cast hbits
  generalize (2 : ℤ) ^ (51 + j) = top at hpow hint
  have hmargin : |4 * k| + 1 < 4 * top := by
    rw [abs_mul] at hint ⊢
    norm_num at hint ⊢
    omega
  have hmargin : |((4 * k : ℤ) : ℚ)| + 1 < ((4 * top : ℤ) : ℚ) := by exact_mod_cast hmargin
  rw [hpow]
  linarith

/-- Beyond 53 bits a neighbour of a multiple of four is rounded to it: the multiple is even if there
is a tie. -/
theorem rational?_of_nearest_four_mul {k : ℤ} (hrep : Representable (4 * k : ℤ))
    (hnear : |((4 * k : ℤ) : ℚ) - v| = 1) (hlarge : 2 ^ 53 ≤ |v|)
    (hz : Nearest v z.toModel.unpack) : rational? z = some ((4 * k : ℤ) : ℚ) := by
  obtain ⟨m, hm⟩ := exists_int_mul_spacing_of_near hrep hnear hlarge
  have hs : 1 ≤ spacing v := le_spacing (by norm_num; linarith)
  have hunit := two_zpow_pos (spacing v)
  have hdistance : |(m : ℚ) - v / 2 ^ spacing v| * 2 ^ spacing v = 1 := by
    rw [← abs_of_pos hunit, ← abs_mul, abs_of_pos hunit, sub_mul, ← hm,
      div_mul_cancel₀ _ hunit.ne', hnear]
  have hround : RoundsEven (v / 2 ^ spacing v) m := by
    rcases hs.eq_or_lt with hone | htwo
    · -- halfway between two significands
      rw [← hone, zpow_one] at hdistance hm
      refine .inr ⟨by rw [← hone, zpow_one]; linarith, 2 * k / 2, ?_⟩
      have : 4 * k = m * 2 := by exact_mod_cast hm
      omega
    · have hfour : (2 : ℚ) ^ (2 : ℤ) ≤ 2 ^ spacing v :=
        zpow_le_zpow_right₀ (by norm_num) (by omega)
      refine .inl ?_
      by_contra hge
      nlinarith
  have hvalue := hz.valueOf_eq hround (hm ▸ hrep.abs_lt)
  rwa [← hm] at hvalue

/-- The numbers that one can be taken away from and added to again. One less than them is a double,
or they are multiples of four beyond 53 bits. -/
def IsExactExponent (p : ℚ) : Prop :=
  Representable (p - 1) ∨ 2 ^ 53 < |p| ∧ ∃ k : ℤ, p = (4 * k : ℤ)

/-- One less than an integer of 53 bits is a double. -/
theorem representable_int_sub_one {n : ℤ} (h : |n| < 2 ^ 53) : Representable ((n : ℚ) - 1) := by
  obtain ⟨hlow, hhigh⟩ := abs_lt.1 h
  have hcast : (n : ℚ) - 1 = ((n - 1 : ℤ) : ℚ) := by push_cast; rfl
  rw [hcast]
  by_cases hlast : n - 1 = -2 ^ 53
  · exact ⟨-1, 53, by norm_num, by norm_num, by norm_num, by rw [hlast]; norm_num⟩
  · exact representable_intCast (abs_lt.2 ⟨by omega, by omega⟩)

/-- Beyond 53 bits doubles are even. -/
theorem Representable.four_mul_cases (hp : Representable p) (hlarge : 2 ^ 53 ≤ |p|) :
    ∃ k : ℤ, p = (4 * k : ℤ) ∨ p = (4 * k + 2 : ℤ) := by
  obtain ⟨j, hj⟩ := hp.exists_int_mul_of_le (j := 1) (by norm_num; linarith)
  rw [zpow_one] at hj
  obtain ⟨k, rfl | rfl⟩ := j.even_or_odd'
  · exact ⟨k, .inl (by rw [hj]; push_cast; ring)⟩
  · exact ⟨k, .inr (by rw [hj]; push_cast; ring)⟩

/-- An odd number of twos is below 54 bits, and so the multiple of four next to it is a double
too. -/
theorem representable_four_mul {k : ℤ} (hp : Representable (4 * k + 2 : ℤ)) :
    Representable (4 * k : ℤ) := by
  obtain ⟨n, hn⟩ := hp.exists_int_mul_spacing
  have hle : spacing ((4 * k + 2 : ℤ) : ℚ) ≤ 1 := by
    by_contra hgt
    obtain ⟨m, hm⟩ := exists_int_mul_two_zpow n (Int.add_one_le_of_lt (not_le.1 hgt))
    rw [← hn] at hm
    norm_num at hm
    have hm : 4 * k + 2 = m * 4 := by exact_mod_cast hm
    omega
  have hbits := (abs_lt_two_zpow_spacing ((4 * k + 2 : ℤ) : ℚ)).trans_le
    (mul_le_mul_of_nonneg_left (zpow_le_zpow_right₀ (by norm_num) hle) (by norm_num))
  norm_num at hbits
  have hbits : |4 * k + 2| < 18014398509481984 := by exact_mod_cast hbits
  refine ⟨k, 2, ?_, by norm_num, by norm_num, by push_cast; ring⟩
  have := abs_lt.1 hbits
  omega

/-- Below 53 bits, what is rounded is the difference alone. -/
theorem one_add_sub_one_of_lt (hx : rational? x = some p) (hlt : |p| < 2 ^ 53)
    (hrep : ¬Representable (p - 1)) :
    ∃ q, rational? (1.0 + (x - 1.0)) = some q ∧ q ≠ p ∧ |q - p| ≤ 2 ^ (-52 : ℤ) * (|p| + 1) := by
  have hp := representable_of_rational? hx
  obtain ⟨hlow, hhigh⟩ := abs_lt.1 hlt
  have hhalf : p < 1 / 2 := by
    by_contra hge
    exact hrep (representable_sub_one hp (not_lt.1 hge) hhigh.le)
  have hlast : -2 ^ 53 < p - 1 := by
    by_contra hge
    -- only integers are as large, and one less than them is a double
    have hneg : |p| = -p := abs_of_neg (by linarith)
    obtain ⟨n, hn⟩ := hp.exists_int_mul_of_le (j := 0) (by rw [hneg]; norm_num; linarith)
    rw [zpow_zero, mul_one] at hn
    rw [hn] at hlt hrep
    exact hrep (representable_int_sub_one (by exact_mod_cast hlt))
  obtain ⟨r, hr⟩ := exists_rational?_sub_one hx
  obtain ⟨n, hn, hrn⟩ := (nearest_sub hx rational?_one).exists_of_valueOf hr
  have hsum := rational?_add rational?_one hr
    (hrn ▸ representable_one_add hlast (by linarith) hn)
  refine ⟨1 + r, hsum, fun heq ↦ hrep ?_, ?_⟩
  · rw [← heq, add_sub_cancel_left]
    exact representable_of_rational? hr
  · have hsplit : 1 + r - p = r - (p - 1) := by ring
    rw [hsplit]
    exact abs_sub_one_le hx hr

/-! Beyond 53 bits, what is one more or one less than a double is rounded to a multiple of four. -/

section Large

variable {k : ℤ}

/-- A multiple of four is found again, once by rounding up and once by rounding down. -/
theorem one_add_sub_one_four_mul (hx : rational? x = some ((4 * k : ℤ) : ℚ))
    (hlarge : 2 ^ 53 < |4 * k|) : rational? (1.0 + (x - 1.0)) = some ((4 * k : ℤ) : ℚ) := by
  have hp := representable_of_rational? hx
  have hbelow : 2 ^ 53 ≤ |4 * k - 1| := by
    rw [lt_abs] at hlarge
    rw [le_abs]
    omega
  have habove : 2 ^ 53 ≤ |1 + 4 * k| := by
    rw [lt_abs] at hlarge
    rw [le_abs]
    omega
  have hr := rational?_of_nearest_four_mul hp (by simp) (by exact_mod_cast hbelow)
    (nearest_sub hx rational?_one)
  exact rational?_of_nearest_four_mul hp (by simp) (by exact_mod_cast habove)
    (nearest_add rational?_one hr)

/-- An odd multiple of two is not: its difference is rounded down to the multiple of four below,
and the sum is rounded down to that too. -/
theorem one_add_sub_one_four_mul_add_two (hx : rational? x = some ((4 * k + 2 : ℤ) : ℚ))
    (hlarge : 2 ^ 53 ≤ |4 * k + 2|) : rational? (1.0 + (x - 1.0)) = some ((4 * k : ℤ) : ℚ) := by
  have hp := representable_four_mul (representable_of_rational? hx)
  have hbelow : 2 ^ 53 ≤ |4 * k + 1| := by
    rw [le_abs] at hlarge ⊢
    omega
  have hbelow : 2 ^ 53 ≤ |((4 * k : ℤ) : ℚ) + 1| := by exact_mod_cast hbelow
  have hdiff : Nearest (((4 * k : ℤ) : ℚ) + 1) (x - 1.0).toModel.unpack := by
    convert nearest_sub hx rational?_one using 1
    push_cast
    ring
  have hr := rational?_of_nearest_four_mul hp (by simp) hbelow hdiff
  have hsum := nearest_add rational?_one hr
  rw [add_comm] at hsum
  exact rational?_of_nearest_four_mul hp (by simp) hbelow hsum

/-- The smallest integer of 53 bits is the one multiple of four that is lost. -/
theorem one_add_sub_one_lowest (hx : rational? x = some ((-2 ^ 53 : ℤ) : ℚ)) :
    rational? (1.0 + (x - 1.0)) = some ((-2 ^ 53 + 1 : ℤ) : ℚ) := by
  have hlowest : (-2 ^ 53 : ℤ) = 4 * -2 ^ 51 := by norm_num
  rw [hlowest] at hx
  have hr := rational?_of_nearest_four_mul (representable_of_rational? hx) (by simp)
    (by norm_num) (nearest_sub hx rational?_one)
  rw [← hlowest] at hr
  have hcast : (1 : ℚ) + ((-2 ^ 53 : ℤ) : ℚ) = ((-2 ^ 53 + 1 : ℤ) : ℚ) := by
    push_cast
    ring
  rw [← hcast]
  refine rational?_add rational?_one hr ?_
  rw [hcast]
  exact representable_intCast (by norm_num)

/-- Beyond 53 bits two is taken away at most, and nothing exactly from multiples of four. Two is
within the error that is allowed, as the numbers are so large. -/
theorem one_add_sub_one_of_ge (hx : rational? x = some p) (hge : 2 ^ 53 ≤ |p|)
    (hrep : ¬Representable (p - 1)) :
    ∃ q, rational? (1.0 + (x - 1.0)) = some q ∧ |q - p| ≤ 2 ^ (-52 : ℤ) * (|p| + 1) ∧
      (q = p ↔ 2 ^ 53 < |p| ∧ ∃ k : ℤ, p = (4 * k : ℤ)) := by
  have hp := representable_of_rational? hx
  have hroom : (2 : ℚ) ≤ 2 ^ (-52 : ℤ) * (|p| + 1) := by
    norm_num
    linarith
  rcases hge.eq_or_lt with heq | hlt
  · -- the positive one of these two has a difference that is a double
    have hp : p = ((-2 ^ 53 : ℤ) : ℚ) := by
      rcases (abs_eq (by norm_num)).1 heq.symm with rfl | rfl
      · exact absurd (representable_sub_one hp (by norm_num) le_rfl) hrep
      · norm_num
    rw [hp] at hx heq hroom ⊢
    refine ⟨_, one_add_sub_one_lowest hx, ?_, ?_⟩
    · refine le_trans ?_ hroom
      norm_num
    · constructor
      · intro h
        norm_num at h
      · rintro ⟨hlt, -⟩
        exact absurd heq hlt.ne
  · obtain ⟨k, rfl | rfl⟩ := hp.four_mul_cases hge
    · have hexact := one_add_sub_one_four_mul hx (by exact_mod_cast hlt)
      exact ⟨_, hexact, by rw [sub_self, abs_zero]; linarith, ⟨fun _ ↦ ⟨hlt, k, rfl⟩, fun _ ↦ rfl⟩⟩
    · refine ⟨_, one_add_sub_one_four_mul_add_two hx (by exact_mod_cast hge), ?_, ?_⟩
      · refine le_trans ?_ hroom
        push_cast
        rw [sub_add_cancel_left, abs_neg, abs_two]
      · constructor
        · intro h
          have : 4 * k = 4 * k + 2 := by exact_mod_cast h
          omega
        · rintro ⟨-, i, h⟩
          have : 4 * k + 2 = 4 * i := by exact_mod_cast h
          omega

end Large

/-- **One is taken away and added again** with a small error at most, and without one exactly if
the exponent is exact. The three cases are a difference that is a double, and one that is not,
below 53 bits and beyond. -/
theorem exists_one_add_sub_one (hx : rational? x = some p) :
    ∃ q, rational? (1.0 + (x - 1.0)) = some q ∧ |q - p| ≤ 2 ^ (-52 : ℤ) * (|p| + 1) ∧
      (q = p ↔ IsExactExponent p) := by
  by_cases hrep : Representable (p - 1)
  · refine ⟨p, one_add_sub_one_of_representable hx hrep, ?_, ?_⟩
    · rw [sub_self, abs_zero]
      positivity
    · exact ⟨fun _ ↦ .inl hrep, fun _ ↦ rfl⟩
  · rw [IsExactExponent, or_iff_right hrep]
    rcases lt_or_ge |p| (2 ^ 53) with hlt | hge
    · obtain ⟨q, hq, hne, herror⟩ := one_add_sub_one_of_lt hx hlt hrep
      exact ⟨q, hq, herror, ⟨fun h ↦ absurd h hne, fun h ↦ absurd h.1 (not_lt.2 hlt.le)⟩⟩
    · exact one_add_sub_one_of_ge hx hge hrep

end Number

/-! ### Tokens that are exponents -/

/-- The characters of exponents. -/
def isNumeralChar (c : Char) : Bool :=
  c.isDigit || "+-.".toList.contains c

/-- Exponents are made of digits, signs and points. -/
theorem isNumeralChar_of_exponent? {token : String} {x : Float} (h : exponent? token = some x) :
    ∀ c ∈ token.toList, isNumeralChar c := by
  obtain ⟨n, rfl⟩ := isSome_exponent?_iff.1 (Option.isSome_of_eq_some h)
  intro c hc
  rw [Numeral.text, String.toList_ofList] at hc
  rcases n.isDigit_or_eq_of_mem_characters hc with hdigit | rfl | rfl | rfl
  · simp [isNumeralChar, hdigit]
  · rfl
  · rfl
  · rfl

/-- Exponents are clean tokens. -/
theorem isClean_of_exponent? {token : String} {x : Float} (h : exponent? token = some x) :
    Split.IsClean token := by
  have hchar : ∀ c ∈ token.toList, Split.isSeparator c = false ∧ Text.isBlank c = false := by
    intro c hc
    have hc := isNumeralChar_of_exponent? h c hc
    rw [isNumeralChar, Bool.or_eq_true] at hc
    rcases hc with hdigit | hmark
    · have htext : Number.isTextChar c := by simp [Number.isTextChar, hdigit]
      exact ⟨isSeparator_of_isTextChar htext, isBlank_of_isTextChar htext⟩
    · have hall : "+-.".toList.all fun c ↦ !Split.isSeparator c && !Text.isBlank c := by decide
      simpa using List.all_eq_true.1 hall c (by simpa using hmark)
  exact ⟨fun c hc ↦ (hchar c hc).1, Text.trim_eq_self fun c hc ↦ (hchar c hc).2⟩

/-! ### Powers of base units -/

namespace Signature

/-- A unit of one dimension stores one exponent. -/
theorem entry_of (d e : Dimension) : (of d).entry e = if e = d then some 1.0 else none := by
  cases d <;> cases e <;> decide +kernel

/-- A power is the unit once, and then its power less one. -/
theorem get_of_power (d e : Dimension) (x : Float) :
    (of d + (of d).scaled (x - 1.0) - empty : Signature).get e =
      if e = d then 1.0 + (x - 1.0) else 0.0 := by
  rw [get, entry_subtract, entry_empty]
  simp only [entry_merge, entry_scaled]
  by_cases he : e = d
  · have hentry : (of d).entry e = some 1.0 := by rw [entry_of, if_pos he]
    rw [hentry, if_pos he, get_of_entry_some hentry]
    simp only [Option.map_some, Number.one_mul_eq_self, Option.getD_some]
  · have hentry : (of d).entry e = none := by rw [entry_of, if_neg he]
    rw [hentry, if_neg he]
    rfl

end Signature

namespace Catalog

open Number (rational?)

/-- The symbol of a base unit resolves to its dimension and scale. -/
theorem resolveUnit_baseUnit :
    ∀ u ∈ standard.baseUnits, standard.resolveUnit u.symbol = .ok ⟨.of u.dimension, u.scale⟩ := by
  have hall : standard.baseUnits.all fun u ↦
      standard.resolveUnit u.symbol = .ok ⟨.of u.dimension, u.scale⟩ := by decide +kernel
  intro u hu
  simpa using List.all_eq_true.1 hall u hu

/-- The symbol of a base unit is a token. -/
theorem isSymbol_baseUnit : ∀ u ∈ standard.baseUnits, IsSymbol u.symbol := by
  have hall : standard.baseUnits.all fun u ↦
      Expression.ofString u.symbol = .ok ⟨[⟨u.symbol, none⟩], []⟩ := by decide +kernel
  intro u hu
  have hread := List.all_eq_true.1 hall u hu
  exact Expression.isReadable_of_ofString (of_decide_eq_true hread) ⟨u.symbol, none⟩
    List.mem_cons_self

variable {u : BaseUnit} {token : String} {x : Float}

/-- A power of a base unit resolves, to its dimension once and then to the power less one. This
is the one place where the resolver is looked at; what follows is about doubles. -/
theorem exists_resolve_power (hu : u ∈ standard.baseUnits) (hx : exponent? token = some x) :
    ∃ r, standard.resolve (u.symbol ++ "**" ++ token) = .ok r ∧
      r.signature =
        (.of u.dimension + (Signature.of u.dimension).scaled (x - 1.0) - .empty : Signature) := by
  have hread := Expression.ofString_power (isSymbol_baseUnit u hu) (isClean_of_exponent? hx) hx
  have hterms : resolveTerms standard.resolveUnit .unity [⟨u.symbol, some x⟩] =
      .ok ((Resolution.unity.times ⟨.of u.dimension, u.scale⟩).raise
        ⟨.of u.dimension, u.scale⟩ x) := by
    rw [resolveTerms, resolveUnit_baseUnit u hu]
    rfl
  have hscale : (Resolution.unity.scale == 0.0) = false := by decide +kernel
  refine ⟨_, (resolveText_eq_ok_iff_of_ofString hread).2
    ⟨_, .unity, hterms, rfl, combine_eq_ok_iff.2 ⟨hscale, rfl⟩⟩, ?_⟩
  rw [Resolution.unity_times_of]
  rfl

/-- **A literal is the exponent, up to one unit taken away and added again.** A base unit of the
standard catalog to the power of any finite literal resolves. Its own dimension has the literal
less one, plus one, for an exponent, and the others have none. That is the literal exactly for
the literals that are exact, among them all integers of 53 bits and all numbers from a half to
`2 ^ 53`. Otherwise it is off, by a small fraction of one more than its magnitude at most.

The scale of the power plays no part in this, and may be zero or an infinity. -/
theorem resolve_literal (hu : u ∈ standard.baseUnits) (hx : exponent? token = some x)
    (hfinite : x.isFinite) :
    ∃ r, standard.resolve (u.symbol ++ "**" ++ token) = .ok r ∧
      (∀ d ≠ u.dimension, r.signature.get d = 0.0) ∧
      r.signature.get u.dimension = 1.0 + (x - 1.0) ∧
      ∃ p q, rational? x = some p ∧ rational? (r.signature.get u.dimension) = some q ∧
        |q - p| ≤ 2 ^ (-52 : ℤ) * (|p| + 1) ∧ (q = p ↔ Number.IsExactExponent p) ∧
        (1 / 2 ≤ p → p ≤ 2 ^ 53 → q = p) ∧ ∀ n : ℤ, p = n → |n| < 2 ^ 53 → q = p := by
  obtain ⟨r, hr, hsignature⟩ := exists_resolve_power hu hx
  obtain ⟨p, hp⟩ := Number.exists_rational?_of_isFinite hfinite
  obtain ⟨q, hq, herror, hexact⟩ := Number.exists_one_add_sub_one hp
  have hget : r.signature.get u.dimension = 1.0 + (x - 1.0) := by
    rw [hsignature, Signature.get_of_power, if_pos rfl]
  -- the other dimensions, numbers from a half on, and integers
  refine ⟨r, hr, fun d hd ↦ ?_, hget, p, q, hp, by rw [hget, hq], herror, hexact, ?_, ?_⟩
  · rw [hsignature, Signature.get_of_power, if_neg hd]
  · intro hlow hhigh
    exact hexact.2 (.inl (Number.representable_sub_one (Number.representable_of_rational? hp)
      hlow hhigh))
  · rintro n rfl hn
    exact hexact.2 (.inl (Number.representable_int_sub_one hn))

/-- A foot to the power of minus two. -/
theorem resolve_literal_foot :
    exponent? "-2" = some (Decimal.toFloat ⟨true, 2, 0⟩) ∧
    ∃ r, standard.resolve "ft**-2" = .ok r ∧ r.signature.get .mass = 0.0 ∧
      rational? (r.signature.get .length) = some (-2) := by
  have hx : exponent? "-2" = some (Decimal.toFloat ⟨true, 2, 0⟩) := by decide +kernel
  obtain ⟨r, hr, hothers, -, p, q, hp, hq, -, -, -, hint⟩ := resolve_literal
    (u := ⟨"ft", 0.3048, .length⟩) (by simp [standard, standardBaseUnits]) hx (by decide +kernel)
  have hvalue := (Decimal.rational?_toFloat_whole (n := 2) (by norm_num)).2
  obtain rfl : p = -2 := by simpa using hp.symm.trans hvalue
  obtain rfl := hint (-2) (by norm_num) (by norm_num)
  exact ⟨hx, r, hr, hothers .mass (by decide), hq⟩

/-- A tenth is not exact, and neither is an even integer of 54 bits. -/
theorem not_resolve_literal :
    (exponent? "0.1" = some 0.1 ∧ (0.1 : Float).isFinite ∧
      ∃ r, standard.resolve "m**0.1" = .ok r ∧ (r.signature.get .length == 0.1) = false) ∧
    exponent? "9007199254740994" = some 9007199254740994.0 ∧
      ∃ r, standard.resolve "m**9007199254740994" = .ok r ∧
        r.signature.get .length = 9007199254740992.0 := by
  have htenth : (standard.resolve "m**0.1").toOption.any
      fun r ↦ !(r.signature.get .length == 0.1) := by decide +kernel
  have heven : (standard.resolve "m**9007199254740994").toOption.any
      fun r ↦ r.signature.get .length = 9007199254740992.0 := by decide +kernel
  simp only [Option.any_eq_true, toOption_eq_some_iff, Bool.not_eq_true', decide_eq_true_eq]
    at htenth heven
  exact ⟨⟨by decide +kernel, by decide +kernel, htenth⟩, by decide +kernel, heven⟩

end Catalog

end DimensionalAnalysis
