import DimensionalAnalysis.Number.Arithmetic
import DimensionalAnalysis.Proofs.Number.Exact

/-!
# The order of doubles

The order of two doubles is core's comparison of their unpacked forms, and finite doubles are in
the order of their values (`order?_of_rational?`). Exchanging two doubles reverses their order, and
where there is none there is none the other way round (`order?_swap`). That holds of all doubles.

A double and a result that was rounded are in the order of the double and the exact value, provided
that the two are further apart than rounding can move the value (`order?_of_roundsTo`). A result
that overflowed to an infinity is no exception, as the value itself was then beyond all doubles.

Nor does rounding make a difference of two doubles zero: the difference compares equal to zero
exactly if the doubles have one value (`sub_beq_zero_iff`). An infinity minus itself is a NaN.

Where only the size of a result matters and not its value, a double is **within** a bound
(`Within`), and bounds add and multiply up to what one rounding adds.
-/

namespace DimensionalAnalysis.Number

open Float.Model (Format UnpackedFloat)
open Float.Model.UnpackedFloat

variable {x y z : Float} {p q v : ℚ}

/-! ### Exchanging the operands -/

/-- Core's comparison of two forms and that of the exchanged forms, by cases on both. Only two
finite forms are compared by anything but their kinds and signs. -/
theorem unpacked_compare_swap (u w : UnpackedFloat) :
    w.compare u = (u.compare w).map Ordering.swap := by
  have hsign : ∀ s t : Sign, compare t s = (compare s t).swap := by
    intro s t
    cases s <;> cases t <;> rfl
  have hmagnitude : ∀ (m n : ℕ) (e f : ℤ), (compare f e).then (compare n m) =
      ((compare e f).then (compare m n)).swap := by
    intro m n e f
    rw [Ordering.swap_then, Int.compare_swap, Nat.compare_swap]
  cases u with
  | notANumber => cases w <;> rfl
  | infinity s =>
    cases w with
    | infinity t => exact congrArg some (hsign s t)
    | _ => cases s <;> rfl
  | zero s =>
    cases w with
    | infinity t => cases t <;> rfl
    | finite t n f hn => cases t <;> rfl
    | _ => rfl
  | finite s m e hm =>
    cases w with
    | infinity t => cases t <;> cases s <;> rfl
    | finite t n f hn =>
      cases s <;> cases t <;> first
        | rfl
        | exact congrArg some (hmagnitude m n e f)
        | exact congrArg (some ·.swap) (hmagnitude m n e f)
    | _ => cases s <;> rfl

/-- The order is read off one comparison. -/
theorem order?_eq_compare (x y : Float) :
    order? x y = x.toModel.unpack.compare y.toModel.unpack := by
  have hless : ∀ a b : Float, a < b ↔ a.toModel.unpack.compare b.toModel.unpack = some .lt :=
    fun a b ↦ decide_eq_true_iff.trans
      (beq_iff_eq (a := a.toModel.unpack.compare b.toModel.unpack))
  have hequal : x == y ↔ x.toModel.unpack.compare y.toModel.unpack = some .eq :=
    beq_iff_eq (a := x.toModel.unpack.compare y.toModel.unpack)
  rw [order?]
  simp only [hless, hequal, unpacked_compare_swap x.toModel.unpack y.toModel.unpack]
  obtain - | ⟨_ | _ | _⟩ := x.toModel.unpack.compare y.toModel.unpack <;> rfl

/-- Exchanging two numbers reverses their order. -/
theorem order?_swap (x y : Float) : order? y x = (order? x y).map Ordering.swap := by
  rw [order?_eq_compare, order?_eq_compare, unpacked_compare_swap]

/-- Equality is one of the orders. -/
theorem beq_eq_order? (x y : Float) : (x == y) = (order? x y == some .eq) := by
  rw [order?_eq_compare]
  rfl

/-! ### The order of values -/

/-- Finite doubles are in the order of their values. -/
theorem order?_of_rational? (hx : rational? x = some p) (hy : rational? y = some q) :
    order? x y = some (compare p q) := by
  rw [order?_eq_compare]
  exact compare_eq_some (canonical_unpack x.toModel) (canonical_unpack y.toModel) hx hy

/-- To be smaller is one of the orders. -/
theorem lt_iff_order? (x y : Float) : x < y ↔ order? x y = some .lt := by
  rw [order?]
  by_cases h : x < y
  · simp [h]
  · rw [if_neg h]
    split <;> [skip; split] <;> simp [h]

/-- Finite doubles are smaller when their values are. -/
theorem lt_iff (hx : rational? x = some p) (hy : rational? y = some q) : x < y ↔ p < q := by
  rw [lt_iff_order?, order?_of_rational? hx hy, Option.some.injEq, compare_lt_iff_lt]

/-- A number compares with an infinity as zero does with the infinity's sign. -/
theorem compare_infinity {u : UnpackedFloat} (hu : valueOf u = some p) (s : Sign) :
    u.compare (.infinity s) = some (compare 0 (signFactor s)) := by
  have hpositive : compare (0 : ℚ) (signFactor .positive) = .lt :=
    compare_lt_iff_lt.2 one_pos
  have hnegative : compare (0 : ℚ) (signFactor .negative) = .gt :=
    compare_gt_iff_gt.2 (neg_neg_of_pos one_pos)
  obtain ⟨t, rfl, -⟩ | ⟨t, m, e, hm, rfl, -⟩ := valueOf_cases hu
  · cases s with
    | positive => exact congrArg some hpositive.symm
    | negative => exact congrArg some hnegative.symm
  · cases s with
    | positive => cases t <;> exact congrArg some hpositive.symm
    | negative => cases t <;> exact congrArg some hnegative.symm

/-- A value that is nearer to another one than a third is on the same side of the third. -/
theorem compare_eq_compare_of_near {r : ℚ} (h : |r - v| < |p - v|) :
    compare p r = compare p v := by
  rcases lt_trichotomy p v with hlt | rfl | hgt
  · rw [abs_of_neg (sub_neg.2 hlt), neg_sub] at h
    rw [compare_lt_iff_lt.2 hlt, compare_lt_iff_lt.2 (by linarith [(abs_lt.1 h).1])]
  · rw [sub_self, abs_zero] at h
    exact absurd h (abs_nonneg _).not_gt
  · rw [abs_of_pos (sub_pos.2 hgt)] at h
    rw [compare_gt_iff_gt.2 hgt, compare_gt_iff_gt.2 (by linarith [(abs_lt.1 h).2])]

/-- A number and a rounded value are in the order of the number and the exact value, if these
two are further apart than rounding can move the value.

This is how comparisons of computed values are settled without knowing what they were rounded
to. The margin is the whole error of rounding, a fraction of the exact value or the smallest
double, and an infinity is on the side on which the value was. -/
theorem order?_of_roundsTo (hx : rational? x = some p) (hz : RoundsTo v z.toModel.unpack)
    (hfar : max (2 ^ (-52 : ℤ) * |v|) (2 ^ (-1074 : ℤ)) < |p - v|) :
    order? x z = some (compare p v) := by
  obtain ⟨r, hr, hnear⟩ | ⟨s, hs, hbeyond⟩ := hz
  · rw [order?_of_rational? hx hr, compare_eq_compare_of_near (hnear.trans_lt hfar)]
  · rw [order?_eq_compare, hs, compare_infinity hx]
    -- the value is beyond the largest double, on the side of the infinity
    have hlarge : |p| < 2 ^ (1024 : ℤ) - 2 ^ (970 : ℤ) := by
      refine (representable_of_rational? hx).abs_le.trans_lt (sub_lt_sub_left ?_ _)
      exact zpow_lt_zpow_right₀ (by norm_num) (by norm_num)
    have hbetween := abs_lt.1 (hlarge.trans_le hbeyond)
    cases s with
    | positive =>
      rw [signFactor, one_mul] at hbetween
      rw [signFactor, compare_lt_iff_lt.2 one_pos, compare_lt_iff_lt.2 hbetween.2]
    | negative =>
      rw [signFactor, neg_one_mul, neg_neg] at hbetween
      rw [signFactor, compare_gt_iff_gt.2 (neg_neg_of_pos one_pos),
        compare_gt_iff_gt.2 hbetween.1]

/-! ### Differences that are zero -/

/-- An unpacked sum with a summand that is no number is none either. -/
theorem valueOf_add_eq_none {u w : UnpackedFloat} (h : valueOf u = none ∨ valueOf w = none) :
    valueOf (Float.Model.pack (UnpackedFloat.add Format.binary64 u w)).unpack = none := by
  have hlost : IsCanonical (UnpackedFloat.add Format.binary64 u w) ∧
      valueOf (UnpackedFloat.add Format.binary64 u w) = none := by
    cases u with
    | notANumber => exact ⟨trivial, rfl⟩
    | infinity s =>
      cases w with
      | infinity t => cases s <;> cases t <;> exact ⟨trivial, rfl⟩
      | _ => exact ⟨trivial, rfl⟩
    | zero s =>
      cases w with
      | notANumber => exact ⟨trivial, rfl⟩
      | infinity t => exact ⟨trivial, rfl⟩
      | _ => simp [valueOf] at h
    | finite s m e hm =>
      cases w with
      | notANumber => exact ⟨trivial, rfl⟩
      | infinity t => exact ⟨trivial, rfl⟩
      | _ => simp [valueOf] at h
  rw [unpack_pack hlost.1, hlost.2]

/-- A sum is a number only if both summands are. -/
theorem isSome_rational?_of_add (h : (rational? (x + y)).isSome) :
    (rational? x).isSome ∧ (rational? y).isSome := by
  rw [← Option.ne_none_iff_isSome] at h
  rw [← Option.ne_none_iff_isSome, ← Option.ne_none_iff_isSome]
  exact ⟨fun hx ↦ h (valueOf_add_eq_none (.inl hx)), fun hy ↦ h (valueOf_add_eq_none (.inr hy))⟩

/-- Taking away zero does not change a value, nor that there is none. -/
theorem rational?_sub_zero (x : Float) : rational? (x - 0.0) = rational? x := by
  rcases hx : rational? x with - | p
  · rw [sub_eq_add_neg]
    exact valueOf_add_eq_none (.inl hx)
  · have hdifference := rational?_sub hx rational?_zero
    rw [sub_zero] at hdifference
    exact hdifference (representable_of_rational? hx)

/-- Doubles are multiples of the smallest one. -/
theorem Representable.exists_int (h : Representable p) : ∃ n : ℤ, p = n * 2 ^ (-1074 : ℤ) := by
  obtain ⟨n, e, -, hlow, -, rfl⟩ := h
  exact exists_int_mul_two_zpow n hlow

/-- A double other than zero is as large as the smallest one. -/
theorem le_abs_of_rational? (hx : rational? x = some p) (hp : p ≠ 0) :
    2 ^ (-1074 : ℤ) ≤ |p| := by
  obtain ⟨n, rfl⟩ := (representable_of_rational? hx).exists_int
  have hn : n ≠ 0 := by
    rintro rfl
    exact hp (by rw [Int.cast_zero, zero_mul])
  have hone : (1 : ℚ) ≤ |(n : ℚ)| := by exact_mod_cast Int.one_le_abs hn
  rw [abs_mul, abs_of_pos (two_zpow_pos (-1074))]
  exact le_mul_of_one_le_left (two_zpow_pos (-1074)).le hone

/-- Two doubles that are no further apart than the smallest double have a difference that is one. -/
theorem representable_sub_of_near (hp : Representable p) (hq : Representable q)
    (h : |p - q| ≤ 2 ^ (-1074 : ℤ)) : Representable (p - q) := by
  obtain ⟨m, rfl⟩ := hp.exists_int
  obtain ⟨n, rfl⟩ := hq.exists_int
  have hunit := two_zpow_pos (-1074)
  rw [← sub_mul, ← Int.cast_sub] at h ⊢
  rw [abs_mul, abs_of_pos hunit, mul_le_iff_le_one_left hunit] at h
  have hone : |m - n| ≤ 1 := by exact_mod_cast h
  refine ⟨m - n, -1074, ?_, le_rfl, by norm_num, rfl⟩
  rw [Int.abs_eq_natAbs] at hone
  omega

/-- Rounding makes no difference zero: a difference is zero exactly if the doubles have one
value.

Doubles are multiples of the smallest one, so that two different ones are at least that far
apart. A difference that small is itself a double and not rounded. -/
theorem sub_beq_zero_iff :
    x - y == 0.0 ↔ ∃ p, rational? x = some p ∧ rational? y = some p := by
  constructor
  · intro hzero
    obtain ⟨r, hr⟩ := Option.isSome_iff_exists.1 (isSome_rational?_of_beq rational?_zero hzero)
    obtain rfl := (beq_iff hr rational?_zero).1 hzero
    obtain ⟨hx, hy⟩ := isSome_rational?_of_add (x := x) (y := -y) (by
      rw [← sub_eq_add_neg, hr]
      rfl)
    rw [isSome_rational?_neg] at hy
    obtain ⟨p, hx⟩ := Option.isSome_iff_exists.1 hx
    obtain ⟨q, hy⟩ := Option.isSome_iff_exists.1 hy
    refine ⟨p, hx, ?_⟩
    obtain ⟨r, hvalue, hnear⟩ | ⟨s, hs, -⟩ := (nearest_sub hx hy).roundsTo
    · -- The rounded difference is zero, and rounding has moved it by a small fraction of itself
      -- or by the smallest double at most. In the first case it was zero before, in the second it
      -- was exact.
      obtain rfl : r = 0 := Option.some.inj (hvalue.symm.trans hr)
      rw [zero_sub, abs_neg, le_max_iff] at hnear
      obtain hfraction | hsmall := hnear
      · have hle : |p - q| ≤ 0 := by
          norm_num at hfraction
          linarith
        rw [hy, sub_eq_zero.1 (abs_nonpos_iff.1 hle)]
      · have hexact := rational?_sub hx hy (representable_sub_of_near
          (representable_of_rational? hx) (representable_of_rational? hy) hsmall)
        rw [hr, Option.some.injEq] at hexact
        rw [hy, sub_eq_zero.1 hexact.symm]
    · rw [rational?, hs] at hr
      exact absurd hr (by simp [valueOf])
  · rintro ⟨p, hx, hy⟩
    have hexact := rational?_sub hx hy (by rw [sub_self]; exact representable_zero)
    exact (beq_iff hexact rational?_zero).2 (sub_self p)

/-! ### Magnitudes -/

/-- The double is a number of at most this magnitude. -/
def Within (x : Float) (b : ℚ) : Prop :=
  ∃ p, rational? x = some p ∧ |p| ≤ b

variable {a b c : ℚ}

/-- What leaves room for one rounding leaves room for none. -/
theorem le_of_rounded_le (hb : 0 ≤ b) (hle : (1 + 2 ^ (-52 : ℤ)) * b + 1 ≤ c) : b ≤ c := by
  have := mul_nonneg (two_zpow_pos (-52)).le hb
  linarith

namespace Within

/-- What is within a bound is a number. -/
theorem isSome (h : Within x a) : (rational? x).isSome := by
  obtain ⟨p, hx, -⟩ := h
  rw [hx]
  rfl

/-- Nothing is within a negative bound. -/
theorem nonneg (h : Within x a) : 0 ≤ a := by
  obtain ⟨p, -, hp⟩ := h
  exact (abs_nonneg p).trans hp

/-- What is within a bound is within any larger one. -/
theorem mono (h : Within x a) (hle : a ≤ b) : Within x b := by
  obtain ⟨p, hx, hp⟩ := h
  exact ⟨p, hx, hp.trans hle⟩

/-- Zero is within any bound. -/
theorem zero (hb : 0 ≤ b) : Within 0.0 b :=
  ⟨0, rational?_zero, by rwa [abs_zero]⟩

/-- What a value within a bound is rounded to is within a slightly larger one. -/
theorem of_roundsTo (h : RoundsTo v z.toModel.unpack) (hv : |v| ≤ b)
    (hle : (1 + 2 ^ (-52 : ℤ)) * b + 1 ≤ c) (hc : c ≤ 2 ^ (1023 : ℤ)) : Within z c := by
  have hunit := two_zpow_pos (-52)
  have hsmallest : (2 : ℚ) ^ (-1074 : ℤ) ≤ 1 := zpow_le_one_of_nonpos₀ (by norm_num) (by norm_num)
  have hnonneg : 0 ≤ b := (abs_nonneg v).trans hv
  -- the error is a fraction of the bound, or less than the one that the larger bound leaves
  -- room for
  have hmargin : 0 ≤ 2 ^ (-52 : ℤ) * b := mul_nonneg hunit.le hnonneg
  have hvc : |v| ≤ c := hv.trans (le_of_rounded_le hnonneg hle)
  obtain ⟨r, hr, hnear⟩ := h.exists_valueOf (hvc.trans_lt (hc.trans_lt two_zpow_lt_middle))
  refine ⟨r, hr, ?_⟩
  have herror : |r - v| ≤ 2 ^ (-52 : ℤ) * b + 1 := by
    refine hnear.trans (max_le ?_ ?_)
    · exact (mul_le_mul_of_nonneg_left hv hunit.le).trans (le_add_of_nonneg_right zero_le_one)
    · exact hsmallest.trans (le_add_of_nonneg_left hmargin)
  calc |r| = |r - v + v| := by rw [sub_add_cancel]
    _ ≤ |r - v| + |v| := abs_add_le _ _
    _ ≤ c := by linarith

/-- Bounds add, up to what one rounding adds to the sum. -/
theorem add (hx : Within x a) (hy : Within y b) (hle : (1 + 2 ^ (-52 : ℤ)) * (a + b) + 1 ≤ c)
    (hc : c ≤ 2 ^ (1023 : ℤ)) : Within (x + y) c := by
  obtain ⟨p, hx, hp⟩ := hx
  obtain ⟨q, hy, hq⟩ := hy
  exact of_roundsTo (roundsTo_add hx hy) ((abs_add_le p q).trans (add_le_add hp hq)) hle hc

/-- The negative is within the same bound. -/
theorem neg (hx : Within x a) : Within (-x) a := by
  obtain ⟨p, hx, hp⟩ := hx
  exact ⟨-p, rational?_neg hx, by rwa [abs_neg]⟩

/-- Bounds add for differences too. -/
theorem sub (hx : Within x a) (hy : Within y b) (hle : (1 + 2 ^ (-52 : ℤ)) * (a + b) + 1 ≤ c)
    (hc : c ≤ 2 ^ (1023 : ℤ)) : Within (x - y) c := by
  rw [sub_eq_add_neg]
  exact hx.add hy.neg hle hc

/-- Bounds multiply, up to what one rounding adds to the product. -/
theorem mul (hx : Within x a) (hy : Within y b) (hle : (1 + 2 ^ (-52 : ℤ)) * (a * b) + 1 ≤ c)
    (hc : c ≤ 2 ^ (1023 : ℤ)) : Within (x * y) c := by
  have ha := hx.nonneg
  obtain ⟨p, hx, hp⟩ := hx
  obtain ⟨q, hy, hq⟩ := hy
  refine of_roundsTo (roundsTo_mul hx hy) ?_ hle hc
  rw [abs_mul]
  exact mul_le_mul hp hq (abs_nonneg q) ha

end Within

end DimensionalAnalysis.Number
