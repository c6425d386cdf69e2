import DimensionalAnalysis.Proofs.Number.Exact

/-!
# The closest double

`Nearest` rounds at the last place of a value. To a reader this says that no double is closer to
the value than the one it is rounded to, that of two equally close ones the even one is taken,
and that infinities stand for values beyond the largest double (`Nearest.isClosest`). Conversely
the closest double is the one the value is rounded to (`IsClosest.eq`).

Most doubles are multiples of the last place of the value, and for them this is a statement on
integers. The others are those of a smaller binade. They lie on the far side of the power of two
below the value, which is such a multiple and closer than they are.

Two doubles can tie only where both are multiples of the last place
(`RoundsEven.exists_of_tie`). That is why evenness of the significand, which each double has in
its own last place, agrees with evenness of the multiple (`hasEvenSignificand_of_even`,
`even_of_hasEvenSignificand`).

A value does not say which of the zeros it is rounded to. With the sign (`HasSign`) it
determines the double (`eq_of_nearest`).
-/

namespace DimensionalAnalysis.Number

open Float.Model (Format UnpackedFloat)
open Float.Model.UnpackedFloat

variable {v r q : ℚ} {n : ℤ} {u : UnpackedFloat}

/-! ### Ties -/

/-- The significand is even. That of a zero is. -/
def HasEvenSignificand : UnpackedFloat → Prop
  | .finite _ m _ _ => Even m
  | _ => True

/-- Significands have 53 bits before they are carried over. -/
theorem RoundsEven.natAbs_le (h : RoundsEven (v / 2 ^ spacing v) n) : n.natAbs ≤ 2 ^ 53 := by
  have hunit := two_zpow_pos (spacing v)
  have hbound := abs_lt_two_zpow_spacing v
  have hhigh : n ≤ 2 ^ 53 := h.le_of_ge (by
    rw [div_le_iff₀ hunit]
    exact_mod_cast (le_abs_self v).trans hbound.le)
  have hlow : -n ≤ 2 ^ 53 := h.neg.le_of_ge (by
    rw [← neg_div, div_le_iff₀ hunit]
    exact_mod_cast (neg_le_abs v).trans hbound.le)
  omega

/-- Of a multiple of a place and the same value in another one, the signs agree and the
magnitudes do. -/
theorem natAbs_mul_of_eq {s : Sign} {m : ℕ} {e j : ℤ} (hm : 0 < m)
    (h : (n : ℚ) * 2 ^ j = signFactor s * (m * 2 ^ e)) : (m : ℚ) * 2 ^ e = n.natAbs * 2 ^ j := by
  have habs := congrArg (|·|) h.symm
  rwa [abs_signFactor_mul (mul_two_zpow_pos hm e).le, abs_mul, abs_of_pos (two_zpow_pos j),
    ← Int.cast_abs, Int.abs_eq_natAbs, Int.cast_natCast] at habs

/-- A multiple of a last place by an even integer has an even significand, in its own last place
too. -/
theorem hasEvenSignificand_of_even {j : ℤ} (hu : IsCanonical u) (hn : n.natAbs ≤ 2 ^ 53)
    (hj : -1074 ≤ j) (heven : Even n) (hvalue : valueOf u = some ((n : ℚ) * 2 ^ j)) :
    HasEvenSignificand u := by
  obtain ⟨s, rfl, -⟩ | ⟨s, m, e, hm, rfl, heq⟩ := valueOf_cases hvalue
  · trivial
  have heven : Even n.natAbs := Int.natAbs_even.2 heven
  have habs := natAbs_mul_of_eq hm heq
  show Even m
  rcases le_or_gt e j with hle | hlt
  · rw [eq_mul_two_pow habs hle]
    exact heven.mul_right _
  · -- the significand was carried over to the next power of two
    have hdouble : 2 * m ≤ n.natAbs := by
      obtain ⟨k, hk⟩ : ∃ k : ℕ, (e - j).toNat = k + 1 := ⟨(e - j).toNat - 1, by omega⟩
      rw [eq_mul_two_pow habs.symm hlt.le, hk, pow_succ]
      have := Nat.le_mul_of_pos_right m (Nat.two_pow_pos k)
      linarith
    have hnormal := hu.normal.resolve_right (by omega)
    rw [show m = 2 ^ 52 by omega]
    decide

/-- A double with an even significand is an even multiple of the last places of its binade. -/
theorem even_of_hasEvenSignificand {j : ℤ} (hu : IsCanonical u) (heven : HasEvenSignificand u)
    (hvalue : valueOf u = some ((n : ℚ) * 2 ^ j))
    (hlarge : 2 ^ (52 : ℤ) * 2 ^ j ≤ |(n : ℚ) * 2 ^ j| ∨ j = -1074) : Even n := by
  have hunit := two_zpow_pos j
  obtain ⟨s, rfl, heq⟩ | ⟨s, m, e, hm, rfl, heq⟩ := valueOf_cases hvalue
  · have hzero : (n : ℚ) = 0 := (mul_eq_zero.1 heq).resolve_right hunit.ne'
    rw [show n = 0 by exact_mod_cast hzero]
    exact Even.zero
  have heven : Even m := heven
  have habs := natAbs_mul_of_eq hm heq
  have hle : j ≤ e := by
    rcases hlarge with hlarge | rfl
    · by_contra hlt
      rw [heq, abs_signFactor_mul (mul_two_zpow_pos hm e).le, ← zpow_add₀ (by norm_num)] at hlarge
      have hupper : (m : ℚ) * 2 ^ e < 2 ^ (53 : ℤ) * 2 ^ e :=
        mul_lt_mul_of_pos_right (by exact_mod_cast hu.lt) (two_zpow_pos e)
      rw [← zpow_add₀ (by norm_num)] at hupper
      exact absurd (hlarge.trans_lt hupper)
        (not_lt.2 (zpow_le_zpow_right₀ (by norm_num) (by omega)))
    · exact hu.minExponent_le
  rw [← Int.natAbs_even, eq_mul_two_pow habs.symm hle]
  exact heven.mul_right _

/-! ### Other doubles -/

/-- A double is a multiple of the last place of a value, or it is of a smaller binade. -/
theorem Representable.eq_mul_or_lt (hq : Representable q) (v : ℚ) :
    (∃ k : ℤ, q = k * 2 ^ spacing v) ∧
        (2 ^ (52 : ℤ) * 2 ^ spacing v ≤ |q| ∨ spacing v = -1074) ∨
      -1074 < spacing v ∧ |q| < 2 ^ (52 : ℤ) * 2 ^ spacing v := by
  rcases le_or_gt (2 ^ (52 : ℤ) * 2 ^ spacing v) |q| with hle | hlt
  · refine .inl ⟨hq.exists_int_mul_of_le ?_, .inl hle⟩
    rwa [add_comm, zpow_add₀ (by norm_num)]
  · rcases (minExponent_le_spacing v).eq_or_lt with hs | hs
    · obtain ⟨k, hk⟩ := hq.exists_int_mul_spacing
      refine .inl ⟨?_, .inr hs.symm⟩
      rw [hk, ← hs]
      exact exists_int_mul_two_zpow k (minExponent_le_spacing q)
    · exact .inr ⟨hs, hlt⟩

/-- A double of a smaller binade is farther away. -/
theorem RoundsEven.abs_mul_sub_lt (h : RoundsEven (v / 2 ^ spacing v) n) (hv : v ≠ 0)
    (hs : -1074 < spacing v) (hq : |q| < 2 ^ (52 : ℤ) * 2 ^ spacing v) :
    |(n : ℚ) * 2 ^ spacing v - v| < |q - v| := by
  have hbinade := two_zpow_spacing_le hv hs
  obtain ⟨s, hsign⟩ := exists_eq_signFactor_mul_abs v
  have hpower : ((s.apply (2 ^ 52) : ℤ) : ℚ) * 2 ^ spacing v - v =
      signFactor s * (2 ^ (52 : ℤ) * 2 ^ spacing v - |v|) := by
    rw [cast_apply, mul_sub, ← hsign, mul_assoc]
    norm_num
  calc |(n : ℚ) * 2 ^ spacing v - v|
      ≤ |((s.apply (2 ^ 52) : ℤ) : ℚ) * 2 ^ spacing v - v| := by
        rw [abs_mul_two_zpow_sub, abs_mul_two_zpow_sub]
        exact mul_le_mul_of_nonneg_right (h.abs_sub_le_abs_sub _) (two_zpow_pos _).le
    _ = |v| - 2 ^ (52 : ℤ) * 2 ^ spacing v := by
        rw [hpower, abs_mul, abs_signFactor, one_mul, abs_sub_comm,
          abs_of_nonneg (sub_nonneg.2 hbinade)]
    _ < |v| - |q| := sub_lt_sub_left hq _
    _ ≤ |q - v| := by
        rw [abs_sub_comm]
        exact abs_sub_abs_le_abs_sub v q

/-- No double is closer. -/
theorem RoundsEven.abs_mul_sub_le_abs_sub (h : RoundsEven (v / 2 ^ spacing v) n)
    (hq : Representable q) : |(n : ℚ) * 2 ^ spacing v - v| ≤ |q - v| := by
  rcases eq_or_ne v 0 with rfl | hv
  · rw [zero_div] at h
    rw [h.unique (RoundsEven.intCast 0), Int.cast_zero, zero_mul, sub_zero, abs_zero]
    exact abs_nonneg _
  rcases hq.eq_mul_or_lt v with ⟨⟨k, rfl⟩, -⟩ | ⟨hs, hsmall⟩
  · rw [abs_mul_two_zpow_sub, abs_mul_two_zpow_sub]
    exact mul_le_mul_of_nonneg_right (h.abs_sub_le_abs_sub k) (two_zpow_pos _).le
  · exact (h.abs_mul_sub_lt hv hs hsmall).le

/-- Another double that is as close is a multiple of the last place as well. -/
theorem RoundsEven.exists_of_tie (h : RoundsEven (v / 2 ^ spacing v) n) (hq : Representable q)
    (hne : q ≠ n * 2 ^ spacing v) (htie : |q - v| = |(n : ℚ) * 2 ^ spacing v - v|) :
    ∃ k : ℤ, q = k * 2 ^ spacing v ∧ k ≠ n ∧
      |(k : ℚ) - v / 2 ^ spacing v| = |(n : ℚ) - v / 2 ^ spacing v| ∧
      (2 ^ (52 : ℤ) * 2 ^ spacing v ≤ |q| ∨ spacing v = -1074) := by
  have hv : v ≠ 0 := by
    rintro rfl
    rw [zero_div] at h
    rw [h.unique (RoundsEven.intCast 0), Int.cast_zero, zero_mul] at hne htie
    rw [sub_zero, sub_zero, abs_zero] at htie
    exact hne (abs_eq_zero.1 htie)
  rcases hq.eq_mul_or_lt v with ⟨⟨k, rfl⟩, hlarge⟩ | ⟨hs, hsmall⟩
  · rw [abs_mul_two_zpow_sub, abs_mul_two_zpow_sub] at htie
    exact ⟨k, rfl, fun heq ↦ hne (by rw [heq]), mul_right_cancel₀ (two_zpow_pos _).ne' htie, hlarge⟩
  · -- doubles of a smaller binade are farther away and do not tie
    exact absurd htie (h.abs_mul_sub_lt hv hs hsmall).ne'

/-- A value is rounded to a number exactly if it is below the middle between the largest double and
the next power of two. -/
theorem Nearest.isSome_valueOf_iff (h : Nearest v u) :
    (valueOf u).isSome ↔ |v| < 2 ^ (1024 : ℤ) - 2 ^ (970 : ℤ) := by
  constructor
  · rw [Option.isSome_iff_exists]
    rintro ⟨r, hr⟩
    obtain ⟨n, hn, ⟨-, hlt⟩ | ⟨s, rfl, -⟩⟩ := h
    · -- beyond that middle the value is rounded up to `2 ^ 1024`, the sign being put aside
      by_contra hle
      obtain ⟨s, hsign⟩ := exists_eq_signFactor_mul_abs v
      have habs : signFactor s * v = |v| := by
        conv_lhs => rw [hsign, ← mul_assoc, signFactor_mul_self, one_mul]
      have hsigned := hn.apply s
      rw [← mul_div_assoc, ← spacing_signFactor_mul s v, habs] at hsigned
      have hbeyond := hsigned.beyond_of_le (not_lt.1 hle)
      rw [← habs, cast_apply, spacing_signFactor_mul, mul_assoc] at hbeyond
      exact absurd (hbeyond.trans (signFactor_mul_le_abs s _)) (not_le.2 hlt)
    · simp [valueOf] at hr
  · intro hlt
    obtain ⟨r, hr, -⟩ := h.roundsTo.exists_valueOf hlt
    rw [hr]
    rfl

/-- No value is rounded to a NaN. -/
theorem Nearest.ne_notANumber (h : Nearest v u) : u ≠ .notANumber := by
  rintro rfl
  obtain ⟨n, -, ⟨hvalue, -⟩ | ⟨s, hs, -⟩⟩ := h
  · simp [valueOf] at hvalue
  · simp at hs

/-! ### Signs -/

/-- The form has the sign. A NaN has none and passes for either. -/
def HasSign (s : Sign) : UnpackedFloat → Prop
  | .zero t => t = s
  | .infinity t => t = s
  | .finite t _ _ _ => t = s
  | .notANumber => True

namespace HasSign

variable {s : Sign}

/-- The negative form has the opposite sign. -/
theorem neg (h : HasSign s u) : HasSign (-s) u.neg := by
  cases u with
  | zero t => exact congrArg (-·) h
  | infinity t => exact congrArg (-·) h
  | finite t m e hm => exact congrArg (-·) h
  | notANumber => trivial

/-- The sign field is the sign, whatever the other fields are. -/
theorem packComponents (s : Sign) (x : BitVec 11) (m : BitVec 52) :
    HasSign s (unpack Format.binary64 (UnpackedFloat.packComponents Format.binary64 s x m)) := by
  rw [unpack_packComponents]
  split_ifs <;> trivial

/-- Packing keeps the sign, also where it overflows. -/
theorem pack (h : HasSign s u) : HasSign s (Float.Model.pack u).unpack := by
  cases u with
  | zero t =>
    rw [unpack_pack (show IsCanonical (.zero t) from trivial)]
    exact h
  | infinity t =>
    rw [unpack_pack (show IsCanonical (.infinity t) from trivial)]
    exact h
  | notANumber => trivial
  | finite t m e hm =>
    obtain rfl : t = s := h
    show HasSign t (unpack Format.binary64 (UnpackedFloat.pack Format.binary64 (.finite t m e hm)))
    simp only [UnpackedFloat.pack]
    split_ifs <;> exact packComponents t _ _

/-- Rounding keeps the sign, also where nothing but a zero is left. -/
theorem roundWithAccuracy (s : Sign) (m : ℕ) (e : ℤ) (a : Accuracy) :
    HasSign s (UnpackedFloat.roundWithAccuracy Format.binary64 s m e a) := by
  simp only [UnpackedFloat.roundWithAccuracy]
  split_ifs <;> rfl

end HasSign

/-- What a form is worth and its sign determine it: the sign tells the zeros apart. -/
theorem eq_of_valueOf_of_hasSign {w : UnpackedFloat} {s : Sign} (hcu : IsCanonical u)
    (hcw : IsCanonical w) (hu : u ≠ .notANumber) (hw : w ≠ .notANumber)
    (hvalue : valueOf u = valueOf w) (hsu : HasSign s u) (hsw : HasSign s w) : u = w := by
  cases u with
  | notANumber => exact absurd rfl hu
  | infinity t =>
    cases w with
    | infinity t' => exact congrArg _ (hsu.trans hsw.symm)
    | notANumber => exact absurd rfl hw
    | zero t' => simp [valueOf] at hvalue
    | finite t' m e hm => simp [valueOf] at hvalue
  | zero t =>
    cases w with
    | zero t' => exact congrArg _ (hsu.trans hsw.symm)
    | infinity t' => simp [valueOf] at hvalue
    | notANumber => simp [valueOf] at hvalue
    | finite t' m e hm =>
      exact absurd (Option.some.inj hvalue).symm (signFactor_mul_ne_zero hm)
  | finite t m e hm =>
    exact eq_of_valueOf hcu hcw rfl hvalue.symm (signFactor_mul_ne_zero hm)

/-- A value and a sign determine the double. -/
theorem eq_of_nearest {x y : Float} {s : Sign} (hx : Nearest v x.toModel.unpack)
    (hy : Nearest v y.toModel.unpack) (hsx : HasSign s x.toModel.unpack)
    (hsy : HasSign s y.toModel.unpack) : x = y :=
  eq_of_unpack_eq (eq_of_valueOf_of_hasSign (canonical_unpack _) (canonical_unpack _)
    hx.ne_notANumber hy.ne_notANumber (hx.valueOf_unique hy) hsx hsy)

/-! ### Doubles closest to a value -/

/-- The double a value is rounded to, as a reader expects it: no NaN, an infinity only beyond
the largest double, and among the finite doubles one that no other is closer than. These are
conditions on the double and not on how it was computed. -/
structure IsClosest (v : ℚ) (x : Float) : Prop where
  isNaN_eq_false : x.isNaN = false
  /-- An infinity is for values beyond the largest double by half of its last place or more. -/
  isFinite_iff : x.isFinite ↔ |v| < 2 ^ (1024 : ℤ) - 2 ^ (970 : ℤ)
  /-- No double is closer. -/
  abs_sub_le : ∀ {y : Float} {r q : ℚ}, rational? x = some r → rational? y = some q →
    |r - v| ≤ |q - v|
  /-- Where another number is as close, the even one is taken. -/
  even_of_tie : ∀ {y : Float} {r q : ℚ}, rational? x = some r → rational? y = some q → q ≠ r →
    |q - v| = |r - v| → HasEvenSignificand x.toModel.unpack

/-- **Rounding to nearest finds the closest double.** -/
theorem Nearest.isClosest {x : Float} (h : Nearest v x.toModel.unpack) : IsClosest v x where
  isNaN_eq_false := by
    have hne := h.ne_notANumber
    show x.toModel.unpack.isNaN = false
    cases hu : x.toModel.unpack <;> simp_all [UnpackedFloat.isNaN]
  isFinite_iff := by
    rw [← isSome_rational?]
    exact h.isSome_valueOf_iff
  abs_sub_le hr hq := by
    obtain ⟨n, hn, rfl⟩ := h.exists_of_valueOf hr
    exact hn.abs_mul_sub_le_abs_sub (representable_of_rational? hq)
  even_of_tie hr hq hne htie := by
    obtain ⟨n, hn, rfl⟩ := h.exists_of_valueOf hr
    obtain ⟨k, -, hk, htie, -⟩ := hn.exists_of_tie (representable_of_rational? hq) hne htie
    exact hasEvenSignificand_of_even (canonical_unpack _) hn.natAbs_le (minExponent_le_spacing v)
      (hn.even_of_tie hk htie) hr

/-- The closest double is the rounded one: of two that are equally close, only one is even.

Both could only differ in a tie. The other double is then a multiple of the last place by an
even integer as well, and two even integers are not one apart. -/
theorem IsClosest.rational?_eq {x y : Float} (hy : IsClosest v y)
    (hx : Nearest v x.toModel.unpack) : rational? y = rational? x := by
  by_cases hlt : |v| < 2 ^ (1024 : ℤ) - 2 ^ (970 : ℤ)
  · obtain ⟨r, hr⟩ := exists_rational?_of_isFinite (hx.isClosest.isFinite_iff.2 hlt)
    obtain ⟨q, hq⟩ := exists_rational?_of_isFinite (hy.isFinite_iff.2 hlt)
    obtain ⟨n, hn, rfl⟩ := hx.exists_of_valueOf hr
    rw [hq, hr]
    by_contra hne
    have hne : q ≠ n * 2 ^ spacing v := fun heq ↦ hne (congrArg some heq)
    -- both are as close as can be, and so they tie; then both are multiples of the last place,
    -- and the even one is taken
    have htie : |q - v| = |(n : ℚ) * 2 ^ spacing v - v| :=
      le_antisymm (hy.abs_sub_le hq hr) (hx.isClosest.abs_sub_le hr hq)
    have hsignificand := hy.even_of_tie hq hr hne.symm htie.symm
    obtain ⟨k, rfl, hkn, hdistance, hlarge⟩ :=
      hn.exists_of_tie (representable_of_rational? hq) hne htie
    have heven : Even k := even_of_hasEvenSignificand (canonical_unpack _) hsignificand hq hlarge
    exact hkn ((hn.of_tie heven hdistance).unique hn)
  · have hnone : ∀ {z : Float}, IsClosest v z → rational? z = none := fun hz ↦ by
      rw [← Option.not_isSome_iff_eq_none, isSome_rational?, hz.isFinite_iff]
      exact hlt
    rw [hnone hy, hnone hx.isClosest]

/-- **The closest double is unique**, once its sign is known. -/
theorem IsClosest.eq {x y : Float} {s : Sign} (hy : IsClosest v y) (hx : Nearest v x.toModel.unpack)
    (hsy : HasSign s y.toModel.unpack) (hsx : HasSign s x.toModel.unpack) : y = x := by
  refine eq_of_unpack_eq (eq_of_valueOf_of_hasSign (canonical_unpack _) (canonical_unpack _)
    ?_ hx.ne_notANumber (hy.rational?_eq hx) hsy hsx)
  intro hnan
  have hfalse : y.toModel.unpack.isNaN = false := hy.isNaN_eq_false
  rw [hnan] at hfalse
  simp [UnpackedFloat.isNaN] at hfalse

end DimensionalAnalysis.Number
