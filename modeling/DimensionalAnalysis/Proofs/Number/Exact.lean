import DimensionalAnalysis.Proofs.Number.Nearest

/-!
# Doubles as rational numbers

A finite double is a rational number (`rational?`). Sums, differences, products and quotients
are the doubles nearest to the exact results (`nearest_add`, `nearest_div`). A result that is
itself a double is therefore not rounded: it is enough to know that it is representable, as are
for instance integers of at most 53 bits. A sum that is not representable is at least finite, as
long as it is within the range of doubles.

Doubles compare by their values (`beq_iff`), and are determined by them (`eq_of_rational?`) but
for the sign of a zero.

What has no value, the infinities and the NaN, is outside all of this. The laws that hold for
every double are proved on unpacked forms instead: exchanged operands (`add_swap`, `mul_swap`),
a sign drawn out of a product (`neg_mul_left`), subtraction as addition (`sub_eq_add_neg`) and
one as a factor (`mul_one_eq_self`).
-/

namespace DimensionalAnalysis.Number

open Float.Model (Format UnpackedFloat totalExponent)
open Float.Model.UnpackedFloat

/-- The rational number that a finite double is. Both zeros are the number zero, and infinities
and NaN are none. -/
def rational? (x : Float) : Option ℚ :=
  valueOf x.toModel.unpack

/-- The finite doubles are those that are numbers. -/
theorem isSome_rational? (x : Float) : (rational? x).isSome = x.isFinite := by
  have hfinite : x.isFinite = x.toModel.unpack.isFinite := rfl
  rw [hfinite, rational?]
  cases x.toModel.unpack <;> rfl

/-- A finite double has a value to speak of. -/
theorem exists_rational?_of_isFinite {x : Float} (h : x.isFinite) : ∃ q, rational? x = some q := by
  rw [← Option.isSome_iff_exists, isSome_rational?]
  exact h

/-! ### Operations -/

/-- A double that is packed from a canonical form has the value of that form. -/
theorem rational?_pack {u : UnpackedFloat} (h : IsCanonical u) :
    rational? (.ofModel (.pack u)) = valueOf u := by
  rw [rational?, unpack_pack h]

/-- Two significands over their common exponent add to the exact sum. This is where core aligns
the operands, by shifting the one with the larger exponent to the left. -/
theorem apply_add_apply_mul (s t : Sign) (m n : ℕ) (e f : ℤ) :
    ((s.apply ((m <<< (e - min e f).toNat : ℕ) : ℤ) +
      t.apply ((n <<< (f - min e f).toNat : ℕ) : ℤ) : ℤ) : ℚ) * 2 ^ min e f =
        signFactor s * (m * 2 ^ e) + signFactor t * (n * 2 ^ f) := by
  rw [← shiftLeft_mul_two_zpow m (min_le_left e f), ← shiftLeft_mul_two_zpow n (min_le_right e f),
    Int.cast_add, cast_apply, cast_apply, Int.cast_natCast, Int.cast_natCast]
  ring

/-- The product of two significands has all the bits that core aims for. -/
theorem le_targetExponent_mul {m n : ℕ} {e f : ℤ} (hm : Canonical m e) (hn : Canonical n f) :
    e + f ≤ Format.binary64.targetExponent (totalExponent (m * n) (e + f)) := by
  rw [binary64_targetExponent, totalExponent]
  -- One normal factor gives the product all of its bits. Two subnormal ones leave so few that
  -- the exponent is below the smallest one.
  have hlog : ∀ {a b : ℕ}, 2 ^ 52 ≤ a → 0 < b → 52 ≤ (a * b).log2 := fun {a b} ha hb ↦
    (Nat.le_log2 (Nat.mul_pos (by omega) hb).ne').2 (le_trans ha (Nat.le_mul_of_pos_right a hb))
  have hlow := hm.minExponent_le
  have hlow' := hn.minExponent_le
  rcases hm.normal with h | h
  · have := hlog h hn.pos
    omega
  · rcases hn.normal with h' | h'
    · have := hlog h' hm.pos
      rw [mul_comm] at this
      omega
    · omega

/-- A sum of unpacked forms is exact, or it is their exact sum after normalizing.

A zero among the operands gives back the other one. Otherwise the significands are aligned at
the smaller exponent and added as integers, and whatever rounding there is comes afterwards. -/
theorem add_cases {u v : UnpackedFloat} {p q : ℚ} (hcu : IsCanonical u) (hcv : IsCanonical v)
    (hu : valueOf u = some p) (hv : valueOf v = some q) :
    IsCanonical (UnpackedFloat.add Format.binary64 u v) ∧
        valueOf (UnpackedFloat.add Format.binary64 u v) = some (p + q) ∨
      ∃ n e : ℤ, (n : ℚ) * 2 ^ e = p + q ∧
        UnpackedFloat.add Format.binary64 u v = normalize Format.binary64 n e .positive := by
  -- Zeros are handled apart: core returns the other operand, or a zero with the sign of the
  -- two.
  obtain ⟨s, rfl, rfl⟩ | ⟨s, m, e, hm, rfl, rfl⟩ := valueOf_cases hu
  · rw [zero_add]
    obtain ⟨t, rfl, rfl⟩ | ⟨t, n, f, hn, rfl, rfl⟩ := valueOf_cases hv
    · cases s <;> cases t <;> exact .inl ⟨trivial, rfl⟩
    · exact .inl ⟨hcv, hv⟩
  · obtain ⟨t, rfl, rfl⟩ | ⟨t, n, f, hn, rfl, rfl⟩ := valueOf_cases hv
    · rw [add_zero]
      exact .inl ⟨hcu, hu⟩
    · -- the one case in which anything is added
      exact .inr ⟨_, _, apply_add_apply_mul s t m n e f, rfl⟩

/-- A product of unpacked forms is exact, or it is their exact product after rounding. -/
theorem mul_cases {u v : UnpackedFloat} {p q : ℚ} (hcu : IsCanonical u) (hcv : IsCanonical v)
    (hu : valueOf u = some p) (hv : valueOf v = some q) :
    IsCanonical (UnpackedFloat.mul Format.binary64 u v) ∧
        valueOf (UnpackedFloat.mul Format.binary64 u v) = some (p * q) ∨
      ∃ s m e, 0 < m ∧ e ≤ Format.binary64.targetExponent (totalExponent m e) ∧
        signFactor s * ((m : ℚ) * 2 ^ e) = p * q ∧
        UnpackedFloat.mul Format.binary64 u v =
          roundWithAccuracy Format.binary64 s m e .exact := by
  obtain ⟨s, rfl, rfl⟩ | ⟨s, m, e, hm, rfl, rfl⟩ := valueOf_cases hu
  · rw [zero_mul]
    obtain ⟨t, rfl, -⟩ | ⟨t, n, f, hn, rfl, -⟩ := valueOf_cases hv
    · exact .inl ⟨trivial, rfl⟩
    · exact .inl ⟨trivial, rfl⟩
  · obtain ⟨t, rfl, rfl⟩ | ⟨t, n, f, hn, rfl, rfl⟩ := valueOf_cases hv
    · rw [mul_zero]
      exact .inl ⟨trivial, rfl⟩
    · refine .inr ⟨s * t, m * n, e + f, Nat.mul_pos hm hn, le_targetExponent_mul hcu hcv, ?_, rfl⟩
      rw [signFactor_mul, zpow_add₀ (by norm_num)]
      push_cast
      ring

section Operations

variable {x y : Float} {p q : ℚ}

/-- A sum is the double nearest to the exact sum. -/
theorem nearest_add (hx : rational? x = some p) (hy : rational? y = some q) :
    Nearest (p + q) (x + y).toModel.unpack := by
  show Nearest (p + q) (Float.Model.pack (UnpackedFloat.add Format.binary64 _ _)).unpack
  obtain ⟨hcanonical, hvalue⟩ | ⟨n, e, hvalue, hsum⟩ :=
    add_cases (canonical_unpack x.toModel) (canonical_unpack y.toModel) hx hy
  · exact .of_canonical hcanonical hvalue
  · rw [hsum, ← hvalue]
    exact nearest_normalize .positive n e

/-- A sum that is representable is exact. -/
theorem rational?_add (hx : rational? x = some p) (hy : rational? y = some q)
    (hrep : Representable (p + q)) : rational? (x + y) = some (p + q) :=
  (nearest_add hx hy).valueOf_of_representable hrep

/-- A sum is what the exact sum is rounded to. -/
theorem roundsTo_add (hx : rational? x = some p) (hy : rational? y = some q) :
    RoundsTo (p + q) (x + y).toModel.unpack :=
  (nearest_add hx hy).roundsTo

/-- A sum stays finite that is not beyond the largest double. -/
theorem exists_rational?_add (hx : rational? x = some p) (hy : rational? y = some q)
    (hlt : |p + q| < 2 ^ (1024 : ℤ) - 2 ^ (970 : ℤ)) : ∃ r, rational? (x + y) = some r := by
  obtain ⟨r, hr, -⟩ := (roundsTo_add hx hy).exists_valueOf hlt
  exact ⟨r, hr⟩

/-- A product is the double nearest to the exact product. -/
theorem nearest_mul (hx : rational? x = some p) (hy : rational? y = some q) :
    Nearest (p * q) (x * y).toModel.unpack := by
  show Nearest (p * q) (Float.Model.pack (UnpackedFloat.mul Format.binary64 _ _)).unpack
  obtain ⟨hcanonical, hvalue⟩ | ⟨s, m, e, hm, he, hvalue, hround⟩ :=
    mul_cases (canonical_unpack x.toModel) (canonical_unpack y.toModel) hx hy
  · exact .of_canonical hcanonical hvalue
  · rw [hround, ← hvalue]
    exact nearest_roundWithAccuracy_exact s hm he

/-- A product is what the exact product is rounded to. -/
theorem roundsTo_mul (hx : rational? x = some p) (hy : rational? y = some q) :
    RoundsTo (p * q) (x * y).toModel.unpack :=
  (nearest_mul hx hy).roundsTo

/-- A product that is representable is exact. -/
theorem rational?_mul (hx : rational? x = some p) (hy : rational? y = some q)
    (hrep : Representable (p * q)) : rational? (x * y) = some (p * q) :=
  (nearest_mul hx hy).valueOf_of_representable hrep

/-! ### Negatives and differences -/

/-- Negation changes the sign of the unpacked form, also for infinities. -/
theorem unpack_neg (x : Float) : (-x).toModel.unpack = x.toModel.unpack.neg := by
  show (Float.Model.pack x.toModel.unpack.neg).unpack = _
  rw [unpack_pack_neg, pack_unpack]

/-- A double is its unpacked form. -/
theorem eq_of_unpack_eq {x y : Float} (h : x.toModel.unpack = y.toModel.unpack) : x = y := by
  cases x
  cases y
  congr
  exact unpack_injective h

/-- Negating twice changes no double. -/
theorem neg_neg_eq_self (x : Float) : - -x = x := by
  refine eq_of_unpack_eq ?_
  rw [unpack_neg, unpack_neg]
  cases x.toModel.unpack with
  | finite s m e hm => cases s <;> rfl
  | zero s => cases s <;> rfl
  | infinity s => cases s <;> rfl
  | notANumber => rfl

/-- The value of the negative, or none for both. -/
theorem rational?_neg_eq (x : Float) : rational? (-x) = (rational? x).map (-·) := by
  rw [rational?, unpack_neg, valueOf_neg, rational?]

/-- Negation is exact. -/
theorem rational?_neg (hx : rational? x = some p) : rational? (-x) = some (-p) := by
  rw [rational?_neg_eq, hx, Option.map_some]

/-- The negative is finite when the number is. -/
theorem isSome_rational?_neg {x : Float} : (rational? (-x)).isSome = (rational? x).isSome := by
  rw [rational?_neg_eq, Option.isSome_map]

/-- The opposite sign gives the negative integer. -/
theorem apply_neg (s : Sign) (n : ℤ) : (-s).apply n = -s.apply n := by
  cases s
  · exact (neg_neg n).symm
  · rfl

/-- Core subtracts by adding the negative form. -/
theorem unpacked_sub_eq_add_neg (u v : UnpackedFloat) :
    UnpackedFloat.sub Format.binary64 u v = UnpackedFloat.add Format.binary64 u v.neg := by
  cases u <;> cases v <;>
    grind [UnpackedFloat.sub, UnpackedFloat.add, UnpackedFloat.neg, apply_neg]

/-- Subtracting is adding the negative, for all doubles. -/
theorem sub_eq_add_neg (x y : Float) : x - y = x + -y := by
  show Float.ofModel (.pack (UnpackedFloat.sub Format.binary64 _ _)) =
    .ofModel (.pack (UnpackedFloat.add Format.binary64 x.toModel.unpack (-y).toModel.unpack))
  rw [unpacked_sub_eq_add_neg, unpack_neg]

/-- A difference is the double nearest to the exact difference. -/
theorem nearest_sub (hx : rational? x = some p) (hy : rational? y = some q) :
    Nearest (p - q) (x - y).toModel.unpack := by
  rw [sub_eq_add_neg, Rat.sub_eq_add_neg]
  exact nearest_add hx (rational?_neg hy)

/-- A difference that is representable is exact. -/
theorem rational?_sub (hx : rational? x = some p) (hy : rational? y = some q)
    (hrep : Representable (p - q)) : rational? (x - y) = some (p - q) :=
  (nearest_sub hx hy).valueOf_of_representable hrep

/-! ### Quotients -/

/-- The integer quotient that core rounds has the bits it needs, or the smallest exponent. -/
theorem two_pow_le_div {m n k : ℕ} {e f t : ℤ} (hm : 0 < m) (hn : 0 < n) (hshift : e - f = t + k)
    (ht : t ≤ Format.binary64.targetExponent (totalExponent m e - totalExponent n f)) :
    2 ^ 52 ≤ m * 2 ^ k / n ∨ t ≤ -1074 := by
  rw [binary64_targetExponent, totalExponent, totalExponent] at ht
  rcases le_or_gt t (-1074) with hlow | hlow
  · exact .inr hlow
  · refine .inl ((Nat.le_div_iff_mul_le hn).2 ?_)
    have hbits : n.log2 + 53 ≤ m.log2 + k := by omega
    calc 2 ^ 52 * n ≤ 2 ^ 52 * 2 ^ (n.log2 + 1) :=
          Nat.mul_le_mul_left _ (Nat.lt_log2_self (n := n)).le
      _ = 2 ^ (n.log2 + 53) := by rw [← pow_add]; congr 1; omega
      _ ≤ 2 ^ (m.log2 + k) := Nat.pow_le_pow_right (by norm_num) hbits
      _ = 2 ^ m.log2 * 2 ^ k := pow_add _ _ _
      _ ≤ m * 2 ^ k := Nat.mul_le_mul_right _ (Nat.log2_self_le hm.ne')

/-- A quotient in units of the last place of the integer quotient. -/
theorem quotient_eq {m n k : ℕ} {e f t : ℤ} (hshift : e - f = t + k) :
    (m : ℚ) * 2 ^ e / (n * 2 ^ f) = ((m * 2 ^ k : ℕ) : ℚ) / n * 2 ^ t := by
  rw [mul_div_mul_comm, ← zpow_sub₀ (by norm_num), hshift, zpow_add₀ (by norm_num), zpow_natCast]
  push_cast
  ring

/-- Two significands are divided to the double nearest to their exact quotient, also those that are
no doubles. -/
theorem nearest_div_finite (s t : Sign) {m n : ℕ} (e f : ℤ) (hm : 0 < m) (hn : 0 < n) :
    Nearest (signFactor s * (m * 2 ^ e) / (signFactor t * (n * 2 ^ f)))
      (Float.Model.pack
        (UnpackedFloat.div Format.binary64 (.finite s m e hm) (.finite t n f hn))).unpack := by
  rw [mul_div_mul_comm, ← signFactor_div, UnpackedFloat.div, divCore, Nat.shiftLeft_eq]
  generalize htarget : min (e - f)
    (Format.binary64.targetExponent (totalExponent m e - totalExponent n f)) = i
  have hle : i ≤ e - f := htarget ▸ min_le_left _ _
  generalize hk : (e - f - i).toNat = k
  have hshift : e - f = i + k := by omega
  have hbits := two_pow_le_div hm hn hshift (htarget ▸ min_le_right _ _)
  refine nearest_roundWithAccuracy _ (div_pos (mul_two_zpow_pos hm e) (mul_two_zpow_pos hn f))
    ?_ ?_
  · rw [quotient_eq hshift, mul_div_cancel_right₀ _ (two_zpow_pos i).ne']
    exact .div _ hn
  · rcases hbits with hbits | hlow
    · have hlog := (Nat.le_log2 (by omega)).2 hbits
      rw [binary64_targetExponent, totalExponent]
      omega
    · exact hlow.trans (le_max_right _ _)

/-- A quotient is the double nearest to the exact quotient. -/
theorem nearest_div (hx : rational? x = some p) (hy : rational? y = some q) (hq : q ≠ 0) :
    Nearest (p / q) (x / y).toModel.unpack := by
  show Nearest (p / q) (Float.Model.pack (UnpackedFloat.div Format.binary64 _ _)).unpack
  obtain ⟨t, -, rfl⟩ | ⟨t, n, f, hn, hv, rfl⟩ := valueOf_cases hy
  · exact absurd rfl hq
  rw [hv]
  obtain ⟨s, hu, rfl⟩ | ⟨s, m, e, hm, hu, rfl⟩ := valueOf_cases hx
  · rw [hu, zero_div]
    exact .of_canonical trivial rfl
  · rw [hu]
    exact nearest_div_finite s t e f hm hn

end Operations

/-! ### Comparison -/

/-- A value has one canonical significand and exponent. -/
theorem Canonical.unique {m n : ℕ} {e f : ℤ} (hm : Canonical m e) (hn : Canonical n f)
    (h : (m : ℚ) * 2 ^ e = n * 2 ^ f) : m = n ∧ e = f := by
  -- By symmetry it is enough that the exponent with the longer significand is not the larger
  -- one.
  have hle : ∀ {m n : ℕ} {e f : ℤ}, Canonical m e → Canonical n f →
      (m : ℚ) * 2 ^ e = n * 2 ^ f → f ≤ e := by
    intro m n e f hm hn h
    by_contra hlt
    have hmul := eq_mul_two_pow h (by omega)
    have hdouble : 2 * n ≤ m := by
      obtain ⟨k, hk⟩ : ∃ k : ℕ, (f - e).toNat = k + 1 := ⟨(f - e).toNat - 1, by omega⟩
      rw [hmul, hk, pow_succ]
      have := Nat.le_mul_of_pos_right n (Nat.two_pow_pos k)
      linarith
    have hlow := hm.minExponent_le
    have hbound := hm.lt
    rcases hn.normal with hnormal | hnormal
    · omega
    · omega
  obtain rfl : e = f := le_antisymm (hle hn hm h.symm) (hle hm hn h)
  exact ⟨by exact_mod_cast mul_right_cancel₀ (two_zpow_pos e).ne' h, rfl⟩

/-- The sign of a number other than zero shows in its value. -/
theorem signFactor_mul_pos_iff {s : Sign} {q : ℚ} (hq : 0 < q) :
    0 < signFactor s * q ↔ s = .positive := by
  cases s with
  | positive => simp [signFactor, hq]
  | negative => simp [signFactor, hq.le]

/-- A signed significand is not zero. -/
theorem signFactor_mul_ne_zero {s : Sign} {m : ℕ} {e : ℤ} (hm : 0 < m) :
    signFactor s * ((m : ℚ) * 2 ^ e) ≠ 0 := by
  rw [← abs_ne_zero, abs_signFactor_mul (mul_two_zpow_pos hm e).le]
  exact (mul_two_zpow_pos hm e).ne'

/-- A canonical form is its value, unless that is zero. Sign, significand and exponent are read
off the value: the sign from its order with zero, and the others because a canonical significand
is as long as it can be. -/
theorem eq_of_valueOf {u v : UnpackedFloat} {q : ℚ} (hcu : IsCanonical u) (hcv : IsCanonical v)
    (hu : valueOf u = some q) (hv : valueOf v = some q) (hq : q ≠ 0) : u = v := by
  obtain ⟨s, -, hzero⟩ | ⟨s, m, e, hm, rfl, hs⟩ := valueOf_cases hu
  · exact absurd hzero hq
  obtain ⟨t, -, hzero⟩ | ⟨t, n, f, hn, rfl, ht⟩ := valueOf_cases hv
  · exact absurd hzero hq
  have hpos := mul_two_zpow_pos hm e
  have hpos' := mul_two_zpow_pos hn f
  -- the values have the same sign, and then the same magnitude
  obtain rfl : s = t := by
    have hs' := signFactor_mul_pos_iff (s := s) hpos
    have ht' := signFactor_mul_pos_iff (s := t) hpos'
    rw [← hs] at hs'
    rw [← ht] at ht'
    cases s <;> cases t <;> grind
  have habs := congrArg (|·|) (hs.symm.trans ht)
  rw [abs_signFactor_mul hpos.le, abs_signFactor_mul hpos'.le] at habs
  obtain ⟨rfl, rfl⟩ := Canonical.unique hcu hcv habs
  rfl

/-- A double is its value, unless that is zero: there are two zeros. -/
theorem eq_of_rational? {x y : Float} {q : ℚ} (hx : rational? x = some q)
    (hy : rational? y = some q) (hq : q ≠ 0) : x = y :=
  eq_of_unpack_eq (eq_of_valueOf (canonical_unpack _) (canonical_unpack _) hx hy hq)

/-- A canonical form with the smaller exponent has the smaller value. -/
theorem Canonical.lt_of_exponent_lt {m n : ℕ} {e f : ℤ} (hm : Canonical m e) (hn : Canonical n f)
    (h : e < f) : (m : ℚ) * 2 ^ e < n * 2 ^ f := by
  have hlow := hm.minExponent_le
  have hbits : 2 ^ 52 ≤ n := hn.normal.resolve_right (by omega)
  calc (m : ℚ) * 2 ^ e < 2 ^ 53 * 2 ^ e :=
        mul_lt_mul_of_pos_right (by exact_mod_cast hm.lt) (two_zpow_pos e)
    _ = 2 ^ 52 * 2 ^ (e + 1) := by
        rw [zpow_add₀ (by norm_num), zpow_one]
        ring
    _ ≤ n * 2 ^ f := mul_le_mul (by exact_mod_cast hbits)
        (zpow_le_zpow_right₀ (by norm_num) (by omega)) (two_zpow_pos _).le (Nat.cast_nonneg n)

/-- Exponents decide the order of canonical forms, and significands where those are equal. -/
theorem Canonical.compare_eq {m n : ℕ} {e f : ℤ} (hm : Canonical m e) (hn : Canonical n f) :
    (compare e f).then (compare m n) = compare ((m : ℚ) * 2 ^ e) (n * 2 ^ f) := by
  rcases lt_trichotomy e f with h | rfl | h
  · rw [compare_lt_iff_lt.2 h, compare_lt_iff_lt.2 (hm.lt_of_exponent_lt hn h)]
    rfl
  · rw [compare_eq_iff_eq.2 rfl, Ordering.eq_then]
    have hunit := two_zpow_pos e
    rcases lt_trichotomy m n with h | rfl | h
    · rw [compare_lt_iff_lt.2 h,
        compare_lt_iff_lt.2 (mul_lt_mul_of_pos_right (by exact_mod_cast h) hunit)]
    · rw [compare_eq_iff_eq.2 rfl, compare_eq_iff_eq.2 rfl]
    · rw [compare_gt_iff_gt.2 h,
        compare_gt_iff_gt.2 (mul_lt_mul_of_pos_right (by exact_mod_cast h) hunit)]
  · rw [compare_gt_iff_gt.2 h, compare_gt_iff_gt.2 (hn.lt_of_exponent_lt hm h)]
    rfl

/-- Negation turns the order around. -/
theorem compare_neg_neg (p q : ℚ) : compare (-p) (-q) = (compare p q).swap := by
  rcases lt_trichotomy p q with h | rfl | h
  · rw [compare_lt_iff_lt.2 h, compare_gt_iff_gt.2 (neg_lt_neg h)]
    rfl
  · rw [compare_eq_iff_eq.2 rfl, compare_eq_iff_eq.2 rfl]
    rfl
  · rw [compare_gt_iff_gt.2 h, compare_lt_iff_lt.2 (neg_lt_neg h)]
    rfl

/-- Finite unpacked forms compare as their values do. Core looks at the signs first, then at
exponents and then at significands, and does so the other way round below zero. -/
theorem compare_eq_some {u v : UnpackedFloat} {p q : ℚ} (hcu : IsCanonical u) (hcv : IsCanonical v)
    (hu : valueOf u = some p) (hv : valueOf v = some q) : u.compare v = some (compare p q) := by
  obtain ⟨s, rfl, rfl⟩ | ⟨s, m, e, hm, rfl, rfl⟩ := valueOf_cases hu
  · obtain ⟨t, rfl, rfl⟩ | ⟨t, n, f, hn, rfl, rfl⟩ := valueOf_cases hv
    · rw [compare_eq_iff_eq.2 rfl]
      rfl
    · have hpos := mul_two_zpow_pos hn f
      cases t with
      | positive =>
        rw [signFactor, one_mul, compare_lt_iff_lt.2 hpos]
        rfl
      | negative =>
        rw [signFactor, neg_one_mul, compare_gt_iff_gt.2 (neg_neg_of_pos hpos)]
        rfl
  · have hpos := mul_two_zpow_pos hm e
    obtain ⟨t, rfl, rfl⟩ | ⟨t, n, f, hn, rfl, rfl⟩ := valueOf_cases hv
    · cases s with
      | positive =>
        rw [signFactor, one_mul, compare_gt_iff_gt.2 hpos]
        rfl
      | negative =>
        rw [signFactor, neg_one_mul, compare_lt_iff_lt.2 (neg_neg_of_pos hpos)]
        rfl
    · have hpos' := mul_two_zpow_pos hn f
      have hmagnitude := Canonical.compare_eq hcu hcv
      cases s with
      | positive =>
        cases t with
        | positive =>
          rw [signFactor, one_mul, one_mul, ← hmagnitude]
          rfl
        | negative =>
          rw [signFactor, signFactor, one_mul, neg_one_mul,
            compare_gt_iff_gt.2 ((neg_neg_of_pos hpos').trans hpos)]
          rfl
      | negative =>
        cases t with
        | positive =>
          rw [signFactor, signFactor, one_mul, neg_one_mul,
            compare_lt_iff_lt.2 ((neg_neg_of_pos hpos).trans hpos')]
          rfl
        | negative =>
          rw [signFactor, neg_one_mul, neg_one_mul, compare_neg_neg, ← hmagnitude]
          rfl

/-- Doubles compare equal when their values are. -/
theorem beq_iff {x y : Float} {p q : ℚ} (hx : rational? x = some p) (hy : rational? y = some q) :
    x == y ↔ p = q := by
  show (x.toModel.unpack.compare y.toModel.unpack == some .eq) = true ↔ _
  rw [beq_iff_eq, compare_eq_some (canonical_unpack x.toModel) (canonical_unpack y.toModel) hx hy,
    Option.some.injEq, compare_eq_iff_eq]

/-- What compares equal to a number is one. -/
theorem isSome_rational?_of_beq {x y : Float} {q : ℚ} (hy : rational? y = some q)
    (h : x == y) : (rational? x).isSome := by
  have h : (x.toModel.unpack.compare y.toModel.unpack == some .eq) = true := h
  rw [rational?]
  cases hu : x.toModel.unpack with
  | finite s m e hm => rfl
  | zero s => rfl
  | notANumber => simp [hu, UnpackedFloat.compare] at h
  | infinity s =>
    obtain ⟨t, hv, -⟩ | ⟨t, n, f, hn, hv, -⟩ := valueOf_cases hy
    · cases s <;> simp [hu, hv, UnpackedFloat.compare] at h
    · cases s <;> simp [hu, hv, UnpackedFloat.compare] at h

/-- Both zeros, and nothing else, compare equal to zero. -/
theorem beq_zero_iff {x : Float} : x == 0.0 ↔ rational? x = some 0 := by
  constructor
  · intro h
    obtain ⟨p, hp⟩ := Option.isSome_iff_exists.1 (isSome_rational?_of_beq rfl h)
    rw [hp, (beq_iff hp rfl).1 h]
  · intro h
    exact (beq_iff h rfl).2 rfl

/-- A number compares equal to what has its value. -/
theorem beq_of_rational?_eq {x y : Float} (hx : (rational? x).isSome)
    (h : rational? x = rational? y) : x == y := by
  obtain ⟨p, hp⟩ := Option.isSome_iff_exists.1 hx
  exact (beq_iff hp (h ▸ hp)).2 rfl

/-- What compares equal to a number other than zero is that number. -/
theorem beq_iff_eq_of_ne_zero {x y : Float} {q : ℚ} (hy : rational? y = some q) (hq : q ≠ 0) :
    x == y ↔ x = y := by
  constructor
  · intro h
    obtain ⟨p, hp⟩ := Option.isSome_iff_exists.1 (isSome_rational?_of_beq hy h)
    obtain rfl := (beq_iff hp hy).1 h
    exact eq_of_rational? hp hy hq
  · rintro rfl
    exact (beq_iff hy hy).2 rfl

/-! ### Numbers by name -/

/-- Zero is exact. -/
theorem rational?_zero : rational? 0.0 = some 0 :=
  rfl

/-- One is exact. -/
theorem rational?_one : rational? 1.0 = some 1 := by
  have hone : (1.0 : Float) =
      .ofModel (.pack (.finite .positive (2 ^ 52) (-52) (by norm_num))) := by decide +kernel
  have hcanonical : Canonical (2 ^ 52) (-52) :=
    ⟨by norm_num, by norm_num, by norm_num, by norm_num, .inl le_rfl⟩
  rw [hone, rational?_pack (by exact hcanonical), valueOf, signFactor]
  norm_num

/-- Minus one is exact. -/
theorem rational?_negOne : rational? (-1.0) = some (-1) :=
  rational?_neg rational?_one

/-- The value of a double is a number that a double can be. -/
theorem representable_of_rational? {x : Float} {p : ℚ} (hx : rational? x = some p) :
    Representable p :=
  representable_of_valueOf (canonical_unpack x.toModel) hx

/-- One less than a double is finite, if rounded. -/
theorem exists_rational?_sub_one {x : Float} {p : ℚ} (hx : rational? x = some p) :
    ∃ r, rational? (x - 1.0) = some r := by
  rw [sub_eq_add_neg]
  refine exists_rational?_add hx (rational?_neg rational?_one) ?_
  have hle := (representable_of_rational? hx).abs_le
  have hsum := abs_add_le p (-1)
  have hunit : (2 : ℚ) ^ (971 : ℤ) = 2 * 2 ^ (970 : ℤ) := by
    rw [← zpow_one_add₀ (by norm_num)]
    norm_num
  have hlarge : (1 : ℚ) < 2 ^ (970 : ℤ) := one_lt_zpow₀ (by norm_num) (by norm_num)
  rw [abs_neg, abs_one] at hsum
  rw [hunit] at hle
  -- the two large powers are no more than names from here on
  generalize (2 : ℚ) ^ (970 : ℤ) = unit at hle hlarge ⊢
  generalize (2 : ℚ) ^ (1024 : ℤ) = top at hle ⊢
  linarith

/-- It is off by no more than one rounding, also where the difference is nearly zero. -/
theorem abs_sub_one_le {x : Float} {p r : ℚ} (hx : rational? x = some p)
    (hr : rational? (x - 1.0) = some r) : |r - (p - 1)| ≤ 2 ^ (-52 : ℤ) * (|p| + 1) := by
  obtain ⟨n, hn, hrn⟩ := (nearest_sub hx rational?_one).exists_of_valueOf hr
  have hsub : |p - 1| ≤ |p| + 1 := by simpa using abs_sub p 1
  rw [hrn]
  refine hn.abs_mul_sub_le_max.trans (max_le ?_ ?_)
  · exact mul_le_mul_of_nonneg_left hsub (two_zpow_pos _).le
  · -- the least double is less than the rounding of one
    calc (2 : ℚ) ^ (-1074 : ℤ) ≤ 2 ^ (-52 : ℤ) :=
          zpow_le_zpow_right₀ (by norm_num) (by norm_num)
      _ ≤ 2 ^ (-52 : ℤ) * (|p| + 1) :=
          le_mul_of_one_le_right (two_zpow_pos _).le (le_add_of_nonneg_left (abs_nonneg p))

/-! ### Sums with zero -/

/-- Adding to zero does not change a value, nor that there is none. -/
theorem rational?_zero_add (x : Float) : rational? (0.0 + x) = rational? x := by
  rcases hx : rational? x with - | p
  · show rational? (.ofModel (.pack (UnpackedFloat.add Format.binary64 (.zero .positive) _))) = none
    rw [rational?] at hx
    cases hu : x.toModel.unpack with
    | infinity s => cases s <;> rfl
    | notANumber => rfl
    | zero s => simp [hu, valueOf] at hx
    | finite s m e hm => simp [hu, valueOf] at hx
  · have hsum := rational?_add rational?_zero hx
    rw [zero_add] at hsum
    exact hsum (representable_of_rational? hx)

/-- Adding to zero changes no double but a negative zero. -/
theorem zero_add_of_bne_zero {x : Float} (h : x != 0.0) : 0.0 + x = x := by
  have hsum : UnpackedFloat.add Format.binary64 (.zero .positive) x.toModel.unpack =
      x.toModel.unpack := by
    cases hu : x.toModel.unpack with
    | zero s =>
      have hzero : x == 0.0 := beq_zero_iff.2 (by rw [rational?, hu, valueOf])
      rw [bne, hzero] at h
      exact absurd h (by decide)
    | _ => rfl
  show Float.ofModel (.pack (UnpackedFloat.add Format.binary64 (.zero .positive) _)) = x
  rw [hsum, pack_unpack]

/-! ### Integers -/

/-- The integer part of a finite double. -/
def toInt (x : Float) : ℤ :=
  ((rational? x).getD 0).floor

/-- The integer part of an integer. -/
theorem toInt_of_rational? {x : Float} {n : ℤ} (h : rational? x = some (n : ℚ)) : toInt x = n := by
  rw [toInt, h, Option.getD_some, Rat.floor_intCast]

/-- The double is an integer. -/
def IsInteger (x : Float) : Prop :=
  ∃ n : ℤ, rational? x = some (n : ℚ)

/-- The integer that an integral double is. -/
theorem IsInteger.rational?_eq {x : Float} (h : IsInteger x) :
    rational? x = some (toInt x : ℚ) := by
  obtain ⟨n, hn⟩ := h
  rw [toInt_of_rational? hn, hn]

/-- One less than an integer is exact, as long as it is small. -/
theorem rational?_sub_one_int {x : Float} {n : ℤ} (hx : rational? x = some (n : ℚ))
    (hlt : |n - 1| < 2 ^ 53) : rational? (x - 1.0) = some ((n - 1 : ℤ) : ℚ) := by
  have hrep := representable_intCast hlt
  rw [Int.cast_sub, Int.cast_one] at hrep ⊢
  exact rational?_sub hx rational?_one hrep

/-- Negation keeps integers. -/
theorem IsInteger.neg {x : Float} (h : IsInteger x) : IsInteger (-x) := by
  obtain ⟨n, hn⟩ := h
  exact ⟨-n, by simpa using rational?_neg hn⟩

/-! ### Exchanging the operands -/

/-- Core adds in either order, by cases on both forms. -/
theorem unpacked_add_comm (u v : UnpackedFloat) :
    UnpackedFloat.add Format.binary64 u v = UnpackedFloat.add Format.binary64 v u := by
  cases u <;> cases v <;> grind [UnpackedFloat.add]

/-- Core multiplies in either order. -/
theorem unpacked_mul_comm (u v : UnpackedFloat) :
    UnpackedFloat.mul Format.binary64 u v = UnpackedFloat.mul Format.binary64 v u := by
  have hsign : ∀ s t : Sign, s * t = t * s := by
    intro s t
    cases s <;> cases t <;> rfl
  cases u <;> cases v <;> simp only [UnpackedFloat.mul, hsign, Nat.mul_comm, Int.add_comm]

/-- The terms of a sum may be exchanged, for all doubles. -/
theorem add_swap (x y : Float) : x + y = y + x := by
  show Float.ofModel (.pack (UnpackedFloat.add Format.binary64 _ _)) =
    .ofModel (.pack (UnpackedFloat.add Format.binary64 y.toModel.unpack x.toModel.unpack))
  rw [unpacked_add_comm]

/-- The factors of a product may be exchanged, for all doubles. -/
theorem mul_swap (x y : Float) : x * y = y * x := by
  show Float.ofModel (.pack (UnpackedFloat.mul Format.binary64 _ _)) =
    .ofModel (.pack (UnpackedFloat.mul Format.binary64 y.toModel.unpack x.toModel.unpack))
  rw [unpacked_mul_comm]

/-! ### The sign of a product -/

/-- A sign in front of a factor goes to the product. -/
theorem unpacked_neg_mul (u v : UnpackedFloat) :
    UnpackedFloat.mul Format.binary64 u.neg v = (UnpackedFloat.mul Format.binary64 u v).neg := by
  have hsign : ∀ s t : Sign, -s * t = -(s * t) := by
    intro s t
    cases s <;> cases t <;> rfl
  cases u <;> cases v <;>
    simp only [UnpackedFloat.mul, UnpackedFloat.neg, hsign, roundWithAccuracy_neg]

/-- Negating a factor negates the product, for all doubles. -/
theorem neg_mul_left (x y : Float) : -x * y = -(x * y) := by
  show Float.ofModel (.pack (UnpackedFloat.mul Format.binary64 (-x).toModel.unpack _)) =
    .ofModel (.pack (Float.Model.pack (UnpackedFloat.mul Format.binary64 _ _)).unpack.neg)
  rw [unpack_neg, unpacked_neg_mul, ← unpack_pack_neg, pack_unpack]

/-! ### One as an operand -/

/-- One is a positive significand with an exponent; which ones does not matter. -/
theorem exists_unpack_one : ∃ n f hn, (1.0 : Float).toModel.unpack = .finite .positive n f hn := by
  obtain ⟨s, -, hzero⟩ | ⟨s, n, f, hn, hu, hone⟩ := valueOf_cases rational?_one
  · exact absurd hzero one_ne_zero
  · obtain rfl : s = .positive :=
      (signFactor_mul_pos_iff (mul_two_zpow_pos hn f)).1 (hone ▸ one_pos)
    exact ⟨n, f, hn, hu⟩

/-- Multiplying by one changes no double. -/
theorem mul_one_eq_self (x : Float) : x * 1.0 = x := by
  obtain ⟨n, f, hn, hone⟩ := exists_unpack_one
  have htimes : ∀ s : Sign, s * .positive = s := by
    intro s
    cases s <;> rfl
  have hkeep (h : UnpackedFloat.mul Format.binary64 x.toModel.unpack (.finite .positive n f hn) =
      x.toModel.unpack) : x * 1.0 = x := by
    show Float.ofModel (.pack (UnpackedFloat.mul Format.binary64 x.toModel.unpack _)) = x
    rw [hone, h, pack_unpack]
  cases hu : x.toModel.unpack with
  | infinity s => exact hkeep (by rw [hu, UnpackedFloat.mul, htimes])
  | notANumber => exact hkeep (by rw [hu, UnpackedFloat.mul])
  | zero s => exact hkeep (by rw [hu, UnpackedFloat.mul, htimes])
  | finite s m e hm =>
    -- a product is rounded, and a double is not changed by that
    have hx : rational? x = some (signFactor s * (m * 2 ^ e)) := by rw [rational?, hu, valueOf]
    have hproduct := rational?_mul hx rational?_one (by
      rw [mul_one]
      exact representable_of_rational? hx)
    rw [mul_one] at hproduct
    exact eq_of_rational? hproduct hx (signFactor_mul_ne_zero hm)

/-- One changes no double that it multiplies. -/
theorem one_mul_eq_self (x : Float) : 1.0 * x = x := by
  rw [mul_swap, mul_one_eq_self]

/-- Minus one negates all doubles. -/
theorem mul_negOne (x : Float) : x * -1.0 = -x := by
  rw [mul_swap, neg_mul_left, one_mul_eq_self]

/-- A number other than zero divided by itself is one. -/
theorem div_self_eq_one {x : Float} {p : ℚ} (hx : rational? x = some p) (hp : p ≠ 0) :
    x / x = 1.0 := by
  have hrep : Representable ((1 : ℤ) : ℚ) := representable_intCast (by norm_num)
  rw [Int.cast_one, ← div_self hp] at hrep
  have hquotient : rational? (x / x) = some (p / p) :=
    (nearest_div hx hx hp).valueOf_of_representable hrep
  rw [div_self hp] at hquotient
  exact eq_of_rational? hquotient rational?_one one_ne_zero

/-- A number other than zero divided by itself leaves every number as it is. -/
theorem mul_div_self {a : Float} (hfinite : a.isFinite) (hzero : (a == 0.0) = false)
    (v : Float) : v * (a / a) = v := by
  obtain ⟨p, hp⟩ := exists_rational?_of_isFinite hfinite
  have hne : p ≠ 0 := fun h ↦
    Bool.eq_false_iff.1 hzero ((beq_iff hp rational?_zero).2 h)
  rw [div_self_eq_one hp hne, mul_one_eq_self]

end DimensionalAnalysis.Number
