import DimensionalAnalysis.Proofs.Number.Relative
import DimensionalAnalysis.Proofs.Quantity.Compatibility
import DimensionalAnalysis.Proofs.Quantity.Conversion

/-!
# Exchanging the operands of a comparison

A comparison converts its right operand into the unit of the left one. With the operands exchanged
it is the other value that is converted, by the inverse factor, and either conversion rounds twice:
the factor is a rounded quotient of scales, and the converted value is a rounded product. So the two
comparisons look at different numbers and need not agree. One foot equals twelve inches, but twelve
inches do not equal one foot (`Quantity.not_isCoherent`).

They agree in three situations (`Quantity.isCoherent_of_exact_or_apart`).

* None of them converts anything, or both convert by a factor of one (`Quantity.IsExact`), and the
  order of two doubles is reversed when they are exchanged.
* The two amounts, which are the values times the scales, are further apart than a conversion can
  move one of them (`Number.Apart`), and both comparisons find the order of the amounts. Amounts on
  different sides of zero are apart however small they are, as rounding moves no product to the
  other side of zero.
* Both conversions arrive at the exact values (`Number.ConvertsTo`), and the order of the amounts is
  found again. This is how equal amounts in different units can be equal in both directions: one
  kilometre and a thousand metres are, although a thousandth is no double.
-/

namespace DimensionalAnalysis

/-! ### Amounts that rounding does not exchange -/

namespace Number

variable {x y u w : Float} {p t a b : ℚ}

/-- Values `p` and `t`, in units of the scales `a` and `b`, are both zero, or on different sides
of zero, or have amounts that differ by a fraction of the larger one and by two of the smallest
doubles in either unit.

The relation is symmetric, since it is needed in both directions. The fraction covers the two
roundings of a conversion, and the smallest doubles what they are off where doubles have no more
digits to lose. -/
inductive Apart (a b p t : ℚ) : Prop
  | zero (hp : p = 0) (ht : t = 0)
  | opposite (h : p * t < 0)
  | far (hlarge : 2 ^ (-50 : ℤ) * max |p * a| |t * b| ≤ |p * a - t * b|)
      (hsmall : 2 ^ (-1073 : ℤ) * max a b ≤ |p * a - t * b|)

/-- The value `t` in units of the scale `b`, held by `y` and `w`, is converted to units of the scale
`a`, held by `u`, without any error in the end. The factor may have been rounded on the way. -/
def ConvertsTo (y w u : Float) (t b a : ℚ) : Prop :=
  rational? (y * (w / u)) = some (t * b / a)

/-- Amounts that are apart are so in either order. -/
theorem Apart.symm (h : Apart a b p t) : Apart b a t p := by
  cases h with
  | zero hp ht => exact .zero ht hp
  | opposite h => exact .opposite (by rwa [mul_comm])
  | far hlarge hsmall =>
    rw [abs_sub_comm, max_comm] at hlarge hsmall
    exact .far hlarge hsmall

/-- On different sides of zero, factors make no difference. -/
theorem compare_mul_of_opposite (h : p * t < 0) (ha : 0 < a) (hb : 0 < b) :
    compare (p * a) (t * b) = compare p t := by
  rcases mul_neg_iff.1 h with ⟨hp, ht⟩ | ⟨hp, ht⟩
  · rw [compare_gt_iff_gt.2 (ht.trans hp),
      compare_gt_iff_gt.2 ((mul_neg_of_neg_of_pos ht hb).trans (mul_pos hp ha))]
  · rw [compare_lt_iff_lt.2 (hp.trans ht),
      compare_lt_iff_lt.2 ((mul_neg_of_neg_of_pos hp ha).trans (mul_pos ht hb))]

/-- No rounding moves a product to the other side of zero. -/
theorem order?_mul_of_opposite (hx : rational? x = some p) (hy : rational? y = some t)
    (hw : rational? w = some b) (hb : 0 < b) (h : p * t < 0) :
    order? x (y * w) = some (compare p t) := by
  have hopposite : p * (t * b) < 0 := by
    rw [← mul_assoc]
    exact mul_neg_of_neg_of_pos h hb
  have hsmallest := le_abs_of_rational? hx (left_ne_zero_of_mul h.ne)
  have hproduct : 0 < |t * b| := abs_pos.2 (right_ne_zero_of_mul hopposite.ne)
  have hdistance : |p - t * b| = |p| + |t * b| := by
    rcases mul_neg_iff.1 hopposite with ⟨hp, hv⟩ | ⟨hp, hv⟩
    · rw [abs_of_pos hp, abs_of_neg hv, abs_of_pos (sub_pos.2 (hv.trans hp)), Rat.sub_eq_add_neg]
    · rw [abs_of_neg hp, abs_of_pos hv, abs_of_neg (sub_neg.2 (hp.trans hv)), neg_sub,
        Rat.sub_eq_add_neg, add_comm]
  have hfraction : (2 : ℚ) ^ (-52 : ℤ) ≤ 1 := zpow_le_one_of_nonpos₀ (by norm_num) (by norm_num)
  have hshare := mul_le_of_le_one_left hproduct.le hfraction
  have hpositive := (two_zpow_pos (-1074)).trans_le hsmallest
  rw [order?_of_roundsTo hx (roundsTo_mul hy hw), ← compare_mul_of_opposite h one_pos hb, mul_one]
  rw [hdistance, max_lt_iff]
  constructor <;> linarith only [hshare, hpositive, hproduct, hsmallest]

/-- A number that is far from an exact product is in the same order with the product after
rounding, first of a factor and then of the result. The distance is compared with the roundings
of both, and with the smallest double for a result that is nearly zero. -/
theorem order?_mul_of_far {f g : ℚ} (hx : rational? x = some p) (hy : rational? y = some t)
    (hw : rational? w = some g) (hf : 0 < f) (hnear : |g - f| ≤ 2 ^ (-52 : ℤ) * f)
    (hlarge : 2 ^ (-50 : ℤ) * |t * f| ≤ |p - t * f|)
    (hsmall : 2 ^ (-1073 : ℤ) ≤ |p - t * f|) :
    order? x (y * w) = some (compare p (t * f)) := by
  have hfraction : (2 : ℚ) ^ (-52 : ℤ) ≤ 1 := zpow_le_one_of_nonpos₀ (by norm_num) (by norm_num)
  have hfourth : (2 : ℚ) ^ (-50 : ℤ) = 4 * 2 ^ (-52 : ℤ) := by norm_num
  have hhalf : (2 : ℚ) ^ (-1073 : ℤ) = 2 * 2 ^ (-1074 : ℤ) := by
    rw [← zpow_one_add₀ (by norm_num)]
    norm_num
  have hsmallest := two_zpow_pos (-1074)
  rw [hfourth, mul_assoc] at hlarge
  rw [hhalf] at hsmall
  -- the rounding of the factor moves the product by no more than that of the result
  have hmoved : |t * g - t * f| ≤ 2 ^ (-52 : ℤ) * |t * f| := by
    rw [← mul_sub, abs_mul, abs_mul, abs_of_pos hf, mul_left_comm]
    exact mul_le_mul_of_nonneg_left hnear (abs_nonneg t)
  have hproduct : |t * g| ≤ 2 * |t * f| := by
    have := mul_le_of_le_one_left (abs_nonneg (t * f)) hfraction
    linarith only [abs_sub_abs_le_abs_sub (t * g) (t * f), hmoved, this]
  have hshare := mul_le_mul_of_nonneg_left hproduct (two_zpow_pos (-52)).le
  rw [mul_left_comm] at hshare
  have hdistance := abs_sub_abs_le_abs_sub (p - t * f) (t * g - t * f)
  rw [sub_sub_sub_cancel_right] at hdistance
  rw [order?_of_roundsTo hx (roundsTo_mul hy hw) (max_lt ?_ ?_), compare_eq_compare_of_near]
  all_goals linarith only [hmoved, hlarge, hsmall, hsmallest, hshare, hdistance]

/-- Amounts that are apart are found to be in the order that they have. The factor has to be
within the range of doubles, while nothing is asked of the converted value. -/
theorem order?_mul_div (hx : rational? x = some p) (hy : rational? y = some t)
    (hu : rational? u = some a) (hw : rational? w = some b) (ha : 0 < a) (hb : 0 < b)
    (hrange : InRange (b / a)) (h : Apart a b p t) :
    order? x (y * (w / u)) = some (compare (p * a) (t * b)) := by
  obtain ⟨g, hg, hnear⟩ := rational?_div_near hw hu ha.ne' hrange
  have hfactor : 0 < b / a := div_pos hb ha
  have hamount : t * b = t * (b / a) * a := by rw [mul_assoc, div_mul_cancel₀ b ha.ne']
  cases h with
  | zero hp ht =>
    have hproduct : rational? (y * (w / u)) = some (t * g) :=
      rational?_mul hy hg (by rw [ht, zero_mul]; exact representable_zero)
    rw [order?_of_rational? hx hproduct, hp, ht, zero_mul, zero_mul, zero_mul]
  | opposite h =>
    have hgpos : 0 < g := by
      have hfraction : (2 : ℚ) ^ (-52 : ℤ) < 1 := by norm_num
      have := mul_lt_of_lt_one_left hfactor hfraction
      linarith only [(abs_le.1 hnear).1, this]
    rw [order?_mul_of_opposite hx hy hg hgpos h, compare_mul_of_opposite h ha hb]
  | far hlarge hsmall =>
    have hdistance : |p * a - t * b| = |p - t * (b / a)| * a := by
      rw [hamount, ← sub_mul, abs_mul, abs_of_pos ha]
    rw [hdistance] at hlarge hsmall
    rw [order?_mul_of_far hx hy hg hfactor hnear ?_ ?_, hamount]
    · rw [← cmp_eq_compare, ← cmp_eq_compare, cmp_mul_pos_right ha]
    · refine le_of_mul_le_mul_right (le_trans ?_ hlarge) ha
      rw [mul_assoc, ← abs_of_pos ha, ← abs_mul, abs_of_pos ha, ← hamount]
      exact mul_le_mul_of_nonneg_left (le_max_right _ _) (two_zpow_pos (-50)).le
    · refine le_of_mul_le_mul_right (le_trans ?_ hsmall) ha
      exact mul_le_mul_of_nonneg_left (le_max_left _ _) (two_zpow_pos (-1073)).le

/-- After a conversion without error the order is that of the amounts. They need not be apart,
and may be equal. -/
theorem ConvertsTo.order? (h : ConvertsTo y w u t b a) (hx : rational? x = some p) (ha : 0 < a) :
    order? x (y * (w / u)) = some (compare (p * a) (t * b)) := by
  rw [order?_of_rational? hx h, ← cmp_eq_compare, ← cmp_eq_compare, ← cmp_mul_pos_right ha,
    div_mul_cancel₀ _ ha.ne']

end Number

namespace Quantity

open Number (rational? InRange Apart ConvertsTo)

variable {q r : Quantity} {m n : Measure} {p t a b : ℚ}

/-! ### Comparing in both directions -/

/-- Exchanged, the quantities compare the other way round, in each of the comparisons. -/
structure IsCoherent (q r : Quantity) : Prop where
  beq_comm : (r == q) = (q == r)
  order?_swap : r.order? q = (q.order? r).map Ordering.swap
  greater_iff : r.greater q = .ok true ↔ q.less r = .ok true
  less_iff : r.less q = .ok true ↔ q.greater r = .ok true

/-- The order is that of the aligned values. -/
theorem order?_of_align {x y : Float} (h : q.align r = .ok (x, y)) :
    q.order? r = Number.order? x y := by
  rw [order?, compare, h]
  rfl

/-- Equality is that of the order. It is the one comparison that has no fault, and is false
where the others have one. -/
theorem beq_eq_order? (q r : Quantity) : (q == r) = (q.order? r == some .eq) := by
  cases h : q.align r with
  | error f =>
    rw [beq_eq_false_of_align h, order?_eq_none_of_align h]
    rfl
  | ok p =>
    rw [order?_of_align h, ← Number.beq_eq_order?]
    simp only [BEq.beq, h]

/-- To be less is to be ordered so. -/
theorem less_eq_ok_true_iff : q.less r = .ok true ↔ q.order? r = some .lt := by
  rw [less, order?]
  cases q.compare r <;> simp

/-- To be greater is to be ordered so. -/
theorem greater_eq_ok_true_iff : q.greater r = .ok true ↔ q.order? r = some .gt := by
  rw [greater, order?]
  cases q.compare r <;> simp

/-- All comparisons are read off the order, and so it is enough that the order is reversed. -/
theorem isCoherent_of_order? (h : r.order? q = (q.order? r).map Ordering.swap) :
    q.IsCoherent r := by
  refine ⟨?_, h, ?_, ?_⟩
  · rw [beq_eq_order?, beq_eq_order?, h]
    obtain - | ⟨_ | _ | _⟩ := q.order? r <;> rfl
  · rw [greater_eq_ok_true_iff, less_eq_ok_true_iff, h]
    obtain - | ⟨_ | _ | _⟩ := q.order? r <;> simp
  · rw [less_eq_ok_true_iff, greater_eq_ok_true_iff, h]
    obtain - | ⟨_ | _ | _⟩ := q.order? r <;> simp

/-- A comparison fails in both directions or in none. -/
theorem Mismatched.exists_swap {f : Fault} (h : q.Mismatched r f) : ∃ g, r.Mismatched q g := by
  obtain ⟨m, n, hm, hn, htext, hsignature, -⟩ := h
  exact ⟨_, n, m, hn, hm, htext.symm, BEq.comm.trans hsignature, rfl⟩

/-- A comparison fails as aligning does. -/
theorem compare_eq_error_iff {f : Fault} : q.compare r = .error f ↔ q.Mismatched r f :=
  bind_align_eq_error_iff

/-! ### Nothing is rounded -/

/-- The units, if there are two, have the same text, or different signatures, or the same scale,
which is a number other than zero. -/
def IsExact (q r : Quantity) : Prop :=
  ∀ m n, q.measure = some m → r.measure = some n → m.text = n.text ∨
    (m.signature == n.signature) = false ∨
    m.scale = n.scale ∧ m.scale.isFinite ∧ (m.scale == 0.0) = false

/-- In both directions the values are compared as they are, or there is a fault. -/
theorem IsExact.align (h : q.IsExact r) :
    q.align r = .ok (q.value, r.value) ∧ r.align q = .ok (r.value, q.value) ∨
      (∃ f, q.align r = .error f) ∧ ∃ f, r.align q = .error f := by
  rw [Quantity.align, Quantity.align]
  cases hm : q.measure with
  | none => cases r.measure <;> exact .inl ⟨rfl, rfl⟩
  | some m =>
    cases hn : r.measure with
    | none => exact .inl ⟨rfl, rfl⟩
    | some n =>
      dsimp only
      by_cases htext : m.text = n.text
      · rw [if_pos htext, if_pos htext.symm]
        exact .inl ⟨rfl, rfl⟩
      · rw [if_neg htext, if_neg (Ne.symm htext), BEq.comm (a := n.signature)]
        obtain heq | hsignature | ⟨hscale, hfinite, hzero⟩ := h m n hm hn
        · exact absurd heq htext
        · rw [hsignature]
          exact .inr ⟨⟨_, rfl⟩, _, rfl⟩
        · rw [← hscale, Number.mul_div_self hfinite hzero, Number.mul_div_self hfinite hzero]
          cases m.signature == n.signature with
          | true => exact .inl ⟨rfl, rfl⟩
          | false => exact .inr ⟨⟨_, rfl⟩, _, rfl⟩

/-- Without rounding the comparisons agree. If there is a fault there is one in both directions.
-/
theorem IsExact.isCoherent (h : q.IsExact r) : q.IsCoherent r := by
  refine isCoherent_of_order? ?_
  obtain ⟨hqr, hrq⟩ | ⟨⟨f, hqr⟩, ⟨g, hrq⟩⟩ := h.align
  · rw [order?_of_align hqr, order?_of_align hrq, Number.order?_swap]
  · rw [order?_eq_none_of_align hqr, order?_eq_none_of_align hrq]
    rfl

/-! ### Amounts in different units -/

section Amounts

variable (hm : q.measure = some m) (hn : r.measure = some n)

include hm hn

/-- In different units of one signature the right value is converted. -/
theorem align_of_ne (htext : m.text ≠ n.text) (hsignature : m.signature == n.signature) :
    q.align r = .ok (q.value, r.value * (n.scale / m.scale)) := by
  rw [align, hm, hn]
  exact (if_neg htext).trans (if_pos hsignature)

/-- Quantities are in the order of their amounts if their values are, after the conversion. -/
theorem order?_of_amounts (htext : m.text ≠ n.text) (hsignature : m.signature == n.signature)
    (h : Number.order? q.value (r.value * (n.scale / m.scale)) =
      some (Ord.compare (p * a) (t * b))) :
    q.order? r = some (Ord.compare (p * a) (t * b)) := by
  rw [order?_of_align (align_of_ne hm hn htext hsignature), h]

/-- If both comparisons find the order of the amounts, where they convert at all, then they agree:
otherwise there is nothing to convert. -/
theorem isCoherent_of_amounts
    (h : m.text ≠ n.text → m.signature == n.signature →
      q.order? r = some (Ord.compare (p * a) (t * b)) ∧
      r.order? q = some (Ord.compare (t * b) (p * a))) : q.IsCoherent r := by
  by_cases hdirect : m.text = n.text ∨ (m.signature == n.signature) = false
  · refine IsExact.isCoherent fun m' n' hm' hn' ↦ ?_
    obtain rfl : m = m' := Option.some.inj (hm.symm.trans hm')
    obtain rfl : n = n' := Option.some.inj (hn.symm.trans hn')
    exact hdirect.imp_right .inl
  · obtain ⟨htext, hsignature⟩ := not_or.1 hdirect
    obtain ⟨hqr, hrq⟩ := h htext (Bool.not_eq_false _ ▸ hsignature)
    refine isCoherent_of_order? ?_
    rw [hqr, hrq, Option.map_some, ← Std.OrientedOrd.eq_swap]

end Amounts

/-- **Exchanged operands compare the other way round** where nothing is rounded, where the amounts
are so far apart that rounding cannot exchange them, and where both conversions are without error.
In the last two cases the order found is that of the amounts, if the units differ; so equal amounts
are equal in both directions if their conversions are without error. And in all cases a comparison
that fails also fails with its operands exchanged. -/
theorem isCoherent_of_exact_or_apart (q r : Quantity) :
    ((∃ f, q.compare r = .error f) ↔ ∃ f, r.compare q = .error f) ∧
    (q.IsExact r → q.IsCoherent r) ∧
    ∀ m n p t a b, q.measure = some m → r.measure = some n →
      rational? q.value = some p → rational? r.value = some t →
      rational? m.scale = some a → rational? n.scale = some b → 0 < a → 0 < b →
      (InRange (a / b) ∧ InRange (b / a) ∧ Apart a b p t ∨
        ConvertsTo r.value n.scale m.scale t b a ∧ ConvertsTo q.value m.scale n.scale p a b) →
      q.IsCoherent r ∧ (m.text ≠ n.text → m.signature == n.signature →
        q.order? r = some (Ord.compare (p * a) (t * b)) ∧
        r.order? q = some (Ord.compare (t * b) (p * a))) := by
  refine ⟨?_, IsExact.isCoherent, fun m n p t a b hm hn hp ht ha hb hapos hbpos h ↦ ?_⟩
  · simp only [compare_eq_error_iff]
    exact ⟨fun ⟨_, h⟩ ↦ h.exists_swap, fun ⟨_, h⟩ ↦ h.exists_swap⟩
  have horder : m.text ≠ n.text → m.signature == n.signature →
      q.order? r = some (Ord.compare (p * a) (t * b)) ∧
      r.order? q = some (Ord.compare (t * b) (p * a)) := by
    intro htext hsignature
    have hqr := order?_of_amounts (p := p) (t := t) (a := a) (b := b) hm hn htext hsignature
    have hrq := order?_of_amounts (p := t) (t := p) (a := b) (b := a) hn hm htext.symm
      (BEq.symm hsignature)
    rcases h with ⟨hab, hba, hapart⟩ | ⟨hright, hleft⟩
    · exact ⟨hqr (Number.order?_mul_div hp ht ha hb hapos hbpos hba hapart),
        hrq (Number.order?_mul_div ht hp hb ha hbpos hapos hab hapart.symm)⟩
    · -- each direction needs the conversion that is made in it
      exact ⟨hqr (hright.order? hp hapos), hrq (hleft.order? ht hbpos)⟩
  exact ⟨isCoherent_of_amounts hm hn horder, horder⟩

/-- A kilometre and 999 metres, whose amounts are apart; a kilometre and a thousand metres,
which are converted without error and equal in both directions; and kilometres in two spellings.
-/
theorem isCoherent_of_exact_or_apart_kilometre :
    ∃ q r s u, withUnit 1.0 "km" = .ok q ∧ withUnit 999.0 "m" = .ok r ∧
      withUnit 1000.0 "m" = .ok s ∧ withUnit 2.0 "Km" = .ok u ∧
      ((∃ f, q.compare r = .error f) ↔ ∃ f, r.compare q = .error f) ∧
      (q.IsCoherent r ∧ q.order? r = some .gt ∧ r.order? q = some .lt) ∧
      (q.IsCoherent s ∧ q.order? s = some .eq ∧ s.order? q = some .eq) ∧ q.IsCoherent u := by
  have hunits : (withUnit 1.0 "km").toOption.any fun q ↦ (withUnit 999.0 "m").toOption.any fun r ↦
      (withUnit 1000.0 "m").toOption.any fun s ↦ (withUnit 2.0 "Km").toOption.any fun u ↦
        q.measure.any fun m ↦ r.measure.any fun n ↦ u.measure.any fun o ↦
          s.measure = some n && rational? q.value = some 1 && rational? r.value = some 999 &&
          rational? s.value = some 1000 && rational? m.scale = some 1000 &&
          rational? n.scale = some 1 && rational? o.scale = some 1000 &&
          rational? (s.value * (n.scale / m.scale)) = some (1000 * 1 / 1000) &&
          rational? (q.value * (m.scale / n.scale)) = some (1 * 1000 / 1) &&
          m.scale.isFinite && !(m.scale == 0.0) && m.text ≠ n.text &&
          m.signature == n.signature := by decide +kernel
  simp only [Option.any_eq_true, toOption_eq_some_iff, Bool.and_eq_true, decide_eq_true_eq,
    Bool.not_eq_true'] at hunits
  obtain ⟨q, hq, r, hr, s, hs, u, hu, m, hm, n, hn, o, ho, hunits⟩ := hunits
  obtain ⟨⟨⟨⟨⟨⟨⟨⟨⟨⟨⟨⟨hsmeasure, hp⟩, ht⟩, hv⟩, ha⟩, hb⟩, hc⟩, hsconverts⟩, hqconverts⟩, hfinite⟩,
    hzero⟩, htext⟩, hsignature⟩ := hunits
  obtain ⟨hfault, -, hapart⟩ := isCoherent_of_exact_or_apart q r
  -- one metre in a thousand is a larger fraction than that of the roundings
  have hfar : Apart 1000 1 1 999 := by
    have hsmall : (2 : ℚ) ^ (-1073 : ℤ) ≤ 2 ^ (-10 : ℤ) :=
      zpow_le_zpow_right₀ (by norm_num) (by norm_num)
    refine .far (by norm_num) ?_
    exact (mul_le_mul_of_nonneg_right hsmall (by norm_num)).trans (by norm_num)
  obtain ⟨hcoherent, horder⟩ := hapart m n 1 999 1000 1 hm hn hp ht ha hb (by norm_num)
    (by norm_num) (.inl ⟨Number.inRange_of_le (by norm_num) (by norm_num),
      Number.inRange_of_le (by norm_num) (by norm_num), hfar⟩)
  obtain ⟨hgreater, hless⟩ := horder htext hsignature
  obtain ⟨hequal, horderequal⟩ := (isCoherent_of_exact_or_apart q s).2.2 m n 1 1000 1000 1 hm
    hsmeasure hp hv ha hb (by norm_num) (by norm_num) (.inr ⟨hsconverts, hqconverts⟩)
  obtain ⟨hqs, hsq⟩ := horderequal htext hsignature
  have hexact : q.IsExact u := by
    intro m' o' hm' ho'
    obtain rfl : m = m' := Option.some.inj (hm.symm.trans hm')
    obtain rfl : o = o' := Option.some.inj (ho.symm.trans ho')
    exact .inr (.inr ⟨Number.eq_of_rational? ha hc (by norm_num), hfinite, hzero⟩)
  refine ⟨q, r, s, u, hq, hr, hs, hu, hfault, ⟨hcoherent, ?_, ?_⟩, ⟨hequal, ?_, ?_⟩,
    (isCoherent_of_exact_or_apart q u).2.1 hexact⟩
  · rw [hgreater, compare_gt_iff_gt.2 (by norm_num)]
  · rw [hless, compare_lt_iff_lt.2 (by norm_num)]
  · rw [hqs, compare_eq_iff_eq.2 (by norm_num)]
  · rw [hsq, compare_eq_iff_eq.2 (by norm_num)]

/-- One foot equals twelve inches, which do not equal one foot, by rounding of the factor. The
smallest double in metres equals a number of picometres, which do not equal it, as metres have fewer
doubles for so small a length. And zero in a unit whose scale is infinite equals what is converted
to that unit, whereas zero times infinity equals nothing. -/
theorem not_isCoherent :
    (∃ q r, withUnit 1.0 "ft" = .ok q ∧ withUnit 12.0 "in" = .ok r ∧
      (q == r) = true ∧ (r == q) = false) ∧
    (∃ q r, withUnit 5e-324 "m" = .ok q ∧ withUnit 6e-312 "pm" = .ok r ∧
      (q == r) = true ∧ (r == q) = false) ∧
    ∃ q r, withUnit 0.0 ("*".intercalate (List.replicate 26 "Tm")) = .ok q ∧
      withUnit 1.0 "m**26" = .ok r ∧ (q == r) = true ∧ (r == q) = false := by
  have hdiffer : ∀ {x y : Float} {s t : String}, ((withUnit x s).toOption.any fun q ↦
      (withUnit y t).toOption.any fun r ↦ (q == r) && !(r == q)) → ∃ q r, withUnit x s = .ok q ∧
        withUnit y t = .ok r ∧ (q == r) = true ∧ (r == q) = false := by
    intro x y s t h
    simpa only [Option.any_eq_true, toOption_eq_some_iff, Bool.and_eq_true, Bool.not_eq_true',
      exists_and_left] using h
  exact ⟨hdiffer (by decide +kernel), hdiffer (by decide +kernel), hdiffer (by decide +kernel)⟩

end Quantity

end DimensionalAnalysis
