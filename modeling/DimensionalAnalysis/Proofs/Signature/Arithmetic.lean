import DimensionalAnalysis.Proofs.Signature.NormalForm

/-!
# The arithmetic of signatures and their equality

Sums, differences, negatives and multiples of signatures treat an exponent that is stored, one
that is a stored zero and one that is absent each in a way of its own. Nothing of this shows in
the exponents of the result, which are those that doubles give (`Signature.Pointwise`). Since a
double that is rounded depends on the value alone that is rounded, and not on the signs of
zeros, equal operands give equal results (`Signature.Congruent`), and some laws of numbers hold
of signatures as well (`Signature.Laws`).

All of it is about finite signatures with a finite result, as an exponent that overflows is not
equal to itself. The condition is asked of each result alone, where it is needed: a negative
cannot overflow, and neither can the difference of a signature and itself.
-/

namespace DimensionalAnalysis.Signature

open Number (rational?)

variable {s s' t t' : Signature} {d : Dimension} {k : Float} {p : ℚ}

/-! ### Exponents of the results -/

/-- The exponents of the negative are the negatives of exponents. -/
theorem rational?_get_neg_eq (s : Signature) (d : Dimension) :
    rational? ((-s).get d) = rational? (-s.get d) := by
  rw [← Number.mul_negOne]
  exact rational?_get_scaled_eq s Number.rational?_negOne d

/-- Negating exponents is exact. -/
theorem rational?_get_neg (hs : rational? (s.get d) = some p) :
    rational? ((-s).get d) = some (-p) := by
  rw [rational?_get_neg_eq, Number.rational?_neg hs]

/-- The negative of a finite signature is finite. -/
theorem IsFinite.neg (hs : s.IsFinite) : (-s).IsFinite := by
  rw [isFinite_iff] at hs ⊢
  intro d
  rw [rational?_get_neg_eq, Number.isSome_rational?_neg]
  exact hs d

/-- The exponents of results are the results of exponents, as numbers. -/
structure Pointwise (s t : Signature) (k : Float) : Prop where
  add : (s + t).IsFinite → ∀ d, (s + t).get d == s.get d + t.get d
  sub : (s - t).IsFinite → ∀ d, (s - t).get d == s.get d - t.get d
  neg : ∀ d, (-s).get d == -s.get d
  mul : (s * k).IsFinite → ∀ d, (s * k).get d == s.get d * k

/-- The operations are those of doubles, exponent by exponent. -/
theorem pointwise (hs : s.IsFinite) (hk : k.isFinite) : Pointwise s t k where
  add h d := Number.beq_of_rational?_eq (isFinite_iff.1 h d) (rational?_get_add_eq s t d)
  sub h d := Number.beq_of_rational?_eq (isFinite_iff.1 h d) (rational?_get_sub_eq s t d)
  neg d := Number.beq_of_rational?_eq (isFinite_iff.1 hs.neg d) (rational?_get_neg_eq s d)
  mul h d := by
    obtain ⟨q, hq⟩ := Number.exists_rational?_of_isFinite hk
    exact Number.beq_of_rational?_eq (isFinite_iff.1 h d) (rational?_get_scaled_eq s hq d)

/-! ### Equal operands -/

/-- Equal sums of exponents are rounded to equal numbers. -/
theorem add_congr (hs : s == s') (ht : t == t') (h : (s + t).IsFinite) : s + t == s' + t' := by
  rw [beq_iff_rational?_get h]
  intro d
  obtain ⟨p, hp, hp'⟩ := beq_iff.1 hs d
  obtain ⟨q, hq, hq'⟩ := beq_iff.1 ht d
  rw [rational?_get_add_eq, rational?_get_add_eq]
  exact (Number.nearest_add hp hq).valueOf_unique (Number.nearest_add hp' hq')

/-- Equal differences of exponents are rounded to equal numbers. -/
theorem sub_congr (hs : s == s') (ht : t == t') (h : (s - t).IsFinite) : s - t == s' - t' := by
  rw [beq_iff_rational?_get h]
  intro d
  obtain ⟨p, hp, hp'⟩ := beq_iff.1 hs d
  obtain ⟨q, hq, hq'⟩ := beq_iff.1 ht d
  rw [rational?_get_sub_eq, rational?_get_sub_eq]
  exact (Number.nearest_sub hp hq).valueOf_unique (Number.nearest_sub hp' hq')

/-- Equal exponents have equal negatives. -/
theorem neg_congr (hs : s == s') : -s == -s' := by
  rw [beq_iff]
  intro d
  obtain ⟨p, hp, hp'⟩ := beq_iff.1 hs d
  exact ⟨-p, rational?_get_neg hp, rational?_get_neg hp'⟩

/-- Equal multiples of exponents are rounded to equal numbers. -/
theorem mul_congr (hs : s == s') (hk : k.isFinite) (h : (s * k).IsFinite) : s * k == s' * k := by
  rw [beq_iff_rational?_get h]
  intro d
  obtain ⟨p, hp, hp'⟩ := beq_iff.1 hs d
  obtain ⟨q, hq⟩ := Number.exists_rational?_of_isFinite hk
  have hproduct : rational? (s.get d * k) = rational? (s'.get d * k) :=
    (Number.nearest_mul hp hq).valueOf_unique (Number.nearest_mul hp' hq)
  exact (rational?_get_scaled_eq s hq d).trans
    (hproduct.trans (rational?_get_scaled_eq s' hq d).symm)

/-- Results of equal operands are equal, whatever zeros the operands store. -/
structure Congruent (s s' t t' : Signature) (k : Float) : Prop where
  add : (s + t).IsFinite → s + t == s' + t'
  sub : (s - t).IsFinite → s - t == s' - t'
  neg : -s == -s'
  mul : (s * k).IsFinite → s * k == s' * k

/-- Equality is a congruence for the four operations. -/
theorem congruent (hs : s == s') (ht : t == t') (hk : k.isFinite) : Congruent s s' t t' k where
  add := add_congr hs ht
  sub := sub_congr hs ht
  neg := neg_congr hs
  mul := mul_congr hs hk

/-! ### Laws -/

/-- Subtracting is adding the negative. -/
theorem sub_beq_add_neg (hs : s.IsFinite) (ht : t.IsFinite) (h : (s - t).IsFinite) :
    s - t == s + -t := by
  rw [beq_iff_rational?_get h]
  intro d
  obtain ⟨p, hp⟩ := Option.isSome_iff_exists.1 (isFinite_iff.1 hs d)
  obtain ⟨q, hq⟩ := Option.isSome_iff_exists.1 (isFinite_iff.1 ht d)
  rw [rational?_get_sub_eq, rational?_get_add_eq, Number.sub_eq_add_neg]
  exact (Number.nearest_add hp (Number.rational?_neg hq)).valueOf_unique
    (Number.nearest_add hp (rational?_get_neg hq))

/-- Negating twice changes no exponent. -/
theorem neg_neg_beq (hs : s.IsFinite) : - -s == s := by
  rw [beq_iff]
  intro d
  obtain ⟨p, hp⟩ := Option.isSome_iff_exists.1 (isFinite_iff.1 hs d)
  have hneg := rational?_get_neg (rational?_get_neg hp)
  rw [neg_neg] at hneg
  exact ⟨p, hneg, hp⟩

/-- Collecting the stored entries in any order gives the signature again. -/
theorem ofList_beq_of_perm (hs : s.IsFinite) {l : List (Dimension × Float)} (h : l.Perm s.toList) :
    ofList l == s := by
  refine BEq.symm ((beq_iff_rational?_get hs).2 fun d ↦ ?_)
  rw [get, get, entry_ofList_of_perm h]
  cases s.entry d with
  | none => rfl
  | some x => exact (Number.rational?_zero_add x).symm

/-- Laws of numbers that signatures keep. -/
structure Laws (s t : Signature) : Prop where
  add_comm : (s + t).IsFinite → s + t == t + s
  sub_eq_add_neg : (s - t).IsFinite → s - t == s + -t
  neg_neg : - -s == s
  sub_self : (s - s).isDimensionless
  ofList_perm : ∀ l : List (Dimension × Float), l.Perm s.toList → ofList l == s

/-- The laws, each under the condition that its own result is finite. -/
theorem laws (hs : s.IsFinite) (ht : t.IsFinite) : Laws s t where
  add_comm := add_beq_swap
  sub_eq_add_neg := sub_beq_add_neg hs ht
  neg_neg := neg_neg_beq hs
  sub_self := isDimensionless_sub.2 (beq_self_iff.2 hs)
  ofList_perm _ := ofList_beq_of_perm hs

/-- **The arithmetic of finite signatures is that of doubles, exponent by exponent, and respects
equality**, as long as no exponent of the result overflows.

So a signature may be replaced by an equal one anywhere in a computation, whatever zeros it
stores, and dimensions may be added up in the order that suits. -/
theorem arithmetic_of_isFinite (hs : s.IsFinite) (ht : t.IsFinite) (hk : k.isFinite) :
    Pointwise s t k ∧ (∀ s' t', s == s' → t == t' → Congruent s s' t t' k) ∧ Laws s t :=
  ⟨pointwise hs hk, fun _ _ hs' ht' ↦ congruent hs' ht' hk, laws hs ht⟩

/-- A force and an energy with zeros stored, halved and added up. -/
theorem arithmetic_of_isFinite_force :
    ∃ s t s' : Signature, s ≠ s' ∧ s.text = "Length*Mass*Time^-2" ∧
      t.text = "Length^2*Mass*Time^-2" ∧ Pointwise s t 0.5 ∧ Congruent s s' t t 0.5 ∧ Laws s t ∧
      s + t == s' + t ∧ s - t == s + -t ∧ s * 0.5 == s' * 0.5 := by
  obtain ⟨s, hs⟩ : ∃ s, s = ofList [(.mass, 1.0), (.length, 1.0), (.time, -2.0), (.charge, 0.0)] :=
    ⟨_, rfl⟩
  obtain ⟨s', hs'⟩ : ∃ s', s' = ofList [(.time, -2.0), (.mass, 1.0), (.amount, -0.0),
    (.length, 1.0)] := ⟨_, rfl⟩
  obtain ⟨t, ht⟩ : ∃ t, t = s + of .length := ⟨_, rfl⟩
  have hfinite : ∀ u ∈ [s, t, s + t, s - t, s * 0.5], u.IsFinite := by
    have hall : [s, t, s + t, s - t, s * 0.5].all fun u ↦
        Dimension.all.all fun d ↦ (u.get d).isFinite := by
      rw [ht, hs]
      decide +kernel
    simpa [IsFinite] using hall
  have hequal : s ≠ s' ∧ s == s' ∧ (0.5 : Float).isFinite ∧ s.text = "Length*Mass*Time^-2" ∧
      t.text = "Length^2*Mass*Time^-2" := by
    rw [ht, hs, hs']
    decide +kernel
  obtain ⟨hne, hbeq, hk, htext, htext'⟩ := hequal
  have htFinite := hfinite t (by simp)
  obtain ⟨hpointwise, hcongruent, hlaws⟩ :=
    arithmetic_of_isFinite (hfinite s (by simp)) htFinite hk
  have hcongruent := hcongruent s' t hbeq (beq_self_iff.2 htFinite)
  exact ⟨s, t, s', hne, htext, htext', hpointwise, hcongruent, hlaws,
    hcongruent.add (hfinite _ (by simp)), hlaws.sub_eq_add_neg (hfinite _ (by simp)),
    hcongruent.mul (hfinite _ (by simp))⟩

end DimensionalAnalysis.Signature
