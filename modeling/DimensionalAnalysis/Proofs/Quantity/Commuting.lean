import DimensionalAnalysis.Proofs.Quantity.Faults
import DimensionalAnalysis.Proofs.Signature.Exact

/-!
# Exchanging factors

The text of a product has the factors in the order in which they came, so that exchanging the
operands changes it. What does not change are the terms above and below its line, up to their order,
and all that is computed: values and scales multiply like doubles, which commute, whatever their
values are. Two measures that agree in this way are **rearrangements** of one another
(`Measure.Rearranges`).

Signatures are summed in two ways, since a dimension that only one of the operands has is stored on
the left and added to a zero on the right. The sums are equal wherever they are numbers.

Operands of equal text are an exception, because the left unit stays. Their scales need not be
equal.
-/

namespace DimensionalAnalysis

/-- Reading back keeps the terms of two lists that differ by their order. -/
theorem Expression.reread_product_perm (e f : Expression) :
    (e.product f).reread.numerator.Perm (f.product e).reread.numerator ∧
      (e.product f).reread.denominator.Perm (f.product e).reread.denominator :=
  ⟨List.perm_append_comm.flatMap_right _, List.perm_append_comm.flatMap_right _⟩

namespace Measure

variable {m n p p' : Measure}

/-- The scales are equal, and the texts have the same terms above and below the line, up to
their order. Equality of scales is that of doubles, without any tolerance. -/
structure Rearranges (m n : Measure) : Prop where
  scale_eq : m.scale = n.scale
  terms_perm : ∃ e f, Expression.ofString m.text = .ok e ∧ Expression.ofString n.text = .ok f ∧
    e.numerator.Perm f.numerator ∧ e.denominator.Perm f.denominator

/-- A measure that can be read is a rearrangement of itself. -/
theorem Rearranges.refl (hm : m.IsReadable) : m.Rearranges m := by
  obtain ⟨e, he⟩ := hm
  exact ⟨rfl, e, e, he, he, .refl _, .refl _⟩

/-- The products in either order are rearrangements. -/
theorem rearranges_product (hp : m.product n = .ok p) (hp' : n.product m = .ok p') :
    p.Rearranges p' := by
  obtain ⟨e, f, he, hf, hread⟩ := ofString_of_product hp
  obtain ⟨f', e', hf', he', hread'⟩ := ofString_of_product hp'
  obtain rfl := Except.ok.inj (he.symm.trans he')
  obtain rfl := Except.ok.inj (hf.symm.trans hf')
  -- the texts are those of the same two expressions, joined in either order
  refine ⟨?_, _, _, hread, hread', e.reread_product_perm f⟩
  obtain ⟨_, _, _, _, rfl⟩ := product_eq_ok_iff.1 hp
  obtain ⟨_, _, _, _, rfl⟩ := product_eq_ok_iff.1 hp'
  exact Number.mul_swap m.scale n.scale

/-- The signatures of the products in either order are equal, unless a sum of exponents is not
finite. The entries of the one are the sums of the other with exchanged terms, with a zero where
an operand has no entry. -/
theorem beq_signature_of_product
    (hsum : ∀ d, (m.signature.get d + n.signature.get d).isFinite) (hp : m.product n = .ok p)
    (hp' : n.product m = .ok p') : p.signature == p'.signature := by
  obtain ⟨_, _, _, _, rfl⟩ := product_eq_ok_iff.1 hp
  obtain ⟨_, _, _, _, rfl⟩ := product_eq_ok_iff.1 hp'
  exact Signature.add_beq_swap (Signature.isFinite_add hsum)

end Measure

namespace Quantity

variable {q r : Quantity} {m n : Option Measure}

/-- The optional signatures are finite, and so are the sums of their exponents. -/
structure AddUp (s t : Option Signature) : Prop where
  left : ∀ a ∈ s, a.IsFinite
  right : ∀ b ∈ t, b.IsFinite
  sum : ∀ a ∈ s, ∀ b ∈ t, ∀ d, (a.get d + b.get d).isFinite

/-- Exchanging the operands rearranges the measure of a product. Without a measure on one of the
sides, it is that of the other in both orders. -/
theorem exists_productMeasure_swap (hm : ∀ k ∈ m, k.IsReadable) (hn : ∀ k ∈ n, k.IsReadable)
    (hne : ∀ k ∈ m, ∀ l ∈ n, k.text ≠ l.text) :
    ∃ u v, productMeasure m n = .ok u ∧ productMeasure n m = .ok v ∧
      Option.Rel Measure.Rearranges u v ∧
      (AddUp (m.map (·.signature)) (n.map (·.signature)) →
        Option.Rel (fun k l ↦ k.signature == l.signature) u v) ∧
      (m = none ∨ n = none → u = v) := by
  cases m with
  | none =>
    cases n with
    | none => exact ⟨none, none, rfl, rfl, .none, fun _ ↦ .none, fun _ ↦ rfl⟩
    | some n =>
      exact ⟨some n, some n, rfl, rfl, .some (.refl (hn n rfl)),
        fun h ↦ .some (Signature.beq_self_iff.2 (h.right _ rfl)), fun _ ↦ rfl⟩
  | some m =>
    cases n with
    | none =>
      exact ⟨some m, some m, rfl, rfl, .some (.refl (hm m rfl)),
        fun h ↦ .some (Signature.beq_self_iff.2 (h.left _ rfl)), fun _ ↦ rfl⟩
    | some n =>
      have htext := hne m rfl n rfl
      obtain ⟨p, hp⟩ := Measure.exists_product_ok (hm m rfl) (hn n rfl)
      obtain ⟨p', hp'⟩ := Measure.exists_product_ok (hn n rfl) (hm m rfl)
      refine ⟨some p, some p', ?_, ?_, .some (Measure.rearranges_product hp hp'),
        fun h ↦ .some (Measure.beq_signature_of_product (h.sum _ rfl _ rfl) hp hp'),
        by simp⟩
      · rw [productMeasure, if_neg htext, hp, map_ok]
      · rw [productMeasure, if_neg htext.symm, hp', map_ok]

/-- **Multiplication commutes up to the order of the factors in the text.** For quantities of runs
that do not have one and the same unit text, both products exist, with one value, and their units
are rearrangements. Their signatures are equal if all sums of exponents are finite, and the units
are the same if one of the quantities has none. -/
theorem apply_multiply_swap {cs ds : List Command} (hq : q ∈ Command.run cs)
    (hr : r ∈ Command.run ds)
    (hne : ∀ m ∈ q.measure, ∀ n ∈ r.measure, m.text ≠ n.text) :
    ∃ p p', q.apply .multiply r = .ok p ∧ r.apply .multiply q = .ok p' ∧ p.value = p'.value ∧
      Option.Rel Measure.Rearranges p.measure p'.measure ∧
      (AddUp q.signature? r.signature? →
        Option.Rel (fun m n ↦ m.signature == n.signature) p.measure p'.measure) ∧
      (q.isUntyped ∨ r.isUntyped → p.measure = p'.measure) := by
  obtain ⟨u, v, hu, hv, hterms, hsignature, huntyped⟩ :=
    exists_productMeasure_swap (isReadable_of_mem_run hq) (isReadable_of_mem_run hr) hne
  refine ⟨⟨q.value * r.value, u⟩, ⟨r.value * q.value, v⟩, ?_, ?_, Number.mul_swap _ _, hterms,
    hsignature, fun h ↦ huntyped ?_⟩
  · rw [apply, hu, ok_bind]
    rfl
  · rw [apply, hv, ok_bind]
    rfl
  · simpa only [isUntyped, Option.isNone_iff_eq_none] using h

/-- An acceleration times a mass and a length, and the other way round. -/
theorem apply_multiply_swap_acceleration :
    ∃ cs, ∃ q ∈ Command.run cs, ∃ r ∈ Command.run cs,
      (∀ m ∈ q.measure, ∀ n ∈ r.measure, m.text ≠ n.text) ∧
      ∃ p p', q.apply .multiply r = .ok p ∧ r.apply .multiply q = .ok p' ∧ p.value = p'.value ∧
        p.unit? = some "km*kg*ft/s**2" ∧ p'.unit? = some "kg*ft*km/s**2" ∧
        Option.Rel Measure.Rearranges p.measure p'.measure ∧
        Option.Rel (fun m n ↦ m.signature == n.signature) p.measure p'.measure := by
  obtain ⟨cs, hcs⟩ : ∃ cs : List Command,
    cs = [.withUnit 0.1 "km/s**2", .withUnit 3.0 "kg*ft"] := ⟨_, rfl⟩
  have hoperands : (Command.run cs)[0]?.any fun q ↦ (Command.run cs)[1]?.any fun r ↦
      (q.measure.any fun m ↦ r.measure.any fun n ↦ m.text != n.text &&
        Dimension.all.all fun d ↦ (m.signature.get d).isFinite && (n.signature.get d).isFinite &&
          (m.signature.get d + n.signature.get d).isFinite) &&
      ((q.apply .multiply r).toOption.any (·.unit? = some "km*kg*ft/s**2") &&
        (r.apply .multiply q).toOption.any (·.unit? = some "kg*ft*km/s**2")) := by
    rw [hcs]
    decide +kernel
  simp only [Option.any_eq_true, Bool.and_eq_true, bne_iff_ne, decide_eq_true_eq,
    List.all_eq_true, Dimension.mem_all, forall_const] at hoperands
  obtain ⟨q, hq, r, hr, ⟨m, hm, n, hn, hne, hfinite⟩, ⟨p, hp, hunit⟩, p', hp', hunit'⟩ := hoperands
  have hq := List.mem_of_getElem? hq
  have hr := List.mem_of_getElem? hr
  have htexts : ∀ k ∈ q.measure, ∀ l ∈ r.measure, k.text ≠ l.text := by simpa [hm, hn] using hne
  have haddUp : AddUp q.signature? r.signature? := by
    rw [signature?, signature?, hm, hn]
    constructor <;> simp [Signature.IsFinite, hfinite]
  obtain ⟨_, _, hproduct, hproduct', hvalue, hterms, hsignature, -⟩ :=
    apply_multiply_swap hq hr htexts
  obtain rfl := Except.ok.inj (hproduct.symm.trans (toOption_eq_some_iff.1 hp))
  obtain rfl := Except.ok.inj (hproduct'.symm.trans (toOption_eq_some_iff.1 hp'))
  exact ⟨cs, q, hq, r, hr, htexts, _, _, hproduct, hproduct', hvalue, hunit, hunit', hterms,
    hsignature haddUp⟩

end Quantity

end DimensionalAnalysis
