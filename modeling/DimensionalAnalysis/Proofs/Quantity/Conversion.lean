import DimensionalAnalysis.Proofs.Quantity.Rereading
import DimensionalAnalysis.Proofs.Resolution.Equivalence

/-!
# Three ways to convert

A value is converted by the catalog from one expression to another, by a quantity that is asked for
another unit, and by a sum that brings its right operand into the unit of the left one. Each of them
checks the signatures and takes the factor by itself. They agree (`Quantity.conversions_agree`): all
compare the same two signatures, in one order or the other, and divide the scale that is left by the
one that is arrived at. Comparing in the other order decides the same, since equality of signatures
is symmetric, and shows in the fault alone, which names the texts in the order compared.

A sum does not look at the signatures of one text. For that text the others give the value back, if
the scale is a number other than zero: its quotient by itself is one, and so is the factor.
-/

namespace DimensionalAnalysis

namespace Catalog

variable {source target : String} {s t : Resolution}

/-- A catalog converts between two texts that resolve by the quotient of their scales. -/
theorem convert_eq (c : Catalog) (v : Float) (hs : c.resolve source = .ok s)
    (ht : c.resolve target = .ok t) :
    c.convert v source target =
      if s.signature == t.signature then .ok (v * (s.scale / t.scale))
      else .error (.mismatch source target) := by
  rw [convert, conversionFactor_eq c hs ht]
  cases s.signature == t.signature <;> rfl

/-- A target that does not resolve is the fault, whatever the source is. -/
theorem convert_eq_error (c : Catalog) (v : Float) {f : Fault} (hs : c.resolve source = .ok s)
    (ht : c.resolve target = .error f) : c.convert v source target = .error f := by
  rw [convert, conversionFactor, hs, ok_bind, ht, error_bind, error_bind]

end Catalog

namespace Quantity

open Catalog (standard)

variable {v w : Float} {source target : String} {s t : Resolution}

/-- A quantity is converted to a unit that resolves as the catalog converts. -/
theorem convert_eq (htarget : Text.trimmed target = target) (ht : standard.resolve target = .ok t) :
    (⟨v, some ⟨source, s⟩⟩ : Quantity).convert target =
      if s.signature == t.signature then .ok ⟨v * (s.scale / t.scale), some ⟨target, t⟩⟩
      else .error (.mismatch source target) := by
  have hm : Measure.ofString (Text.trimmed target) = .ok ⟨target, t⟩ :=
    Measure.ofString_eq_ok_iff.2 ⟨htarget.symm ▸ ht, htarget⟩
  have hfactor : (⟨source, s⟩ : Measure).factorTo ⟨target, t⟩ =
      if s.signature == t.signature then .ok (s.scale / t.scale)
      else .error (.mismatch source target) := rfl
  simp only [convert, hm, ok_bind, hfactor]
  by_cases h : s.signature == t.signature
  · rw [if_pos h, if_pos h, ok_bind, pure_eq_ok]
  · rw [if_neg h, if_neg h, error_bind]

/-- A sum brings its right operand into the unit of the left one as the catalog converts, except
that a fault names the two units the other way round. -/
theorem apply_add_eq (hne : target ≠ source) :
    (⟨w, some ⟨target, t⟩⟩ : Quantity).apply .add ⟨v, some ⟨source, s⟩⟩ =
      if s.signature == t.signature then .ok ⟨w + v * (s.scale / t.scale), some ⟨target, t⟩⟩
      else .error (.mismatch target source) := by
  have hcomm : (t.signature == s.signature) = (s.signature == t.signature) := BEq.comm
  simp only [apply, align, Measure.signature, Measure.scale, if_neg hne, hcomm]
  cases s.signature == t.signature <;> rfl

/-- **The ways to convert agree.** A quantity that is converted and the catalog have the same
value or the same fault, also where the target does not resolve. A sum has the converted value
for its summand, or the fault with the texts exchanged. And converting to the same text changes
nothing, if the text has finite exponents and a finite scale other than zero.

The values are the same double and not only close, since all three multiply by the same quotient
of scales. They may be infinite or no numbers at all. -/
theorem conversions_agree {e : Expression} (v w : Float) (hsource : Text.trimmed source = source)
    (htarget : Text.trimmed target = target) (hs : standard.resolve source = .ok s)
    (he : Expression.ofString source = .ok e) (hne : e.isEmpty = false) :
    ∃ q, withUnit v source = .ok q ∧
      (·.value) <$> q.convert target = standard.convert v source target ∧
      (∀ t f, standard.resolve target = .ok t → Expression.ofString target = .ok f →
        f.isEmpty = false → target ≠ source → ∃ p, withUnit w target = .ok p ∧
          ((∃ x, standard.convert v source target = .ok x ∧
              p.apply .add q = .ok ⟨w + x, some ⟨target, t⟩⟩) ∨
            standard.convert v source target = .error (.mismatch source target) ∧
              p.apply .add q = .error (.mismatch target source))) ∧
      (target = source → s.signature.IsFinite → s.scale.isFinite → (s.scale == 0.0) = false →
        q.convert target = .ok q ∧ standard.convert v source target = .ok v) := by
  have hset : ∀ {x : Float} {text : String} {r : Resolution} {f : Expression},
      Text.trimmed text = text → standard.resolve text = .ok r →
      Expression.ofString text = .ok f → f.isEmpty = false →
      withUnit x text = .ok ⟨x, some ⟨text, r⟩⟩ := by
    intro x text r f htext hr hf hne
    rw [withUnit, setUnit_of_resolve hf hne hr, htext, untyped]
  refine ⟨_, hset hsource hs he hne, ?_, fun t f ht hf hne' htext ↦ ?_, ?_⟩
  · cases ht : standard.resolve target with
    | error f =>
      rw [standard.convert_eq_error v hs ht, convert]
      have hm : Measure.ofString (Text.trimmed target) = .error f := by
        rw [Measure.ofString, htarget, ht, error_bind]
      simp only [hm, error_bind]
      rfl
    | ok t =>
      rw [standard.convert_eq v hs ht, convert_eq htarget ht]
      cases s.signature == t.signature <;> rfl
  · refine ⟨_, hset htarget ht hf hne', ?_⟩
    rw [standard.convert_eq v hs ht, apply_add_eq htext]
    cases s.signature == t.signature with
    | true => exact .inl ⟨_, rfl, rfl⟩
    | false => exact .inr ⟨rfl, rfl⟩
  · rintro rfl hsignature hfinite hzero
    have hself : s.signature == s.signature := Signature.beq_self_iff.2 hsignature
    rw [standard.convert_eq v hs hs, convert_eq htarget hs, if_pos hself, if_pos hself,
      Number.mul_div_self hfinite hzero]
    exact ⟨rfl, rfl⟩

/-- Feet and inches, in a sum and by themselves. -/
theorem conversions_agree_feet_inches :
    ∃ q p r x, withUnit 3.0 "ft" = .ok q ∧ withUnit 1.0 "in" = .ok p ∧ q.convert "in" = .ok r ∧
      r.value = x ∧ standard.convert 3.0 "ft" "in" = .ok x ∧
      (·.value) <$> p.apply .add q = .ok (1.0 + x) ∧
      q.convert "ft" = .ok q ∧ standard.convert 3.0 "ft" "ft" = .ok 3.0 := by
  have hfoot : Text.trimmed "ft" = "ft" := by decide
  have hinch : Text.trimmed "in" = "in" := by decide
  have hfootTerms : Expression.ofString "ft" = .ok ⟨[⟨"ft", none⟩], []⟩ := by decide +kernel
  have hinchTerms : Expression.ofString "in" = .ok ⟨[⟨"in", none⟩], []⟩ := by decide +kernel
  obtain ⟨s, hs, hfinite, hzero⟩ : ∃ s, standard.resolve "ft" = .ok s ∧ s.scale.isFinite ∧
      (s.scale == 0.0) = false := by
    have hresolve : (standard.resolve "ft").toOption.any fun s ↦
        s.scale.isFinite && !(s.scale == 0.0) := by decide +kernel
    simpa [Option.any_eq_true, toOption_eq_some_iff] using hresolve
  obtain ⟨t, ht⟩ := exists_ok_of_isOk (x := standard.resolve "in") (by decide +kernel)
  have hself : standard.sameDimension "ft" "ft" = .ok true := by decide +kernel
  have hsignature : s.signature.IsFinite := by
    rw [Catalog.sameDimension_eq _ hs hs, Except.ok.injEq] at hself
    exact Signature.beq_self_iff.1 hself
  have hboth : standard.sameDimension "ft" "in" = .ok true := by decide +kernel
  rw [Catalog.sameDimension_eq _ hs ht, Except.ok.injEq] at hboth
  obtain ⟨q, hq, hvalue, hsum, -⟩ := conversions_agree 3.0 1.0 hfoot hinch hs hfootTerms rfl
  obtain ⟨q', hq', -, -, hsame⟩ := conversions_agree 3.0 1.0 hfoot hfoot hs hfootTerms rfl
  obtain rfl : q = q' := Except.ok.inj (hq.symm.trans hq')
  -- the summand is what the catalog converts, and the fault is excluded by the signatures
  obtain ⟨p, hp, hadd⟩ := hsum t _ ht hinchTerms rfl (by decide)
  obtain ⟨x, hx, hadd⟩ | ⟨hx, -⟩ := hadd
  · rw [hx] at hvalue
    cases hr : q.convert "in" with
    | error f => simp [hr] at hvalue
    | ok r =>
      rw [hr] at hvalue
      exact ⟨q, p, r, x, hq, hp, hr, Except.ok.inj hvalue, hx, by rw [hadd]; rfl,
        hsame rfl hsignature hfinite hzero⟩
  · rw [standard.convert_eq 3.0 hs ht, if_pos hboth] at hx
    simp at hx

end Quantity

end DimensionalAnalysis
