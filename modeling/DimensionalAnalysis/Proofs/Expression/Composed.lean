import DimensionalAnalysis.Proofs.Expression.Text

/-!
# Reading what was written

Expressions are read from texts, or put together from others by arithmetic (`Composed`). However
one was put together, its text reads, and what is read is the expression itself exactly when its
exponents are finite (`ofString_text_of_composed`). Equal expressions have equal doubles for
exponents, bit for bit, so that negative zeros and the last digit are kept.

The exponents that are not finite are lost by the first reading, which takes the words written
for them for symbols. From then on nothing changes.

How an expression came about matters for its symbols only: a symbol that was read is a token,
and arithmetic makes no new ones. A symbol that was put into an expression by other means might
hold a star and would not be read back.
-/

namespace DimensionalAnalysis.Expression

/-- The expressions that are read from texts or put together from such. -/
inductive Composed : Expression → Prop
  | ofString {s e} (h : Expression.ofString s = .ok e) : Composed e
  | product {e f} (he : Composed e) (hf : Composed f) : Composed (e.product f)
  | quotient {e f} (he : Composed e) (hf : Composed f) : Composed (e.quotient f)
  | inverted {e} (he : Composed e) : Composed e.inverted

/-- The symbols of a composed expression are tokens that stand for units. -/
theorem Composed.isReadable {e : Expression} (h : Composed e) : e.IsReadable := by
  induction h with
  | ofString h => exact isReadable_of_ofString h
  | product _ _ ihe ihf => exact ihe.product ihf
  | quotient _ _ ihe ihf => exact ihe.quotient ihf
  | inverted _ ihe => exact ihe.inverted

/-- **Reading is inverse to writing** on expressions with finite exponents, and on no others:
the text reads as the expression that it was written for, so that writing what was read gives
the same text. With any exponents the text reads, and what is read is then what its own text
says.

Finite exponents are read back since their texts are numerals of the same doubles. What is read
has finite exponents only, which is why no other expression can be read back. -/
theorem ofString_text_of_composed {e : Expression} (h : Composed e) :
    (e.IsFinite ↔ ofString e.text = .ok e) ∧
      (e.IsFinite → ∀ f, ofString e.text = .ok f → f.text = e.text) ∧
      ∃ f, ofString e.text = .ok f ∧ ofString f.text = .ok f := by
  have hread : ofString e.text = .ok e.reread := ofString_text h.isReadable
  have hfinite : e.IsFinite → ofString e.text = .ok e := ofString_text_of_finite h.isReadable
  refine ⟨⟨hfinite, fun hself ↦ ?_⟩, fun he f hf ↦ ?_, e.reread, hread, ?_⟩
  · have hreread : e.reread = e := by
      rw [hread] at hself
      exact Except.ok.inj hself
    exact hreread ▸ isFinite_reread e
  · rw [hfinite he] at hf
    rw [Except.ok.inj hf]
  · exact ofString_text_of_finite (isReadable_of_ofString hread) (isFinite_reread e)

/-- A negative zero, a fraction, and a large and a small exponent, in the product of an inverse
with an expression that has nothing above the line. -/
theorem ofString_text_of_composed_inverse :
    let e : Expression :=
      ⟨[⟨"m", some 0.0⟩, ⟨"kg", some 0.1⟩, ⟨"s", some 1e23⟩, ⟨"A", some (-1e-9)⟩], []⟩
    let f : Expression := ⟨[], [⟨"K", some (-2.5)⟩]⟩
    let text := "m**-0*kg**-0.1*s**-100000000000000000000000*A**0.000000001/K**-2.5"
    ofString "m**0*kg^0.1*s**100000000000000000000000*A**-.000000001" = .ok e ∧
      ofString "/K**-02.50" = .ok f ∧ (e.inverted.product f).IsFinite ∧
      (e.inverted.product f).text = text ∧ ofString text = .ok (e.inverted.product f) := by
  intro e f text
  have he : ofString "m**0*kg^0.1*s**100000000000000000000000*A**-.000000001" = .ok e := by
    decide +kernel
  have hf : ofString "/K**-02.50" = .ok f := by decide +kernel
  have hfinite : (e.inverted.product f).IsFinite := by
    unfold IsFinite
    decide +kernel
  have htext : (e.inverted.product f).text = text := by decide +kernel
  -- the text was composed from two readings, and is read by the theorem
  have hcomposed : Composed (e.inverted.product f) :=
    .product (.inverted (.ofString he)) (.ofString hf)
  have hread := (ofString_text_of_composed hcomposed).1.1 hfinite
  exact ⟨he, hf, hfinite, htext, htext ▸ hread⟩

end DimensionalAnalysis.Expression
