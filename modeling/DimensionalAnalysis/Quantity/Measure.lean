import DimensionalAnalysis.Expression.Basic
import DimensionalAnalysis.Resolution.Conversion

/-!
# Measures

A measure is the text of a unit together with its resolution. The text is kept as it was
given or as it was composed, and the resolution is computed once.

The products, quotients and inverses of measures compose the text from the terms of the
operands and the resolution from their resolutions. The composed text is not resolved.
-/

namespace DimensionalAnalysis

/-- The text of a unit and what it resolves to. -/
structure Measure where
  text : String
  resolution : Resolution
deriving DecidableEq, Inhabited

namespace Measure

/-- Equal texts and equal resolutions. -/
instance : BEq Measure where
  beq m n := m.text == n.text && m.resolution == n.resolution

/-- The exponents of the base dimensions in the unit. -/
def signature (m : Measure) : Signature := m.resolution.signature

/-- The factor from the unit to the SI unit of its signature. -/
def scale (m : Measure) : Float := m.resolution.scale

/-- The measure of an expression by the standard catalog. -/
def ofString (expression : String) : Except Fault Measure := do
  let r ← Catalog.standard.resolve expression
  pure ⟨expression, r⟩

/-- The factor from values in `m` to values in `target`. -/
def factorTo (m target : Measure) : Except Fault Float :=
  if m.signature == target.signature then .ok (m.scale / target.scale)
  else .error (.mismatch m.text target.text)

/-! ### Composed measures -/

/-- The product of two measures: terms beside terms, signatures added, scales multiplied. Only
the two texts can fail to be read, and they have been read before. -/
def product (m n : Measure) : Except Fault Measure := do
  let left ← Expression.ofString m.text
  let right ← Expression.ofString n.text
  pure ⟨(left.product right).text, m.resolution.times n.resolution⟩

/-- The quotient of two measures: the terms of the right one change sides. It needs a right
measure whose scale is not zero. -/
def quotient (m n : Measure) : Except Fault Measure := do
  let left ← Expression.ofString m.text
  let right ← Expression.ofString n.text
  let r ← m.resolution.combine n.resolution
  pure ⟨(left.quotient right).text, r⟩

/-- The measure of the inverse, which is unity divided by the measure. The text changes sides
within one expression and is not composed of two. -/
def inverted (m : Measure) : Except Fault Measure := do
  let e ← Expression.ofString m.text
  let r ← Resolution.unity.combine m.resolution
  pure ⟨e.inverted.text, r⟩

end Measure

end DimensionalAnalysis
