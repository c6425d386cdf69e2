import DimensionalAnalysis.Resolution.Resolver

/-!
# Conversion between expressions

Two expressions of equal signature convert into one another by a factor, the quotient of
their scales. Nothing is assumed about the scales: the factor between expressions that
resolve may be zero, infinite or a NaN.
-/

namespace DimensionalAnalysis.Catalog

/-- The factor from a value in `source` to the value in `target`. -/
def conversionFactor (c : Catalog) (source target : String) : Except Fault Float := do
  let s ← c.resolve source
  let t ← c.resolve target
  if s.signature == t.signature then pure (s.scale / t.scale)
  else .error (.mismatch source target)

/-- The value in `target` of a value in `source`. -/
def convert (c : Catalog) (value : Float) (source target : String) : Except Fault Float := do
  let factor ← c.conversionFactor source target
  pure (value * factor)

/-- The two expressions have equal signatures. -/
def sameDimension (c : Catalog) (left right : String) : Except Fault Bool := do
  let l ← c.resolve left
  let r ← c.resolve right
  pure (l.signature == r.signature)

end DimensionalAnalysis.Catalog
