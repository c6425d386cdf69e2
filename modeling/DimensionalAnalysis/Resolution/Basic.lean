import DimensionalAnalysis.Fault
import DimensionalAnalysis.Number.Arithmetic
import DimensionalAnalysis.Signature.Text

/-!
# Resolutions

A resolution is what an expression amounts to: a signature, and the factor from the unit to
the SI unit of that signature. Resolutions multiply, are raised to the powers that exponents
ask for, and divide.
-/

namespace DimensionalAnalysis

/-- A signature and the factor to its SI unit. -/
structure Resolution where
  signature : Signature
  scale : Float
deriving DecidableEq

namespace Resolution

/-- Dimensionless, of scale one. -/
def unity : Resolution := ⟨.empty, 1.0⟩

instance : Inhabited Resolution := ⟨unity⟩

/-- Equal signatures and equal scales, as signatures and numbers compare. -/
instance : BEq Resolution where
  beq r t := r.signature == t.signature && r.scale == t.scale

/-- The product of two resolutions. -/
def times (r t : Resolution) : Resolution :=
  ⟨r.signature + t.signature, r.scale * t.scale⟩

/-- The product with the power of a unit that is already in it once: an exponent `n` adds
`n - 1` to the unit's own contribution. -/
def raise (r unit : Resolution) (exponent : Float) : Resolution :=
  ⟨r.signature + unit.signature.scaled (exponent - 1.0),
    r.scale * Number.power unit.scale (exponent - 1.0)⟩

/-- The quotient of two resolutions, which needs a scale other than zero below the line. -/
def combine (numerator denominator : Resolution) : Except Fault Resolution :=
  if denominator.scale == 0.0 then .error (.zeroScale denominator.signature.text)
  else .ok ⟨numerator.signature - denominator.signature, numerator.scale / denominator.scale⟩

end Resolution

end DimensionalAnalysis
