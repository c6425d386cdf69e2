import DimensionalAnalysis.Number.Text
import DimensionalAnalysis.Signature.Basic

/-!
# Signatures as text

A signature is written as its nonzero entries joined by `*`, each a dimension's name with
its exponent behind `^` unless that is one: `Length^2*Mass*Time^-2`. A signature with no
such entry is `dimensionless`.
-/

namespace DimensionalAnalysis.Signature

/-- One entry: the dimension alone for exponent one, else with its exponent. -/
def entryText (d : Dimension) (exponent : Float) : String :=
  if exponent == 1.0 then d.name else d.name ++ "^" ++ Number.text exponent

/-- The text of a signature. Entries that are zero do not show, whether stored or absent, so
that equal signatures have one text. -/
def text (s : Signature) : String :=
  if s.isDimensionless then "dimensionless"
  else "*".intercalate (s.nonzero.map fun (d, x) ↦ entryText d x)

end DimensionalAnalysis.Signature
