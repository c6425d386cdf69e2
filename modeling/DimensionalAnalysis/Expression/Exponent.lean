import DimensionalAnalysis.Number.Decimal

/-!
# Exponents

A token is an exponent when all of it is a positional numeral. Every other token, the empty
one aside, stands for a unit, also one such as `1e3` or `inf` that other readers take for a
number.
-/

namespace DimensionalAnalysis

/-- The value of a token that is an exponent. -/
def exponent? (token : String) : Option Float :=
  (Decimal.ofPositional? token.toList).map Decimal.toFloat

/-- The token stands for a unit: it is neither empty nor an exponent. -/
def namesUnit (token : String) : Bool :=
  token != "" && (exponent? token).isNone

end DimensionalAnalysis
