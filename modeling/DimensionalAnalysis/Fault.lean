/-!
# Faults

What can be wrong with an expression or with an operation on quantities, by cause. The
wording is `Fault.message` alone.
-/

namespace DimensionalAnalysis

/-- A fault by its cause, with the texts that its message quotes. -/
inductive Fault where
  /-- Reading terms met a numeral that does not follow a unit. -/
  | strayExponent (token : String)
  /-- Resolving met a numeral that does not follow a unit. -/
  | strayNumber (token : String)
  /-- A token names no unit of the catalog. -/
  | unknownUnit (token : String)
  /-- Two units of different signature were to be brought together. -/
  | mismatch (left right : String)
  /-- An exponent carries a unit. -/
  | exponentWithUnit (unit : String)
  /-- A denominator has the scale zero. -/
  | zeroScale (unit : String)
  /-- A compound unit is defined in terms of itself, or too deeply. -/
  | cycle (symbol : String)
deriving DecidableEq, Repr

namespace Fault

/-- The wording of a fault, which is all that a user of the library gets to see. -/
def message : Fault → String
  | strayExponent token => "Cannot parse unit: exponent " ++ token ++ " does not follow a unit"
  | strayNumber token =>
    "Cannot parse unit: number " ++ token ++ " found before unit, exponents must follow a unit"
  | unknownUnit token => "Unit " ++ token ++ " not found"
  | mismatch left right => "Order of units: " ++ left ++ " and " ++ right ++ " does not match"
  | exponentWithUnit unit => "Cannot raise to power of quantity with units: " ++ unit
  | zeroScale unit => "Unit " ++ unit ++ " has a zero scale denominator"
  | cycle symbol => "Compound unit " ++ symbol ++ " is defined in terms of itself"

end Fault

end DimensionalAnalysis
