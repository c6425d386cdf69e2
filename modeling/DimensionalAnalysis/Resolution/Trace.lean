import DimensionalAnalysis.Resolution.Conversion

/-!
# Traces

A trace lists the steps of a resolution: after each token the signature and scale reached so
far, the steps inside a compound before the step of its token. A trace ends where the
resolution fails.

Traces follow the resolver's recursion and take every value from the resolver itself, so that
resolving stays free of them.
-/

namespace DimensionalAnalysis

namespace Trace

/-- A line of a trace that reports the resolution reached after `step`. -/
def stepLine (step : String) (r : Resolution) : String :=
  "TRACE " ++ step ++ ": " ++ r.signature.text ++ " x " ++ Number.text r.scale

/-- The step of an exponent, as it is reported. -/
def powerText (unit : String) (exponent : Float) : String :=
  unit ++ "**" ++ Number.text exponent

/-- The line that reports a conversion factor. -/
def factorLine (source target : String) (factor : Float) : String :=
  "DEBUG conversion factor " ++ source ++ " -> " ++ target ++ ": " ++ Number.text factor

/-- The lines of `resolveList`, where `inner` gives the lines inside one token. -/
def listLines (single : String → Except Fault Resolution) (inner : String → List String)
    (previous : Option String) (acc : Resolution) : List String → List String
  | [] => []
  | token :: rest =>
    if token = "" then listLines single inner none acc rest
    else match exponent? token with
      | some exponent =>
        match previous with
        | none => []
        | some unit =>
          inner unit ++ match single unit with
            | .error _ => []
            | .ok r =>
              let next := acc.raise r exponent
              stepLine (powerText unit exponent) next :: listLines single inner none next rest
      | none =>
        inner token ++ match single token with
          | .error _ => []
          | .ok r =>
            let next := acc.times r
            stepLine token next :: listLines single inner (some token) next rest

/-- The lines of `resolveText`. -/
def textLines (single : String → Except Fault Resolution) (inner : String → List String)
    (expression : String) : List String :=
  let split := Split.ofString expression
  listLines single inner none .unity split.numerator ++
    match resolveList single none .unity split.numerator with
    | .error _ => []
    | .ok _ => listLines single inner none .unity split.denominator

end Trace

namespace Catalog

/-- The lines of `resolveToken`: those of the definition of a compound. -/
def tokenLines (c : Catalog) : Nat → List String → String → List String
  | 0, _, _ => []
  | room + 1, opened, token =>
    match c.compoundUnit? token with
    | some (unit, _) =>
      if unit.symbol ∈ opened then []
      else
        let opened := unit.symbol :: opened
        Trace.textLines (c.resolveToken room opened) (c.tokenLines room opened) unit.definition
    | none => []

/-- The trace of `resolve`. -/
def resolveLines (c : Catalog) (expression : String) : List String :=
  Trace.textLines c.resolveUnit (c.tokenLines maxDepth []) expression

/-- The trace of `conversionFactor`: those of the two expressions, then the factor. -/
def conversionLines (c : Catalog) (source target : String) : List String :=
  c.resolveLines source ++
    match c.resolve source with
    | .error _ => []
    | .ok _ =>
      c.resolveLines target ++
        match c.conversionFactor source target with
        | .error _ => []
        | .ok factor => [Trace.factorLine source target factor]

end Catalog

end DimensionalAnalysis
