import DimensionalAnalysis.Dimension

/-!
# Catalogs of units

A catalog has three tables, each searched from first to last: base units, which measure one
dimension; compound units, which are defined by an expression over other units; and prefixes,
one character each, which multiply either.

A token names a unit when it is the unit's symbol, or else a prefix and the unit's symbol.
The bare reading comes first, so that `min` is a minute and not a milli-inch, and a prefix
alone names nothing.
-/

namespace DimensionalAnalysis

/-- A unit of one dimension. -/
structure BaseUnit where
  symbol : String
  /-- How many SI units of its dimension one unit is. -/
  scale : Float
  dimension : Dimension

/-- A unit defined by an expression. -/
structure CompoundUnit where
  symbol : String
  /-- A factor on top of the expression. -/
  scale : Float
  definition : String

/-- A magnitude written in front of a symbol. -/
structure Prefix where
  letter : Char
  multiplier : Float

/-- The tables by which tokens are read. -/
structure Catalog where
  baseUnits : List BaseUnit
  compoundUnits : List CompoundUnit
  prefixes : List Prefix

namespace Catalog

/-- The multiplier of a prefix character. -/
def multiplier? (c : Catalog) (letter : Char) : Option Float :=
  (c.prefixes.find? fun p ↦ p.letter == letter).map (·.multiplier)

/-- Reads a token against one table: the bare symbol with multiplier one, else the first
character as a prefix and the rest, if any, as the symbol. -/
def lookUp {α : Type} (c : Catalog) (find : String → Option α) (token : String) :
    Option (α × Float) :=
  match find token with
  | some unit => some (unit, 1.0)
  | none =>
    match token.toList with
    | [] => none
    | [_] => none
    | letter :: symbol => do
      let multiplier ← c.multiplier? letter
      let unit ← find (String.ofList symbol)
      pure (unit, multiplier)

/-- The base unit that a token names, and the multiplier of its prefix. -/
def baseUnit? (c : Catalog) (token : String) : Option (BaseUnit × Float) :=
  c.lookUp (fun symbol ↦ c.baseUnits.find? fun u ↦ u.symbol == symbol) token

/-- The compound unit that a token names, and the multiplier of its prefix. -/
def compoundUnit? (c : Catalog) (token : String) : Option (CompoundUnit × Float) :=
  c.lookUp (fun symbol ↦ c.compoundUnits.find? fun u ↦ u.symbol == symbol) token

/-- The token names a compound unit. -/
def isCompound (c : Catalog) (token : String) : Bool :=
  (c.compoundUnit? token).isSome

/-- Every symbol: those of the base units, then those of the compound units. -/
def symbols (c : Catalog) : List String :=
  c.baseUnits.map (·.symbol) ++ c.compoundUnits.map (·.symbol)

end Catalog

end DimensionalAnalysis
