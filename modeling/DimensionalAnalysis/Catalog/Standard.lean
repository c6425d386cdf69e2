import DimensionalAnalysis.Catalog.Basic

/-!
# The standard catalog

Each dimension has an SI unit of scale one: metre, kilogram, second, coulomb, kelvin, mole.
The ampere is compound, a coulomb per second. The kilogram is a unit of its own and not a
prefixed gram.
-/

namespace DimensionalAnalysis.Catalog

/-- The prefixes. `K` and `k` both stand for a thousand, and there is no prefix below `p`. -/
def standardPrefixes : List Prefix :=
  [⟨'T', 1e12⟩, ⟨'G', 1e9⟩, ⟨'M', 1e6⟩, ⟨'K', 1e3⟩, ⟨'k', 1e3⟩, ⟨'d', 0.1⟩, ⟨'c', 0.01⟩,
   ⟨'m', 0.001⟩, ⟨'u', 1e-6⟩, ⟨'n', 1e-9⟩, ⟨'p', 1e-12⟩]

/-- The base units by dimension, the SI unit of each dimension first. -/
def standardBaseUnits : List BaseUnit :=
  [⟨"m", 1.0, .length⟩, ⟨"ft", 0.3048, .length⟩, ⟨"in", 0.0254, .length⟩,
   ⟨"miles", 1609.344, .length⟩,
   ⟨"s", 1.0, .time⟩, ⟨"min", 60.0, .time⟩, ⟨"hr", 3600.0, .time⟩, ⟨"day", 86400.0, .time⟩,
   ⟨"kg", 1.0, .mass⟩, ⟨"g", 0.001, .mass⟩, ⟨"lb", 0.45359237, .mass⟩,
   ⟨"C", 1.0, .charge⟩,
   ⟨"K", 1.0, .temperature⟩,
   ⟨"mol", 1.0, .amount⟩]

/-- The compound units, each of scale one on top of its definition. A definition may name other
compounds: the watt is defined by the joule and the volt by both the watt and the ampere. -/
def standardCompoundUnits : List CompoundUnit :=
  [⟨"A", 1.0, "C/s"⟩,
   ⟨"J", 1.0, "kg*m**2/s**2"⟩,
   ⟨"N", 1.0, "kg*m/s**2"⟩,
   ⟨"W", 1.0, "J/s"⟩,
   ⟨"Pa", 1.0, "N/m**2"⟩,
   ⟨"V", 1.0, "W/A"⟩,
   ⟨"Hz", 1.0, "/s"⟩]

/-- The catalog of SI units and a few others. -/
def standard : Catalog :=
  ⟨standardBaseUnits, standardCompoundUnits, standardPrefixes⟩

end DimensionalAnalysis.Catalog
