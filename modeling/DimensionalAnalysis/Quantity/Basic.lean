import DimensionalAnalysis.Quantity.Measure
import DimensionalAnalysis.Text.Blank

/-!
# Quantities

A quantity is a number with an optional measure. The measure is resolved when it is set, by
the standard catalog. A quantity without a measure is **untyped** and goes along with any
other as a plain number.

Setting a unit reads the expression as terms before it resolves it, since an expression
without any term leaves the quantity untyped. A fault of that first reading is the one
reported.
-/

namespace DimensionalAnalysis

/-- A number with an optional measure. -/
structure Quantity where
  value : Float
  measure : Option Measure
deriving DecidableEq, Inhabited

namespace Quantity

/-! ### Making quantities -/

/-- A number without a measure. -/
def untyped (value : Float) : Quantity := ⟨value, none⟩

/-- Replaces the measure by that of an expression, taken without the blanks around it. An
expression without any unit symbol takes the measure away. -/
def setUnit (q : Quantity) (expression : String) : Except Fault Quantity := do
  let expression := Text.trimmed expression
  let e ← Expression.ofString expression
  if e.isEmpty then pure ⟨q.value, none⟩
  else
    let m ← Measure.ofString expression
    pure ⟨q.value, some m⟩

/-- Takes the measure away. -/
def clearUnit (q : Quantity) : Quantity := ⟨q.value, none⟩

/-- Replaces the measure of the quantity at hand by that of an expression. Nothing is written
before both readings of the expression are done. -/
def assignUnit (expression : String) : ExceptT Fault (StateM Quantity) Unit := do
  let expression := Text.trimmed expression
  let e ← liftExcept (Expression.ofString expression)
  if e.isEmpty then modify clearUnit
  else
    let m ← liftExcept (Measure.ofString expression)
    modify fun q ↦ { q with measure := some m }

/-- A number with the measure of an expression. -/
def withUnit (value : Float) (expression : String) : Except Fault Quantity :=
  (untyped value).setUnit expression

/-! ### Parts -/

/-- The text of the unit. -/
def unit? (q : Quantity) : Option String := q.measure.map (·.text)

/-- The signature of the unit, if there is one. -/
def signature? (q : Quantity) : Option Signature := q.measure.map (·.signature)

/-- The scale of the unit, if there is one. -/
def scale? (q : Quantity) : Option Float := q.measure.map (·.scale)

/-- There is no measure. -/
def isUntyped (q : Quantity) : Bool := q.measure.isNone

/-- The value in the SI unit of the same signature. -/
def siValue (q : Quantity) : Float := q.value * q.scale?.getD 1.0

/-- The value, and the unit behind a blank. -/
def text (q : Quantity) : String :=
  match q.unit? with
  | some unit => Number.text q.value ++ " " ++ unit
  | none => Number.text q.value

/-! ### Changing one quantity -/

/-- The quantity expressed in `target`. An untyped quantity stays as it is, whatever the
target. -/
def convert (q : Quantity) (target : String) : Except Fault Quantity :=
  match q.measure with
  | none => .ok q
  | some m => do
    let n ← Measure.ofString (Text.trimmed target)
    let factor ← m.factorTo n
    pure ⟨q.value * factor, some n⟩

/-- One over the quantity. -/
def invert (q : Quantity) : Except Fault Quantity :=
  match q.measure with
  | none => .ok ⟨1.0 / q.value, none⟩
  | some m => do
    let n ← m.inverted
    pure ⟨1.0 / q.value, some n⟩

/-- The value with its sign changed. -/
def negate (q : Quantity) : Quantity := { q with value := -q.value }

/-- The value times a plain number. -/
def scaleBy (q : Quantity) (factor : Float) : Quantity := { q with value := q.value * factor }

/-- The value divided by a plain number. -/
def divideBy (q : Quantity) (divisor : Float) : Quantity := { q with value := q.value / divisor }

/-- The value to the power of a plain number. The measure is not raised along with it. -/
def raiseTo (q : Quantity) (exponent : Float) : Quantity :=
  { q with value := Number.power q.value exponent }

end Quantity

end DimensionalAnalysis
