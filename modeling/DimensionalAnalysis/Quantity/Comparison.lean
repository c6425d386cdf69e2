import DimensionalAnalysis.Quantity.Operation

/-!
# Comparing quantities

Two quantities compare by their values in the unit of the left one. Quantities of different
signature have no order, and the checked comparisons say so with a fault, while equality and
the unchecked order answer as for numbers that do not compare.
-/

namespace DimensionalAnalysis.Quantity

/-- The two quantities may be added, compared and converted. -/
def sameDimension (q r : Quantity) : Bool :=
  match q.measure, r.measure with
  | some m, some n => m.signature == n.signature
  | _, _ => true

/-! ### Checked comparison -/

/-- The order of the values, `none` if one of them is a NaN. -/
def compare (q r : Quantity) : Except Fault (Option Ordering) := do
  let (x, y) ← q.align r
  pure (Number.order? x y)

/-- The left value is smaller. Like the three comparisons below it answers false for a NaN and
with a fault for different signatures. -/
def less (q r : Quantity) : Except Fault Bool :=
  (· == some .lt) <$> q.compare r

/-- The left value is smaller or equal; not the negation of greater, since a NaN is neither. -/
def lessOrEqual (q r : Quantity) : Except Fault Bool :=
  (fun o ↦ o == some .lt || o == some .eq) <$> q.compare r

/-- The left value is greater. -/
def greater (q r : Quantity) : Except Fault Bool :=
  (· == some .gt) <$> q.compare r

/-- The left value is greater or equal. -/
def greaterOrEqual (q r : Quantity) : Except Fault Bool :=
  (fun o ↦ o == some .gt || o == some .eq) <$> q.compare r

/-! ### Unchecked comparison -/

/-- Equal values; quantities of different signature are unequal. -/
instance : BEq Quantity where
  beq q r := match q.align r with
    | .ok (x, y) => x == y
    | .error _ => false

/-- The order of the values; quantities of different signature have none. -/
def order? (q r : Quantity) : Option Ordering :=
  match q.compare r with
  | .ok order => order
  | .error _ => none

/-! ### Comparison with plain numbers

A plain number compares with the value, whatever the unit. -/

/-- The value is the number. -/
def equalsNumber (q : Quantity) (x : Float) : Bool := q.value == x

/-- The order of the value and a number. -/
def orderNumber? (q : Quantity) (x : Float) : Option Ordering := Number.order? q.value x

end DimensionalAnalysis.Quantity
