import DimensionalAnalysis.Quantity.Basic

/-!
# Operations on two quantities

Sums, differences and remainders bring the right operand into the unit of the left one.
Products and quotients compose a unit, except that two operands with the same unit text keep
that unit. A power needs a plain exponent and keeps the unit of its base.

An untyped operand counts as a plain number in the unit of the other.
-/

namespace DimensionalAnalysis

/-- The operations on two quantities, by the sign between them. -/
inductive Operation where
  | add
  | subtract
  | multiply
  | divide
  | remainder
  | power
deriving DecidableEq, Repr, Inhabited

/-- The operation on plain numbers. -/
def Operation.onNumbers : Operation → Float → Float → Float
  | add, x, y => x + y
  | subtract, x, y => x - y
  | multiply, x, y => x * y
  | divide, x, y => x / y
  | remainder, x, y => Number.remainder x y
  | power, x, y => Number.power x y

namespace Quantity

/-- The two values in one unit, that of the left operand. Equal unit texts need no factor,
and different ones need equal signatures. -/
def align (q r : Quantity) : Except Fault (Float × Float) :=
  match q.measure, r.measure with
  | some m, some n =>
    if m.text = n.text then .ok (q.value, r.value)
    else if m.signature == n.signature then .ok (q.value, r.value * (n.scale / m.scale))
    else .error (.mismatch m.text n.text)
  | _, _ => .ok (q.value, r.value)

/-- The measure of a product. -/
def productMeasure : Option Measure → Option Measure → Except Fault (Option Measure)
  | some m, some n => if m.text = n.text then .ok (some m) else some <$> m.product n
  | some m, none => .ok (some m)
  | none, some n => .ok (some n)
  | none, none => .ok none

/-- The measure of a quotient. -/
def quotientMeasure : Option Measure → Option Measure → Except Fault (Option Measure)
  | some m, some n => if m.text = n.text then .ok (some m) else some <$> m.quotient n
  | some m, none => .ok (some m)
  | none, some n => some <$> n.inverted
  | none, none => .ok none

/-- Applies an operation. -/
def apply (op : Operation) (q r : Quantity) : Except Fault Quantity :=
  match op with
  | .add | .subtract => do
    let (x, y) ← q.align r
    pure ⟨op.onNumbers x y, q.measure <|> r.measure⟩
  | .remainder => do
    let (x, y) ← q.align r
    pure ⟨op.onNumbers x y, none⟩
  | .multiply => do
    let m ← productMeasure q.measure r.measure
    pure ⟨op.onNumbers q.value r.value, m⟩
  | .divide => do
    let m ← quotientMeasure q.measure r.measure
    pure ⟨op.onNumbers q.value r.value, m⟩
  | .power =>
    match r.measure with
    | some m => .error (.exponentWithUnit m.text)
    | none => .ok ⟨op.onNumbers q.value r.value, q.measure⟩

/-- The truncated quotient and the remainder of the values in one unit. -/
def divMod (q r : Quantity) : Except Fault (Float × Float) := do
  let (x, y) ← q.align r
  pure (Number.truncate (x / y), Number.remainder x y)

end Quantity

end DimensionalAnalysis
