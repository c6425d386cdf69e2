import DimensionalAnalysis.Proofs.Fallible
import DimensionalAnalysis.Proofs.Number.Exact
import DimensionalAnalysis.Quantity.Operation

/-!
# Negating an operand

Subtraction is addition of the negative (`Quantity.apply_subtract`), for all quantities, whatever
their units and their values are.

On plain numbers this is how doubles subtract. Between units the negative is not what is added,
since the operand is first converted by a rounded factor. A product is rounded by its magnitude
alone, so that the converted negative is the negative of the converted value, also if that is a
zero or an infinity (`Quantity.align_negate`). Which values are aligned and which unit results does
not depend on a sign.
-/

namespace DimensionalAnalysis.Quantity

/-- Aligning with the negative of a quantity negates the right value, and fails as it does with
the quantity itself. -/
theorem align_negate (q r : Quantity) :
    q.align r.negate = (fun p ↦ (p.1, -p.2)) <$> q.align r := by
  obtain ⟨x, m⟩ := q
  obtain ⟨y, n⟩ := r
  cases m with
  | none => rw [align, align, negate, map_ok]
  | some m =>
    cases n with
    | none => rw [align, align, negate, map_ok]
    | some n =>
      simp only [align, negate]
      -- one text, one signature, or none of both
      split_ifs
      · rw [map_ok]
      · rw [map_ok, Number.neg_mul_left]
      · rw [map_error]

/-- **Subtraction is addition of the negative**, with one outcome for any two quantities: the same
fault, or the same value in the same unit. -/
theorem apply_subtract (q r : Quantity) : q.apply .subtract r = q.apply .add r.negate := by
  have hvalue : ∀ x y, Operation.onNumbers .subtract x y = Operation.onNumbers .add x (-y) := by
    intro x y
    rw [Operation.onNumbers, Operation.onNumbers, Number.sub_eq_add_neg]
  have hmeasure : r.negate.measure = r.measure := rfl
  simp only [apply, align_negate, hvalue, hmeasure]
  cases q.align r with
  | error f => rw [map_error, error_bind, error_bind]
  | ok p => rw [map_ok, ok_bind, ok_bind]

end DimensionalAnalysis.Quantity
