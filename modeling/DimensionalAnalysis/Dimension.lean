/-!
# Base dimensions

The six base dimensions in the order in which every list and every text names them. Current is
not among them: charge is the base dimension, and current is charge over time.
-/

namespace DimensionalAnalysis

/-- A fundamental physical dimension. -/
inductive Dimension where
  | length
  | mass
  | time
  | charge
  | temperature
  | amount
deriving DecidableEq, Repr, Inhabited

namespace Dimension

/-- Every dimension once, in the order in which texts name them. -/
def all : List Dimension :=
  [length, mass, time, charge, temperature, amount]

/-- The list leaves no dimension out, so that what is checked along it holds for every
dimension. -/
@[simp]
theorem mem_all (d : Dimension) : d ∈ all := by
  cases d <;> simp [all]

/-- The name by which texts, messages and interchange know a dimension. -/
def name : Dimension → String
  | length => "Length"
  | mass => "Mass"
  | time => "Time"
  | charge => "Charge"
  | temperature => "Temperature"
  | amount => "Amount"

/-- The dimension of a given name, which is read in exactly the case in which it is written. -/
def ofName? (name : String) : Option Dimension :=
  all.find? fun d ↦ d.name == name

/-- Reading a name undoes writing it; in particular no two dimensions share a name. -/
@[simp]
theorem ofName?_name (d : Dimension) : ofName? d.name = some d := by
  cases d <;> decide

end Dimension

end DimensionalAnalysis
