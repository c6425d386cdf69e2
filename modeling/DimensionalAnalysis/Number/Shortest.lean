import DimensionalAnalysis.Number.Decimal

/-!
# The shortest decimal of a double

Among the decimals that read back as a given double, the shortest is a multiple of the
largest power of ten that has such a multiple. The search therefore goes through the grids
of multiples of `10 ^ e` from coarse to fine and stops at the first grid where one of the
value's two neighbours reads back.

* Only the two neighbours need a test: if any point of a grid reads back, so does the
  neighbour on its side, since it lies between that point and the value.
* The nearer neighbour is tried first, and of two equally near ones the upper.
* A double is a dyadic fraction, hence itself a decimal (`exact`), which is where a search
  that found nothing would end.
-/

namespace DimensionalAnalysis.Decimal

/-- The two multiples of `10 ^ grid` around `num / den`, divided by `10 ^ grid`: the nearer
one first, and the upper one first when they are equally near. -/
def neighbours (num den : Nat) (grid : Int) : List Nat :=
  let n := num * Nat.pow 10 (-grid).toNat
  let d := den * Nat.pow 10 grid.toNat
  let below := n / d
  if 2 * (n % d) < d then [below, below + 1] else [below + 1, below]

/-- The neighbour of `± num / den` on a grid that reads back as `x`, the nearer one first. -/
def hit? (x : Float) (negative : Bool) (num den : Nat) (grid : Int) : Option Decimal :=
  ((neighbours num den grid).map fun n ↦ ⟨negative, n, grid⟩).find? fun d ↦ d.toFloat = x

/-- The decimal equal to `± significand · 2 ^ exponent`. -/
def exact (negative : Bool) (significand : Nat) (exponent : Int) : Decimal :=
  ⟨negative, significand * Nat.pow 2 exponent.toNat * Nat.pow 5 (-exponent).toNat,
    min exponent 0⟩

/-- A power of ten above `significand · 2 ^ exponent`, by the common logarithm of two
rounded up. -/
def gridAbove (significand : Nat) (exponent : Int) : Int :=
  (significand.log2 + 1 + exponent) * 30103 / 100000 + 1

/-- How many grids are searched: seventeen digits always suffice for a double, and
`gridAbove` starts less than three digits above them. -/
def gridCount : Nat := 20

/-- The shortest decimal that reads back as the finite double `x`; of several the nearest,
and of two equally near ones the larger in magnitude. -/
def shortest (x : Float) : Decimal :=
  match x.toModel.unpack with
  | .finite sign significand exponent _ =>
    let negative := sign == .negative
    let num := significand * Nat.pow 2 exponent.toNat
    let den := Nat.pow 2 (-exponent).toNat
    let top := gridAbove significand exponent
    let found := (List.range gridCount).findSome? fun (i : Nat) ↦
      hit? x negative num den (top - i)
    found.getD (exact negative significand exponent)
  | .zero sign => ⟨sign == .negative, 0, 0⟩
  | .infinity sign => ⟨sign == .negative, 0, 0⟩
  | .notANumber => ⟨false, 0, 0⟩

end DimensionalAnalysis.Decimal
