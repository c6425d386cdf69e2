/-!
# Arithmetic on doubles beyond the four operations

Truncation and remainder are exact on doubles, so both are integer computations on the
significands: a double is `± m · 2 ^ e`, and two doubles over a common power of two divide
like integers. The power is the platform's, with its two identities stated: any base to the
power zero and one to any power are one, whatever the other argument is.
-/

namespace DimensionalAnalysis.Number

open Float.Model (UnpackedFloat Format)
open Float.Model.UnpackedFloat (Sign)

/-- The double `± significand · 2 ^ exponent`, which has to be representable; a zero takes
the sign. -/
def scaled (sign : Sign) (significand : Nat) (exponent : Int) : Float :=
  .ofModel (.pack (UnpackedFloat.normalize Format.binary64 (sign.apply significand) exponent sign))

/-- The number without its fraction, rounded toward zero. -/
def truncate (x : Float) : Float :=
  match x.toModel.unpack with
  | .finite sign m e _ => if 0 ≤ e then x else scaled sign (m / Nat.pow 2 (-e).toNat) 0
  | _ => x

/-- The remainder of the division truncated toward zero, without rounding. It has the sign
of the dividend, also when it is zero. -/
def remainder (x y : Float) : Float :=
  match x.toModel.unpack, y.toModel.unpack with
  | .finite sign m e _, .finite _ n f _ =>
    let common := min e f
    scaled sign ((m * Nat.pow 2 (e - common).toNat) % (n * Nat.pow 2 (f - common).toNat)) common
  | .finite .., .infinity _ => x
  | .zero _, .finite .. => x
  | .zero _, .infinity _ => x
  | _, _ => 0.0 / 0.0

/-- `x` to the power `y`. -/
def power (x y : Float) : Float :=
  if y == 0.0 || x == 1.0 then 1.0 else x.pow y

/-- The order of two numbers: a NaN has none with any number, and the two zeros are equal. -/
def order? (x y : Float) : Option Ordering :=
  if x < y then some .lt
  else if x == y then some .eq
  else if y < x then some .gt
  else none

end DimensionalAnalysis.Number
