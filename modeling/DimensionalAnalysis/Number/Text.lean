import DimensionalAnalysis.Number.Shortest

/-!
# Numbers as text

A number is written in positional notation with the fewest digits that read back, never with
a power of ten: `1e21` is `1000000000000000000000` and `1e-7` is `0.0000001`. A whole number
has no point, and a negative zero keeps its sign. `NaN`, `inf` and `-inf` stand for
themselves.

`Number.ofText?` reads everything that `Number.text` writes, and scientific numerals too.
-/

namespace DimensionalAnalysis

namespace Decimal

/-- The digits of a decimal with its point in place, for `places` digits behind the point. -/
def placePoint (digits : List Char) (places : Nat) : List Char :=
  if places < digits.length then
    digits.take (digits.length - places) ++ '.' :: digits.drop (digits.length - places)
  else
    '0' :: '.' :: (List.replicate (places - digits.length) '0' ++ digits)

/-- The sign of a decimal as it is written. -/
def signText (d : Decimal) : List Char :=
  if d.negative then ['-'] else []

/-- The decimal in positional notation, every zero of a large power of ten written out. -/
def positional (d : Decimal) : List Char :=
  let digits := Nat.toDigits 10 d.digits
  d.signText ++
    if 0 ≤ d.exponent then digits ++ List.replicate d.exponent.toNat '0'
    else placePoint digits (-d.exponent).toNat

end Decimal

namespace Number

/-- The text of a number. -/
def text (x : Float) : String :=
  if x.isNaN then "NaN"
  else if x.isInf then (if x < 0.0 then "-inf" else "inf")
  else String.ofList (Decimal.shortest x).positional

/-- Reads the words for the numbers that have no digits, in any case. -/
def ofWord? (word : List Char) : Option Float :=
  match String.ofList (word.map Char.toLower) with
  | "inf" => some (1.0 / 0.0)
  | "infinity" => some (1.0 / 0.0)
  | "nan" => some (0.0 / 0.0)
  | _ => none

/-- Reads a number: a scientific numeral, or a word with an optional sign. -/
def ofText? (s : String) : Option Float :=
  match Decimal.ofScientific? s.toList with
  | some d => some d.toFloat
  | none =>
    let (negative, word) := Decimal.splitSign s.toList
    (ofWord? word).map fun x ↦ if negative then -x else x

end Number

end DimensionalAnalysis
