import DimensionalAnalysis.Number.Text

/-!
# Number formats

JSON says what a numeral looks like, but neither which numeral a double is written as nor which
double a numeral is read as. Libraries answer both in their own ways: the digits that are written
may be the fewest ones or more, and a reader may be content with a double nearby. What goes through
an interchange text is therefore stated for any **number format**, which is such a pair of answers.

One of them is at hand, `NumberFormat.exact`. It writes the fewest digits that read back, in
positional notation from `1e-5` up to, but not including, `1e16` and as a scientific numeral
outside; a whole number in positional notation has a point and a zero behind it. It reads the
closest double.
-/

namespace DimensionalAnalysis.Json

/-- How doubles are written as numerals, and numerals are read as doubles. -/
structure NumberFormat where
  /-- The numeral of a double. Only finite doubles are written. -/
  write : Float → List Char
  /-- The double of a numeral, an infinity if the numeral is out of range. -/
  read : List Char → Float

/-! ### Shortest digits -/

/-- A decimal as a scientific numeral with one digit before the point. -/
def scientificText (digits : List Char) (power : Int) : List Char :=
  let places := digits.drop 1
  digits.take 1 ++ (if places.isEmpty then [] else '.' :: places) ++ 'e' ::
    (if power < 0 then ['-'] else []) ++ Nat.toDigits 10 power.natAbs

/-- The text of a decimal as a JSON number. -/
def numeralText (d : Decimal) : List Char :=
  let digits := Nat.toDigits 10 d.digits
  let point := digits.length + d.exponent
  if -5 < point ∧ point ≤ 16 then
    d.positional ++ if 0 ≤ d.exponent then ['.', '0'] else []
  else d.signText ++ scientificText digits (point - 1)

/-- The fewest digits that read back, and the closest double. A text that is no numeral is read
as a NaN. -/
def NumberFormat.exact : NumberFormat where
  write x := numeralText (Decimal.shortest x)
  read numeral := ((Decimal.ofScientific? numeral).map Decimal.toFloat).getD (0.0 / 0.0)

end DimensionalAnalysis.Json
