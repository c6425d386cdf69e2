/-!
# Decimal numerals

A `Decimal` is what a numeral says before it is rounded: a sign, the number its digits spell,
and a power of ten. Rounding happens in one place only, `Decimal.toFloat`, so that exponents in
expressions and plain numbers agree on the value of a numeral. Interchange text has number
formats of its own, of which one reads through `Decimal.toFloat` too.

Two grammars are read here.

* **Positional** numerals are an optional sign and ASCII digits with at most one point among
  them, at least one digit in all. `5.` and `.5` are numerals; `.`, `1.2.3` and `1e3` are not.
* **Scientific** numerals may add a power of ten, `e` or `E` with an optional sign and at least
  one digit.

The sign belongs to the numeral and not to its digits, so that `-0` keeps its sign.
-/

namespace DimensionalAnalysis

/-- The numeral `± digits · 10 ^ exponent`. -/
structure Decimal where
  negative : Bool
  digits : Nat
  exponent : Int
deriving DecidableEq, Repr, Inhabited

namespace Decimal

/-! ### Value -/

/-- The double nearest to the numeral, a tie going to the even one. Beyond the largest double
it is an infinity, and a zero keeps the numeral's sign. -/
def toFloat (d : Decimal) : Float :=
  let magnitude := Float.ofModel (Float.Model.ofScientific d.digits d.exponent)
  if d.negative then -magnitude else magnitude

/-! ### Reading -/

/-- Takes one sign off the front of a numeral; the flag says whether it was a minus. -/
def splitSign : List Char → Bool × List Char
  | '-' :: rest => (true, rest)
  | '+' :: rest => (false, rest)
  | text => (false, text)

/-- Reads digits with at most one point among them, under a sign already read. The places
after the point become the negative exponent. -/
def ofDigits? (negative : Bool) (text : List Char) : Option Decimal :=
  let whole := text.takeWhile Char.isDigit
  match text.dropWhile Char.isDigit with
  | [] =>
    if whole.isEmpty then none
    else some ⟨negative, Nat.ofDigitChars 10 whole 0, 0⟩
  | '.' :: fraction =>
    if fraction.all Char.isDigit && !(whole ++ fraction).isEmpty then
      some ⟨negative, Nat.ofDigitChars 10 (whole ++ fraction) 0, -fraction.length⟩
    else none
  | _ => none

/-- Reads a positional numeral, all of the text. -/
def ofPositional? (text : List Char) : Option Decimal :=
  let (negative, rest) := splitSign text
  ofDigits? negative rest

/-- Reads the power of ten behind an `e`: an optional sign and digits. -/
def powerOfTen? (text : List Char) : Option Int :=
  let (negative, digits) := splitSign text
  if digits.all Char.isDigit && !digits.isEmpty then
    let power : Int := Nat.ofDigitChars 10 digits 0
    some (if negative then -power else power)
  else none

/-- The letters that announce a power of ten. -/
def isPowerMark (c : Char) : Bool :=
  c == 'e' || c == 'E'

/-- Reads a scientific numeral, all of the text. -/
def ofScientific? (text : List Char) : Option Decimal := do
  let (negative, rest) := splitSign text
  let d ← ofDigits? negative (rest.takeWhile fun c ↦ !isPowerMark c)
  match rest.dropWhile fun c ↦ !isPowerMark c with
  | [] => some d
  | _ :: power =>
    let shift ← powerOfTen? power
    some { d with exponent := d.exponent + shift }

end Decimal

end DimensionalAnalysis
