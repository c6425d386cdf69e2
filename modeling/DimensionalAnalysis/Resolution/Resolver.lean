import DimensionalAnalysis.Catalog.Standard
import DimensionalAnalysis.Expression.Exponent
import DimensionalAnalysis.Expression.Split
import DimensionalAnalysis.Resolution.Basic

/-!
# Resolving expressions

An expression resolves against a catalog token by token. Each side of the division line is a
list of tokens that is folded from the left: a token that names a unit multiplies, and an
exponent raises the unit directly before it. Then the two sides divide.

A base unit resolves to its dimension and scale. A compound unit resolves as its definition
does, times its own scale, so that resolving nests. Nesting is bounded in two ways.

* A compound that is being resolved is **open**, and an open compound is not resolved again:
  its definition leads back to itself.
* No more than `maxDepth` compounds are open at once. The recursion runs on the **room** that
  is left, which makes it structural.

The fold over a list takes the reading of one token as a parameter. It is the same fold at
every depth, and what it does is stated without the catalog.
-/

namespace DimensionalAnalysis

/-! ### Lists of tokens and expressions, for any reading of one token -/

/-- Folds a list of tokens into `acc`. The token before the list is `previous` if it named a
unit, and an exponent at the front raises that one. -/
def resolveList (single : String → Except Fault Resolution) (previous : Option String)
    (acc : Resolution) : List String → Except Fault Resolution
  | [] => .ok acc
  | token :: rest =>
    if token = "" then resolveList single none acc rest
    else match exponent? token with
      | some exponent =>
        match previous with
        | none => .error (.strayNumber token)
        | some unit => do
          let r ← single unit
          resolveList single none (acc.raise r exponent) rest
      | none => do
        let r ← single token
        resolveList single (some token) (acc.times r) rest

/-- Blames a zero scale on the expression as it is written, not on its denominator. -/
def blameZeroScale (expression : String) : Fault → Fault
  | .zeroScale _ => .zeroScale expression
  | fault => fault

/-- Resolves an expression: both sides, and their quotient. -/
def resolveText (single : String → Except Fault Resolution) (expression : String) :
    Except Fault Resolution := do
  let split := Split.ofString expression
  let numerator ← resolveList single none .unity split.numerator
  let denominator ← resolveList single none .unity split.denominator
  (numerator.combine denominator).mapError (blameZeroScale expression)

namespace Catalog

/-! ### Tokens -/

/-- How many compounds may be open at once. -/
def maxDepth : Nat := 16

/-- Resolves a token that names a base unit. -/
def resolveBase (c : Catalog) (token : String) : Except Fault Resolution :=
  match c.baseUnit? token with
  | some (unit, multiplier) => .ok ⟨.of unit.dimension, unit.scale * multiplier⟩
  | none => .error (.unknownUnit token)

/-- Resolves one token, with room for so many compounds inside the open ones. -/
def resolveToken (c : Catalog) : Nat → List String → String → Except Fault Resolution
  | 0, _, token =>
    match c.compoundUnit? token with
    | some (unit, _) => .error (.cycle unit.symbol)
    | none => c.resolveBase token
  | room + 1, opened, token =>
    match c.compoundUnit? token with
    | some (unit, multiplier) =>
      if unit.symbol ∈ opened then .error (.cycle unit.symbol)
      else do
        let r ← resolveText (c.resolveToken room (unit.symbol :: opened)) unit.definition
        pure { r with scale := r.scale * (unit.scale * multiplier) }
    | none => c.resolveBase token

/-- Resolves one token with no compound open. -/
def resolveUnit (c : Catalog) (token : String) : Except Fault Resolution :=
  c.resolveToken maxDepth [] token

/-! ### Entry points -/

/-- Resolves one side of an expression, given as its tokens. -/
def resolveTokens (c : Catalog) (tokens : List String) : Except Fault Resolution :=
  resolveList c.resolveUnit none .unity tokens

/-- Resolves an expression. -/
def resolve (c : Catalog) (expression : String) : Except Fault Resolution :=
  resolveText c.resolveUnit expression

end Catalog

end DimensionalAnalysis
