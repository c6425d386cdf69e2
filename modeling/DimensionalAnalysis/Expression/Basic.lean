import DimensionalAnalysis.Expression.Exponent
import DimensionalAnalysis.Expression.Split
import DimensionalAnalysis.Fault
import DimensionalAnalysis.Number.Text

/-!
# Unit expressions

An expression is read as terms above and below the division line, a term being a unit symbol
with an optional exponent. Reading needs no catalog: it settles which exponent belongs to
which symbol and nothing else. An exponent belongs to the token directly before it in the
same list of tokens, which has to stand for a unit.

Expressions multiply, divide and invert term by term, without cancelling, and are written
back as text. This is how the units of computed quantities get their text.
-/

namespace DimensionalAnalysis

/-- A unit symbol with an optional exponent. -/
structure Term where
  symbol : String
  exponent : Option Float
deriving DecidableEq, Inhabited

/-- Terms above and below the division line. -/
structure Expression where
  numerator : List Term
  denominator : List Term
deriving DecidableEq, Inhabited

namespace Term

/-- The term with its exponent negated. No exponent stands for one, and becomes minus one;
minus one becomes no exponent. -/
def reciprocal (t : Term) : Term :=
  match t.exponent with
  | none => ⟨t.symbol, some (-1.0)⟩
  | some x => ⟨t.symbol, if x == -1.0 then none else some (-x)⟩

/-- The term as it stands in an expression, the exponent behind two stars. -/
def text (t : Term) : String :=
  match t.exponent with
  | none => t.symbol
  | some x => t.symbol ++ "**" ++ Number.text x

/-- Reads the terms of a list of tokens: empty tokens are passed over, and an exponent is
taken together with the unit before it. -/
def ofTokens : List String → Except Fault (List Term)
  | [] => .ok []
  | token :: rest =>
    if token = "" then ofTokens rest
    else if (exponent? token).isSome then .error (.strayExponent token)
    else match rest with
      | [] => .ok [⟨token, none⟩]
      | next :: rest' =>
        match exponent? next with
        | some x => (ofTokens rest').map (⟨token, some x⟩ :: ·)
        | none => (ofTokens (next :: rest')).map (⟨token, none⟩ :: ·)

/-- The text of terms between two division marks. -/
def listText (terms : List Term) : String :=
  "*".intercalate (terms.map text)

end Term

namespace Expression

/-! ### Reading and writing -/

/-- Reads an expression, the terms above the line first. -/
def ofString (s : String) : Except Fault Expression := do
  let split := Split.ofString s
  let numerator ← Term.ofTokens split.numerator
  let denominator ← Term.ofTokens split.denominator
  pure ⟨numerator, denominator⟩

/-- The text of an expression; a division mark stands only before terms below the line. -/
def text (e : Expression) : String :=
  if e.denominator.isEmpty then Term.listText e.numerator
  else Term.listText e.numerator ++ "/" ++ Term.listText e.denominator

/-- No term on either side. -/
def isEmpty (e : Expression) : Bool :=
  e.numerator.isEmpty && e.denominator.isEmpty

/-! ### Arithmetic -/

/-- Above and below the line change places. With nothing below the line every term is
replaced by its reciprocal instead. -/
def inverted (e : Expression) : Expression :=
  if e.denominator.isEmpty then ⟨e.numerator.map Term.reciprocal, []⟩
  else ⟨e.denominator, e.numerator⟩

/-- The terms of both expressions on their sides, those of the left one first. Nothing cancels and
nothing is collected. -/
def product (e f : Expression) : Expression :=
  ⟨e.numerator ++ f.numerator, e.denominator ++ f.denominator⟩

/-- As the product, but the terms of the right expression change sides, exponents and all. -/
def quotient (e f : Expression) : Expression :=
  ⟨e.numerator ++ f.denominator, e.denominator ++ f.numerator⟩

end Expression

end DimensionalAnalysis
