import DimensionalAnalysis.Text.Blank

/-!
# Splitting an expression

An expression is cut at every `/` into pieces. Pieces at even positions lie above the
division line and pieces at odd positions below it, so that division is not nested:
`kg/m/s` has `kg` and `s` above and `m` below. Within a piece, `**`, `*` and `^` separate
tokens, two adjacent stars being one separator. Tokens lose the blanks around them, and empty
tokens are kept.

Every text splits. The scan goes through the characters once and from the right, so that what
it holds is always the piece under construction and the finished pieces behind it.
-/

namespace DimensionalAnalysis

/-- The tokens of an expression above and below the division line. -/
structure Split where
  numerator : List String
  denominator : List String
deriving DecidableEq, Repr, Inhabited

namespace Split

/-- What a scan has found from some position to the end of the text: the token that starts
there, the tokens behind it in its piece, and the pieces behind that. -/
structure Scan where
  token : List Char
  tokens : List (List Char)
  pieces : List (List (List Char))

namespace Scan

/-- The scan of the empty text: one piece of one empty token. -/
def nil : Scan := ⟨[], [], []⟩

/-- A character in front belongs to the first token. -/
def extend (c : Char) (s : Scan) : Scan :=
  { s with token := c :: s.token }

/-- A separator in front starts an empty token in the same piece. -/
def separate (s : Scan) : Scan :=
  ⟨[], s.token :: s.tokens, s.pieces⟩

/-- A division mark in front starts a piece with an empty token. -/
def divide (s : Scan) : Scan :=
  ⟨[], [], (s.token :: s.tokens) :: s.pieces⟩

/-- All pieces, each with its tokens. -/
def toPieces (s : Scan) : List (List (List Char)) :=
  (s.token :: s.tokens) :: s.pieces

end Scan

/-- Scans a text from the right. Two adjacent stars are one separator; a third one is a
separator of its own, with an empty token between. -/
def scan : List Char → Scan
  | [] => .nil
  | '/' :: rest => (scan rest).divide
  | '*' :: '*' :: rest => (scan rest).separate
  | '*' :: rest => (scan rest).separate
  | '^' :: rest => (scan rest).separate
  | c :: rest => (scan rest).extend c

/-- The members of a list at even positions. -/
def evens {α : Type} : List α → List α
  | [] => []
  | [a] => [a]
  | a :: _ :: rest => a :: evens rest

/-- The members of a list at odd positions. -/
def odds {α : Type} (l : List α) : List α :=
  evens l.tail

/-- The tokens of some pieces, one after another and without the blanks around them. -/
def tokens (pieces : List (List (List Char))) : List String :=
  pieces.flatten.map fun token ↦ String.ofList (Text.trim token)

/-- Splits an expression. -/
def ofString (expression : String) : Split :=
  let pieces := (scan expression.toList).toPieces
  ⟨tokens (evens pieces), tokens (odds pieces)⟩

end Split

end DimensionalAnalysis
