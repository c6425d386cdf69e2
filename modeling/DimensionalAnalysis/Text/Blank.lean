/-!
# Blank characters

Space around a token carries no meaning. What counts as blank is the Unicode property
`White_Space`, which is wider than ASCII space and holds neither the zero-width space
`U+200B` nor the byte order mark `U+FEFF`.
-/

namespace DimensionalAnalysis.Text

/-- The characters with the property `White_Space`, as inclusive ranges of code points. -/
def blankRanges : List (Nat × Nat) :=
  [(0x0009, 0x000D), (0x0020, 0x0020), (0x0085, 0x0085), (0x00A0, 0x00A0), (0x1680, 0x1680),
   (0x2000, 0x200A), (0x2028, 0x2029), (0x202F, 0x202F), (0x205F, 0x205F), (0x3000, 0x3000)]

/-- The character is white space in the sense of Unicode, be it ASCII or not. -/
def isBlank (c : Char) : Bool :=
  blankRanges.any fun (first, last) ↦ first ≤ c.toNat && c.toNat ≤ last

/-- The text without the blanks at both ends. Blanks between other characters stay, so that
`m s` is one token with a blank in it and not two tokens. -/
def trim (s : List Char) : List Char :=
  ((s.dropWhile isBlank).reverse.dropWhile isBlank).reverse

/-- The string without the blanks at both ends. -/
def trimmed (s : String) : String :=
  String.ofList (trim s.toList)

end DimensionalAnalysis.Text
