import DimensionalAnalysis.Json.Basic

/-!
# Reading JSON

The grammar is the strict one: no comments, no trailing commas, no leading zeros, no control
characters inside strings, and only space, tab and line ends between tokens. Nesting has no
limit.

`Json.read` takes one value off the front of a text and leaves the rest to the caller, who
may have something to say about the value before the rest of the text is looked at.

The reader recurses on fuel. Each value takes a character at least, and at most two calls are
made per character, so twice the length of the text suffices (`Json.read`).
-/

namespace DimensionalAnalysis.Json

/-! ### Space -/

/-- The four characters that may stand between tokens; other white space is an error. -/
def isSpace (c : Char) : Bool :=
  c == ' ' || c == '\t' || c == '\n' || c == '\r'

/-- Drops the space at the front. -/
def skipSpace (text : List Char) : List Char := text.dropWhile isSpace

/-! ### Strings -/

/-- The value of a hexadecimal digit in either case. -/
def hexDigit? (c : Char) : Option Nat :=
  if c.isDigit then some (c.toNat - '0'.toNat)
  else if 'a' ≤ c ∧ c ≤ 'f' then some (c.toNat - 'a'.toNat + 10)
  else if 'A' ≤ c ∧ c ≤ 'F' then some (c.toNat - 'A'.toNat + 10)
  else none

/-- The number spelled by four hexadecimal digits. -/
def hex4? (a b c d : Char) : Option Nat := do
  let digits ← [a, b, c, d].mapM hexDigit?
  pure (digits.foldl (fun n digit ↦ 16 * n + digit) 0)

/-- The code point that a character stands for behind a backslash. -/
def escape? : Char → Option Nat
  | '\"' => some 0x22
  | '\\' => some 0x5C
  | '/' => some 0x2F
  | 'b' => some 0x08
  | 'f' => some 0x0C
  | 'n' => some 0x0A
  | 'r' => some 0x0D
  | 't' => some 0x09
  | _ => none

/-- Puts a code point in front of others. A high surrogate in front of a low one makes one
code point of the two. -/
def joinSurrogates (point : Nat) : List Nat → List Nat
  | low :: rest =>
    if 0xD800 ≤ point ∧ point < 0xDC00 ∧ 0xDC00 ≤ low ∧ low < 0xE000 then
      (0x10000 + (point - 0xD800) * 0x400 + (low - 0xDC00)) :: rest
    else point :: low :: rest
  | [] => [point]

/-- Reads a string behind its opening quote. -/
def readString : List Char → Option (List Nat × List Char)
  | [] => none
  | '\"' :: rest => some ([], rest)
  | '\\' :: 'u' :: a :: b :: c :: d :: rest => do
    let point ← hex4? a b c d
    let (points, rest) ← readString rest
    pure (joinSurrogates point points, rest)
  | '\\' :: c :: rest => do
    let point ← escape? c
    let (points, rest) ← readString rest
    pure (point :: points, rest)
  | c :: rest =>
    if c.toNat < 0x20 then none
    else do
      let (points, rest) ← readString rest
      pure (c.toNat :: points, rest)

/-! ### Numbers -/

/-- Takes digits off the front, at least one. -/
def readDigits (text : List Char) : Option (List Char × List Char) :=
  let digits := text.takeWhile Char.isDigit
  if digits.isEmpty then none else some (digits, text.dropWhile Char.isDigit)

/-- Takes the whole part of a numeral: a zero alone, or digits that start with another. -/
def readWhole : List Char → Option (List Char × List Char)
  | '0' :: rest => some (['0'], rest)
  | text => readDigits text

/-- Takes the places behind a point, if there is one. -/
def readPlaces : List Char → Option (List Char × List Char)
  | '.' :: rest => do
    let (digits, rest) ← readDigits rest
    pure ('.' :: digits, rest)
  | text => some ([], text)

/-- Takes a power of ten, if there is one. -/
def readPower : List Char → Option (List Char × List Char)
  | c :: rest =>
    if Decimal.isPowerMark c then
      match rest with
      | '-' :: rest => do
        let (digits, rest) ← readDigits rest
        pure (c :: '-' :: digits, rest)
      | '+' :: rest => do
        let (digits, rest) ← readDigits rest
        pure (c :: '+' :: digits, rest)
      | rest => do
        let (digits, rest) ← readDigits rest
        pure (c :: digits, rest)
    else some ([], c :: rest)
  | [] => some ([], [])

/-- Takes a numeral without its sign. -/
def readUnsigned (text : List Char) : Option (List Char × List Char) := do
  let (whole, text) ← readWhole text
  let (places, text) ← readPlaces text
  let (power, text) ← readPower text
  pure (whole ++ places ++ power, text)

/-- Takes a numeral with its sign, which may only be a minus. -/
def readNumeral : List Char → Option (List Char × List Char)
  | '-' :: text => do
    let (numeral, rest) ← readUnsigned text
    pure ('-' :: numeral, rest)
  | text => readUnsigned text

/-! ### Values -/

mutual

/-- Takes a value off the front. -/
def readValue : Nat → List Char → Option (Json × List Char)
  | 0, _ => none
  | fuel + 1, text =>
    match skipSpace text with
    | 'n' :: 'u' :: 'l' :: 'l' :: rest => some (null, rest)
    | 't' :: 'r' :: 'u' :: 'e' :: rest => some (bool true, rest)
    | 'f' :: 'a' :: 'l' :: 's' :: 'e' :: rest => some (bool false, rest)
    | '\"' :: rest => do
      let (points, rest) ← readString rest
      pure (string points, rest)
    | '[' :: rest =>
      match skipSpace rest with
      | ']' :: rest => some (array [], rest)
      | rest => do
        let (items, rest) ← readItems fuel rest
        pure (array items, rest)
    | '{' :: rest =>
      match skipSpace rest with
      | '}' :: rest => some (object [], rest)
      | rest => do
        let (members, rest) ← readMembers fuel rest
        pure (object members, rest)
    | rest => do
      let (numeral, rest) ← readNumeral rest
      pure (number numeral, rest)

/-- Takes the items of an array and its closing bracket off the front. -/
def readItems : Nat → List Char → Option (List Json × List Char)
  | 0, _ => none
  | fuel + 1, text => do
    let (item, rest) ← readValue fuel text
    match skipSpace rest with
    | ']' :: rest => pure ([item], rest)
    | ',' :: rest =>
      let (items, rest) ← readItems fuel rest
      pure (item :: items, rest)
    | _ => none

/-- Takes the members of an object and its closing brace off the front. -/
def readMembers : Nat → List Char → Option (List (List Nat × Json) × List Char)
  | 0, _ => none
  | fuel + 1, text =>
    match skipSpace text with
    | '\"' :: rest => do
      let (name, rest) ← readString rest
      match skipSpace rest with
      | ':' :: rest =>
        let (value, rest) ← readValue fuel rest
        match skipSpace rest with
        | '}' :: rest => pure ([(name, value)], rest)
        | ',' :: rest =>
          let (members, rest) ← readMembers fuel rest
          pure ((name, value) :: members, rest)
        | _ => none
      | _ => none
    | _ => none

end

/-- Takes a value off the front of a text, with the rest. -/
def read (text : List Char) : Option (Json × List Char) :=
  readValue (2 * text.length + 2) text

end DimensionalAnalysis.Json
