import DimensionalAnalysis.Json.Basic

/-!
# Writing JSON

Values are written without space. A number is the numeral that it holds. Strings escape quotes,
backslashes and control characters only.
-/

namespace DimensionalAnalysis.Json

/-! ### Strings -/

/-- A control character as its four hexadecimal digits. -/
def controlText (point : Nat) : List Char :=
  '\\' :: 'u' :: '0' :: '0' :: [Nat.digitChar (point / 16), Nat.digitChar (point % 16)]

/-- A code point inside a string. -/
def pointText (point : Nat) : List Char :=
  match point with
  | 0x22 => ['\\', '\"']
  | 0x5C => ['\\', '\\']
  | 0x08 => ['\\', 'b']
  | 0x0C => ['\\', 'f']
  | 0x0A => ['\\', 'n']
  | 0x0D => ['\\', 'r']
  | 0x09 => ['\\', 't']
  | _ => if point < 0x20 then controlText point else [Char.ofNat point]

/-- A string between its quotes. -/
def stringText (points : List Nat) : List Char :=
  '\"' :: points.flatMap pointText ++ ['\"']

/-! ### Values -/

mutual

/-- The text of a value. -/
def chars : Json → List Char
  | null => ['n', 'u', 'l', 'l']
  | bool true => ['t', 'r', 'u', 'e']
  | bool false => ['f', 'a', 'l', 's', 'e']
  | number numeral => numeral
  | string points => stringText points
  | array items => '[' :: itemChars items
  | object members => '{' :: memberChars members

/-- The text of the items of an array, with its closing bracket. -/
def itemChars : List Json → List Char
  | [] => [']']
  | [item] => chars item ++ [']']
  | item :: rest => chars item ++ ',' :: itemChars rest

/-- The text of the members of an object, with its closing brace. -/
def memberChars : List (List Nat × Json) → List Char
  | [] => ['}']
  | [(name, value)] => stringText name ++ ':' :: chars value ++ ['}']
  | (name, value) :: rest => stringText name ++ ':' :: chars value ++ ',' :: memberChars rest

end

/-- The text of a value. -/
def text (value : Json) : String := String.ofList (chars value)

end DimensionalAnalysis.Json
