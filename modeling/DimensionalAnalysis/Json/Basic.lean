import DimensionalAnalysis.Json.NumberFormat

/-!
# JSON values

The values of the interchange format. Two of them are wider than what a reader of them will
take, because a value that nobody reads is not judged.

* A string is a list of code points, which may hold surrogates without a partner. Only
  `Json.string?` refuses them.
* A number is its numeral, whatever double a number format makes of it. Only `Json.number?` asks
  the format, and refuses a numeral that is out of range.
-/

namespace DimensionalAnalysis

/-- A JSON value, the members of an object in the order of the text. -/
inductive Json where
  | null
  | bool (value : Bool)
  | number (numeral : List Char)
  | string (points : List Nat)
  | array (items : List Json)
  | object (members : List (List Nat × Json))
deriving Inhabited

namespace Json

/-! ### Strings -/

/-- The code points of a string. -/
def pointsOf (s : String) : List Nat := s.toList.map Char.toNat

/-- The character of a code point, if it is one. -/
def char? (point : Nat) : Option Char :=
  if point.isValidChar then some (Char.ofNat point) else none

/-- The string of a list of code points, if all of them are characters. -/
def ofPoints? (points : List Nat) : Option String :=
  String.ofList <$> points.mapM char?

/-! ### Reading a value as something -/

/-- A string all of whose code points are characters. -/
def string? : Json → Option String
  | string points => ofPoints? points
  | _ => none

/-- The double that the number format reads, if it is finite. -/
def number? (format : NumberFormat) : Json → Option Float
  | number numeral =>
    let x := format.read numeral
    if x.isFinite then some x else none
  | _ => none

/-- The items of an array. -/
def array? : Json → Option (List Json)
  | array items => some items
  | _ => none

/-- The members of an object under their names. -/
def members? : Json → Option (List (String × Json))
  | object members => members.mapM fun (points, value) ↦ do pure (← ofPoints? points, value)
  | _ => none

/-- The value of a field that stands there at most once; the inner option says whether it
does. -/
def field? (members : List (String × Json)) (name : String) : Option (Option Json) :=
  match members.filter fun (other, _) ↦ other == name with
  | [] => some none
  | [(_, value)] => some (some value)
  | _ => none

/-- The fields of a record, which is an object with other members beside them or an array of
the fields in their order, of which the last ones may be missing. -/
def record? (names : List String) : Json → Option (List (Option Json))
  | array items =>
    if items.length ≤ names.length then
      some (items.map some ++ List.replicate (names.length - items.length) none)
    else none
  | value => do
    let members ← value.members?
    names.mapM (field? members)

/-! ### Making values -/

/-- A string of characters. -/
def ofString (s : String) : Json := string (pointsOf s)

/-- A number, or null for one that JSON has no numeral for. -/
def ofNumber (format : NumberFormat) (x : Float) : Json :=
  if x.isFinite then number (format.write x) else null

/-- An object of named members, which are not looked through for a name that occurs twice. -/
def ofMembers (members : List (String × Json)) : Json :=
  object (members.map fun (name, value) ↦ (pointsOf name, value))

end Json

end DimensionalAnalysis
