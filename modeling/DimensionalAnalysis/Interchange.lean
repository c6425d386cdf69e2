import DimensionalAnalysis.Json.Reader
import DimensionalAnalysis.Json.Writer
import DimensionalAnalysis.Quantity.Basic

/-!
# Interchange

Quantities, signatures, resolutions, splits and dimensions are exchanged as JSON. A quantity
is written as its value and the text of its unit. Reading it back sets the unit anew, so that
a text which does not resolve is **rejected**; everything else that can be wrong with a text
makes it **malformed**.

A rejection concerns a value that has been read to its end, and it is reported even when the
text goes on behind that value with something that does not belong there.

Whatever holds numbers is written and read in a number format, which comes first among the
arguments.
-/

namespace DimensionalAnalysis

/-- Why a text is not read. -/
inductive ReadFault where
  /-- The text is not JSON, or not of the expected shape. -/
  | malformed
  /-- The value has the expected shape and a fault of its own. -/
  | rejected (fault : Fault)
deriving DecidableEq, Repr

namespace ReadFault

/-- A value that has to be there. -/
def require {α : Type} : Option α → Except ReadFault α
  | some a => .ok a
  | none => .error malformed

end ReadFault

namespace Json

/-- Reads all of a text as a value of some kind. -/
def readAs {α : Type} (decode : Json → Except ReadFault α) (text : String) :
    Except ReadFault α := do
  let (value, rest) ← ReadFault.require (read text.toList)
  let a ← decode value
  if (skipSpace rest).isEmpty then pure a else .error .malformed

end Json

open ReadFault (require)

/-! ### Dimensions

A dimension is its name. An object with the name as its only member and null as the value
stands for it too. -/

namespace Dimension

/-- The name as a string. -/
def toJson (d : Dimension) : Json := .ofString d.name

/-- Reads a dimension in either of its two forms. -/
def ofJson? : Json → Option Dimension
  | .object [(points, .null)] => do ofName? (← Json.ofPoints? points)
  | value => do ofName? (← value.string?)

/-- Reads all of a text as a dimension. -/
def ofText (text : String) : Except ReadFault Dimension :=
  Json.readAs (fun value ↦ require (ofJson? value)) text

end Dimension

/-! ### Signatures

A signature is an object of its stored entries. Of two entries of one dimension the last one
counts. -/

namespace Signature

/-- The stored entries under the names of their dimensions. A stored zero is written like any other
entry. -/
def toJson (format : Json.NumberFormat) (s : Signature) : Json :=
  .ofMembers (s.toList.map fun (d, x) ↦ (d.name, .ofNumber format x))

/-- The signature with one entry replaced. -/
def store (s : Signature) (d : Dimension) (x : Float) : Signature :=
  ofEntries fun e ↦ if e = d then some x else s.entry e

/-- Reads one entry: the name of a dimension and a finite number. -/
def entry? (format : Json.NumberFormat) (member : String × Json) : Option (Dimension × Float) := do
  let d ← Dimension.ofName? member.1
  let x ← member.2.number? format
  pure (d, x)

/-- Reads the members one after another. A member that names no dimension refuses the object. -/
def ofJson? (format : Json.NumberFormat) (value : Json) : Option Signature := do
  let entries ← (← value.members?).mapM fun member ↦ entry? format member
  pure (entries.foldl (fun s (d, x) ↦ s.store d x) empty)

/-- Reads all of a text as a signature. -/
def ofText (format : Json.NumberFormat) (text : String) : Except ReadFault Signature :=
  Json.readAs (fun value ↦ require (ofJson? format value)) text

end Signature

/-! ### Resolutions -/

namespace Resolution

/-- The signature and the scale as a record. -/
def toJson (format : Json.NumberFormat) (r : Resolution) : Json :=
  .ofMembers [("order", r.signature.toJson format), ("scale", .ofNumber format r.scale)]

/-- Reads a resolution as it stands; that the scale belongs to any expression is not asked. -/
def ofJson? (format : Json.NumberFormat) (value : Json) : Option Resolution := do
  match ← value.record? ["order", "scale"] with
  | [some signature, some scale] =>
    let s ← Signature.ofJson? format signature
    let x ← scale.number? format
    pure ⟨s, x⟩
  | _ => none

/-- Reads all of a text as a resolution. -/
def ofText (format : Json.NumberFormat) (text : String) : Except ReadFault Resolution :=
  Json.readAs (fun value ↦ require (ofJson? format value)) text

end Resolution

/-! ### Splits -/

namespace Split

/-- One side of a split. -/
def tokensToJson (tokens : List String) : Json := .array (tokens.map Json.ofString)

/-- The two sides as a record. -/
def toJson (s : Split) : Json :=
  .ofMembers [("numerator", tokensToJson s.numerator), ("denominator", tokensToJson s.denominator)]

/-- Reads one side of a split. Any strings will do, also such as no expression splits into. -/
def tokensOfJson? (value : Json) : Option (List String) := do
  (← value.array?).mapM Json.string?

/-- Reads a split, for which both sides have to be there. -/
def ofJson? (value : Json) : Option Split := do
  match ← value.record? ["numerator", "denominator"] with
  | [some numerator, some denominator] =>
    let above ← tokensOfJson? numerator
    let below ← tokensOfJson? denominator
    pure ⟨above, below⟩
  | _ => none

/-- Reads all of a text as a split. -/
def ofText (text : String) : Except ReadFault Split :=
  Json.readAs (fun value ↦ require (ofJson? value)) text

end Split

/-! ### Quantities

The unit may be missing or null, and is not written for an untyped quantity. -/

namespace Quantity

/-- The value and the text of the unit. The resolution is not written, since the text determines it
in a quantity whose unit was set. -/
def toJson (format : Json.NumberFormat) (q : Quantity) : Json :=
  .ofMembers (("value", .ofNumber format q.value) ::
    (q.unit?.map fun unit ↦ ("unit", Json.ofString unit)).toList)

/-- The value of a quantity and the text of its unit, before the unit is resolved. -/
def partsOfJson? (format : Json.NumberFormat) (value : Json) :
    Option (Float × Option String) := do
  match ← value.record? ["value", "unit"] with
  | [some number, unit] =>
    let x ← number.number? format
    match unit with
    | none | some .null => pure (x, none)
    | some unit => pure (x, some (← unit.string?))
  | _ => none

/-- The quantity of a value and a unit text. -/
def ofParts (x : Float) : Option String → Except Fault Quantity
  | none => .ok (untyped x)
  | some unit => withUnit x unit

/-- Reads a quantity and sets its unit, which is where a rejection comes from. -/
def ofJson (format : Json.NumberFormat) (value : Json) : Except ReadFault Quantity := do
  let (x, unit) ← require (partsOfJson? format value)
  (ofParts x unit).mapError .rejected

/-- Reads all of a text as a quantity. -/
def ofText (format : Json.NumberFormat) (text : String) : Except ReadFault Quantity :=
  Json.readAs (ofJson format) text

/-- Writes the quantity and reads it back. -/
def reload (format : Json.NumberFormat) (q : Quantity) : Except ReadFault Quantity :=
  ofText format (q.toJson format).text

end Quantity

end DimensionalAnalysis
