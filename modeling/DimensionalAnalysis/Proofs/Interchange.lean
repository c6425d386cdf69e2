import DimensionalAnalysis.Interchange
import DimensionalAnalysis.Proofs.Fallible
import DimensionalAnalysis.Proofs.Json.Values

/-!
# Quantities read back

A quantity is written as an object with its value and the text of its unit. Reading that text
finds the same object, as it does for any value that can be written (`Quantity.read_toJson`), and
sets the unit anew: the text of the unit is handed to `Quantity.withUnit` exactly as it was, with
the value that the number format makes of its numeral (`Quantity.reload_eq`). In the format of the
shortest digits this is the value as it was (`Quantity.reload_exact_eq`).

A value that is no finite number is written as null and refused by the reader.
-/

namespace DimensionalAnalysis

/-- An optional value that is required is there. -/
theorem require_eq_ok_iff {α : Type} {o : Option α} {a : α} :
    ReadFault.require o = .ok a ↔ o = some a := by
  cases o <;> simp [ReadFault.require]

/-- A number is read back as what the format makes of its numeral, if it has one. -/
theorem Json.number?_ofNumber (format : Json.LawfulFormat) (x : Float) :
    (Json.ofNumber format x).number? format =
      if x.isFinite then some (format.read (format.write x)) else none := by
  rw [Json.ofNumber]
  split
  · rename_i h
    exact if_pos (format.isFinite_read_write h)
  · rfl

namespace Quantity

/-! ### What is written -/

/-- The fields of an object with a value alone. The unit is optional. -/
theorem partsOfJson?_value (format : Json.NumberFormat) (v : Json) :
    partsOfJson? format (.object [(Json.pointsOf "value", v)]) =
      (v.number? format).map (·, none) := by
  cases hv : v.number? format <;>
    simp [partsOfJson?, Json.record?, Json.members?, Json.field?, hv]

/-- The fields of an object with a value and a unit. -/
theorem partsOfJson?_unit (format : Json.NumberFormat) (v : Json) (unit : String) :
    partsOfJson? format
        (.object [(Json.pointsOf "value", v), (Json.pointsOf "unit", .ofString unit)]) =
      (v.number? format).map (·, some unit) := by
  cases hv : v.number? format <;>
    simp [partsOfJson?, Json.record?, Json.members?, Json.field?, Json.string?, Json.ofString, hv]

/-- The fields of what is written for a quantity.

The text of the unit is the one that the quantity has, and the value is what the format reads
from the numeral. A value that is not finite has been written as null, and null is no number, so
that there are no fields. -/
theorem partsOfJson?_toJson (format : Json.LawfulFormat) (q : Quantity) :
    partsOfJson? format (q.toJson format) =
      if q.value.isFinite then some (format.read (format.write q.value), q.unit?) else none := by
  rw [toJson]
  cases q.unit? with
  | none =>
    refine (partsOfJson?_value _ _).trans ?_
    rw [Json.number?_ofNumber]
    split <;> rfl
  | some unit =>
    refine (partsOfJson?_unit _ _ unit).trans ?_
    rw [Json.number?_ofNumber]
    split <;> rfl

/-- A quantity has a text: a number, and the string of its unit. -/
theorem isWritable_toJson (format : Json.LawfulFormat) (q : Quantity) :
    (q.toJson format).IsWritable := by
  rw [toJson]
  refine Json.isWritable_ofMembers (List.forall_mem_cons.2 ⟨Json.isWritable_ofNumber format _, ?_⟩)
  cases q.unit? with
  | none => simp
  | some unit => simpa using Json.IsWritable.string unit

/-- What is written for a quantity is read as it was, up to its end.

This is about the text alone, in which the value is still a numeral: it needs that the format writes
numerals, but not that it reads them in any particular way. -/
theorem read_toJson (format : Json.LawfulFormat) (q : Quantity) :
    Json.read (Json.chars (q.toJson format)) =
      some (q.toJson format, []) :=
  Json.read_chars (q.isWritable_toJson format)

/-! ### What is read -/

/-- A quantity that is read is made from the fields of the text. So it is one that
`Quantity.ofParts` gives, whatever else the text may contain. -/
theorem ofText_eq_ok {format : Json.NumberFormat} {text : String} {r : Quantity}
    (h : ofText format text = .ok r) :
    ∃ value rest x unit, Json.read text.toList = some (value, rest) ∧
      partsOfJson? format value = some (x, unit) ∧ ofParts x unit = .ok r := by
  rw [ofText, Json.readAs, bind_eq_ok_iff] at h
  obtain ⟨⟨value, rest⟩, hread, h⟩ := h
  simp only [bind_eq_ok_iff] at h
  obtain ⟨r', hr, h⟩ := h
  obtain rfl : r' = r := by
    split at h
    · simpa using h
    · simp at h
  rw [ofJson, bind_eq_ok_iff] at hr
  obtain ⟨⟨x, unit⟩, hparts, hr⟩ := hr
  exact ⟨value, rest, x, unit, require_eq_ok_iff.1 hread, require_eq_ok_iff.1 hparts,
    mapError_eq_ok_iff.1 hr⟩

section Reload

variable (format : Json.LawfulFormat) {q r : Quantity}

/-- **A quantity that is read back has its unit set anew**, from the text of the unit as it was,
unless its value is not finite. Its value is what the format makes of it. -/
theorem reload_eq (q : Quantity) :
    q.reload format =
      if q.value.isFinite then
        (ofParts (format.read (format.write q.value)) q.unit?).mapError .rejected
      else .error .malformed := by
  rw [reload, ofText, Json.readAs, Json.text, String.toList_ofList, read_toJson]
  simp only [ReadFault.require, ok_bind, ofJson, partsOfJson?_toJson]
  cases q.value.isFinite with
  | true =>
    simp only [if_true, ok_bind]
    cases ofParts (format.read (format.write q.value)) q.unit? <;> rfl
  | false => rfl

/-- Which quantities are read back, and as what. Nothing of the quantity enters but its value
and the text of its unit, in particular not the scale and the order that it had. -/
theorem reload_eq_ok_iff :
    q.reload format = .ok r ↔
      q.value.isFinite ∧ ofParts (format.read (format.write q.value)) q.unit? = .ok r := by
  rw [reload_eq]
  split
  · rename_i h
    simp [h, mapError_eq_ok_iff]
  · rename_i h
    simp [h]

/-- Written with the shortest digits, a quantity is read back with the value that it had. Its
unit may still be refused, namely where its text no longer resolves. -/
theorem reload_exact_eq (q : Quantity) :
    q.reload .exact =
      if q.value.isFinite then (ofParts q.value q.unit?).mapError .rejected
      else .error .malformed := by
  refine (reload_eq .exact q).trans (if_ctx_congr Iff.rfl (fun h ↦ ?_) fun _ ↦ rfl)
  exact congrArg (fun x ↦ (ofParts x q.unit?).mapError ReadFault.rejected)
    (Json.NumberFormat.exact_read_write h)

end Reload

end Quantity

end DimensionalAnalysis
