import DimensionalAnalysis.Json.Reader
import DimensionalAnalysis.Json.Writer
import Mathlib.Tactic.Common

/-!
# Strings read back from JSON

A string is written character by character, and each character is read back from what was
written for it (`readString_pointText_append`): itself, a letter behind a backslash, or four
hexadecimal digits. A string is therefore read up to its closing quote, whatever follows it
(`readString_pointsOf`).

The writer spells a character with hexadecimal digits only where it is one of the control
characters, and these come before all surrogates. So nothing that was written is joined with
what stands behind it, although the reader has to look for it.
-/

namespace DimensionalAnalysis.Json

/-! ### Characters -/

/-- The code point of a character belongs to that character. The reader refuses the numbers that
are no code points of characters, and this is none of them. -/
theorem char?_toNat (c : Char) : char? c.toNat = some c := by
  rw [char?, if_pos (by exact c.valid), Char.ofNat_toNat]

/-- A string is made of its code points. -/
@[simp]
theorem ofPoints?_pointsOf (s : String) : ofPoints? (pointsOf s) = some s := by
  have hmap : ∀ l : List Char, (l.map Char.toNat).mapM char? = some l := by
    intro l
    induction l with
    | nil => rfl
    | cons c l ih => simp [List.mapM_cons, char?_toNat, ih]
  rw [ofPoints?, pointsOf, hmap]
  exact congrArg some String.ofList_toList

/-- The four hexadecimal digits of a control character. The first two of them are zero. -/
theorem hex4?_control : ∀ n < 32,
    hex4? '0' '0' (Nat.digitChar (n / 16)) (Nat.digitChar (n % 16)) = some n := by
  decide

/-- A code point below the surrogates stays as it is, whatever the next one may be. -/
theorem joinSurrogates_of_lt {point : ℕ} (h : point < 0xD800) (points : List ℕ) :
    joinSurrogates point points = point :: points := by
  cases points with
  | nil => rfl
  | cons low rest => rw [joinSurrogates, if_neg (by omega)]

/-- The characters of a string are read in front of the others. -/
def consPoint (point : ℕ) (read : Option (List ℕ × List Char)) : Option (List ℕ × List Char) := do
  let (points, rest) ← read
  pure (point :: points, rest)

/-- A letter behind a backslash is read as the character that it stands for. -/
theorem readString_letter (letter : Char) {point : ℕ} (h : escape? letter = some point)
    (text : List Char) :
    readString ('\\' :: letter :: text) = consPoint point (readString text) := by
  have hu : letter ≠ 'u' := by
    rintro rfl
    simp [escape?] at h
  rw [readString.eq_def]
  simp [h, hu, consPoint]

/-- A control character is read from its hexadecimal digits. -/
theorem readString_control {point : ℕ} (h : point < 32) (text : List Char) :
    readString (controlText point ++ text) = consPoint point (readString text) := by
  rw [controlText, List.cons_append, List.cons_append, List.cons_append, List.cons_append,
    List.cons_append, List.cons_append, List.nil_append, readString, hex4?_control point h]
  simp [consPoint, joinSurrogates_of_lt (show point < 0xD800 by omega)]

/-- A character that needs no escape is read as itself. -/
theorem readString_plain {c : Char} (hquote : c ≠ '\"') (hslash : c ≠ '\\')
    (h : 32 ≤ c.toNat) (text : List Char) :
    readString (c :: text) = consPoint c.toNat (readString text) := by
  rw [readString.eq_def]
  simp [hslash, show ¬c.toNat < 32 by omega, consPoint]

/-- A character is read from what is written for it. The text behind it is read in the same way
as without the character. -/
theorem readString_pointText_append (c : Char) (text : List Char) :
    readString (pointText c.toNat ++ text) = consPoint c.toNat (readString text) := by
  unfold pointText
  split
  · rename_i h
    exact h ▸ readString_letter '\"' rfl text
  · rename_i h
    exact h ▸ readString_letter '\\' rfl text
  · rename_i h
    exact h ▸ readString_letter 'b' rfl text
  · rename_i h
    exact h ▸ readString_letter 'f' rfl text
  · rename_i h
    exact h ▸ readString_letter 'n' rfl text
  · rename_i h
    exact h ▸ readString_letter 'r' rfl text
  · rename_i h
    exact h ▸ readString_letter 't' rfl text
  · -- no letter stands for the character, and it is a control character or itself
    rename_i hquote hslash _ _ _ _ _
    split
    · exact readString_control ‹_› text
    · rw [Char.ofNat_toNat]
      refine readString_plain ?_ ?_ (by omega) text
      · rintro rfl
        exact hquote rfl
      · rintro rfl
        exact hslash rfl

/-! ### Strings -/

/-- A string is read up to its closing quote. A quote inside the string is written with a
backslash in front of it, and does not end the string. -/
theorem readString_pointsOf (s : String) (rest : List Char) :
    readString ((pointsOf s).flatMap pointText ++ '\"' :: rest) = some (pointsOf s, rest) := by
  rw [pointsOf]
  induction s.toList with
  | nil => rw [List.map_nil, List.flatMap_nil, List.nil_append, readString]
  | cons c chars ih =>
    rw [List.map_cons, List.flatMap_cons, List.append_assoc, readString_pointText_append, ih]
    rfl

end DimensionalAnalysis.Json
