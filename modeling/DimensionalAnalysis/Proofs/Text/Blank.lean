import DimensionalAnalysis.Text.Blank
import Mathlib.Data.List.DropRight

/-!
# Trimming

Trimming takes blanks away at the ends and nothing else (`exists_eq_append_trim`). It does not
see blanks that are put there (`trim_append_left`, `trim_append_right`), so that trimming twice
is trimming once.

Tokens are what a splitter leaves after trimming. They are therefore recognised by what trimming
does not change: a text that starts and ends with no blank, which may have blanks inside.
-/

namespace DimensionalAnalysis.Text

/-- Mathlib's function for the end of a list does what is done by way of the reversed list. -/
theorem trim_eq_rdropWhile (s : List Char) :
    trim s = (s.dropWhile isBlank).rdropWhile isBlank :=
  rfl

/-- What is trimmed off are blanks. -/
theorem exists_eq_append_trim (s : List Char) :
    ∃ before after, s = before ++ trim s ++ after ∧
      (∀ c ∈ before, isBlank c) ∧ ∀ c ∈ after, isBlank c := by
  refine ⟨s.takeWhile isBlank, (s.dropWhile isBlank).rtakeWhile isBlank, ?_, ?_, ?_⟩
  · rw [trim_eq_rdropWhile, List.append_assoc, List.rdropWhile_append_rtakeWhile,
      List.takeWhile_append_dropWhile]
  · exact fun c hc ↦ List.mem_takeWhile_imp hc
  · exact fun c hc ↦ List.mem_rtakeWhile_imp hc

/-- Trimming brings no character in. -/
theorem mem_of_mem_trim {s : List Char} {c : Char} (h : c ∈ trim s) : c ∈ s := by
  obtain ⟨before, after, heq, -, -⟩ := exists_eq_append_trim s
  rw [heq]
  simp [h]

/-- Blanks in front are not seen. -/
theorem trim_append_left {before : List Char} (h : ∀ c ∈ before, isBlank c) (s : List Char) :
    trim (before ++ s) = trim s := by
  rw [trim_eq_rdropWhile, List.dropWhile_append_of_pos h, ← trim_eq_rdropWhile]

/-- Blanks at the end are not seen. -/
theorem trim_append_right {after : List Char} (h : ∀ c ∈ after, isBlank c) (s : List Char) :
    trim (s ++ after) = trim s := by
  rw [trim_eq_rdropWhile, trim_eq_rdropWhile, List.dropWhile_append]
  split
  · rename_i hempty
    rw [List.isEmpty_iff.1 hempty, List.dropWhile_eq_nil_iff.2 h]
  · rw [List.rdropWhile, List.reverse_append, List.dropWhile_append_of_pos (by simpa using h),
      ← List.rdropWhile]

/-- A text without blanks has nothing to trim. -/
theorem trim_eq_self {s : List Char} (h : ∀ c ∈ s, isBlank c = false) : trim s = s := by
  have hdrop : s.dropWhile isBlank = s := by
    rw [List.dropWhile_eq_self_iff]
    intro hl
    simp [h _ (List.getElem_mem hl)]
  rw [trim_eq_rdropWhile, hdrop, List.rdropWhile_eq_self_iff]
  intro hne
  simp [h _ (List.getLast_mem hne)]

/-- Nothing is left to trim. -/
@[simp]
theorem trim_trim (s : List Char) : trim (trim s) = trim s := by
  obtain ⟨before, after, heq, hbefore, hafter⟩ := exists_eq_append_trim s
  conv_rhs => rw [heq, trim_append_right hafter, trim_append_left hbefore]

/-- Trimming makes no text longer. -/
theorem length_trim_le (s : List Char) : (trim s).length ≤ s.length := by
  obtain ⟨before, after, heq, -, -⟩ := exists_eq_append_trim s
  have hlength := congrArg List.length heq
  simp only [List.length_append] at hlength
  omega

/-- A text with nothing to trim starts with no blank. -/
theorem isBlank_head?_of_trim_eq {s : List Char} (h : trim s = s) :
    ∀ c ∈ s.head?, isBlank c = false := by
  intro c hc
  obtain ⟨rest, rfl⟩ := List.head?_eq_some_iff.1 hc
  -- otherwise trimming would take that blank away and make the text shorter than it is
  by_contra hblank
  have hshorter : trim (c :: rest) = trim rest :=
    trim_append_left (by simpa using hblank : ∀ b ∈ [c], isBlank b) rest
  have hlength := length_trim_le rest
  rw [← hshorter, h, List.length_cons] at hlength
  omega

/-- A text with nothing to trim ends with no blank. -/
theorem isBlank_getLast?_of_trim_eq {s : List Char} (h : trim s = s) :
    ∀ c ∈ s.getLast?, isBlank c = false := by
  intro c hc
  obtain ⟨rest, rfl⟩ := List.getLast?_eq_some_iff.1 hc
  by_contra hblank
  have hshorter : trim (rest ++ [c]) = trim rest := trim_append_right (by simpa using hblank) rest
  have hlength := length_trim_le rest
  rw [← hshorter, h, List.length_append, List.length_singleton] at hlength
  omega

theorem toList_trimmed (s : String) : (trimmed s).toList = trim s.toList :=
  String.toList_ofList

end DimensionalAnalysis.Text
