import DimensionalAnalysis.Proofs.Number.Decimal
import DimensionalAnalysis.Proofs.Number.Text

/-!
# Numerals

The tokens that are exponents are a language: an optional sign, and digits with at most one
point among them (`Numeral`). `exponent?` accepts the texts of numerals and nothing else, and
gives each the double that is closest to its number and has its sign (`Numeral.Denotes`). In
particular the point may come first or last, but not alone.

Readers of doubles accept more than this, powers of ten and words for infinities and NaNs
(`Number.ofText?`). That an exponent is what such a reader makes of a token, once a filter has
seen only digits and points behind its sign, is `exponent?_eq_filter`.

A numeral is given by its parts, so that what it means can be said without reading anything: its
number is that of the digits in front of the point, plus that of the digits behind it over a
power of ten. The reader never computes such a sum. It reads all digits as one number, and
`value_decimal` says that this is the same.
-/

namespace DimensionalAnalysis

open Float.Model.UnpackedFloat

/-! ### The language -/

/-- A numeral as it is written: digits with at most one point among them, behind an optional
sign. The parts determine the text, and no text has two ways to be a numeral. -/
structure Numeral where
  /-- The sign, where one is written. -/
  mark : Option Sign
  /-- The digits in front of the point, or all of them. -/
  whole : List Char
  /-- The digits behind the point, where there is a point. -/
  fraction : Option (List Char)
  isDigit : ∀ c ∈ whole ++ fraction.getD [], c.isDigit
  ne_nil : whole ++ fraction.getD [] ≠ []

namespace Numeral

variable (n : Numeral)

/-- A sign as it is written, if one is. -/
def signText : Option Sign → List Char
  | none => []
  | some .positive => ['+']
  | some .negative => ['-']

/-- The numeral without its sign. -/
def body : List Char :=
  n.whole ++ n.fraction.elim [] ('.' :: ·)

/-- The numeral as it is written. -/
def characters : List Char :=
  signText n.mark ++ n.body

/-- The token that the numeral is. -/
def text : String :=
  String.ofList n.characters

/-- The sign of the numeral, which is positive where none is written. -/
def sign : Sign :=
  n.mark.getD .positive

/-- The number that is written. -/
def value : ℚ :=
  Number.signFactor n.sign * (Nat.ofDigitChars 10 n.whole 0 +
    Nat.ofDigitChars 10 (n.fraction.getD []) 0 / 10 ^ (n.fraction.getD []).length)

/-- The double that a numeral stands for: the closest one to its number, a tie going to the even
one, or an infinity if that is beyond the largest double. It has the sign of the numeral, a zero
too. -/
structure Denotes (x : Float) : Prop where
  isClosest : Number.IsClosest n.value x
  hasSign : Number.HasSign n.sign x.toModel.unpack

/-! ### The characters of numerals -/

/-- Behind the sign there are digits and a point. -/
theorem isDigit_or_eq_of_mem_body {c : Char} (h : c ∈ n.body) : c.isDigit ∨ c = '.' := by
  rcases List.mem_append.1 h with h | h
  · exact .inl (n.isDigit c (List.mem_append_left _ h))
  · cases hf : n.fraction with
    | none => simp [hf] at h
    | some fraction =>
      rw [hf, Option.elim_some, List.mem_cons] at h
      rcases h with h | h
      · exact .inr h
      · exact .inl (n.isDigit c (by simp [hf, h]))

/-- There is something behind the sign. -/
theorem body_ne_nil : n.body ≠ [] := by
  have hne := n.ne_nil
  rw [body]
  cases hf : n.fraction with
  | none => simpa [hf] using hne
  | some fraction => simp

/-- The characters of a numeral. -/
theorem isDigit_or_eq_of_mem_characters {c : Char} (h : c ∈ n.characters) :
    c.isDigit ∨ c = '+' ∨ c = '-' ∨ c = '.' := by
  rcases List.mem_append.1 h with h | h
  · generalize n.mark = mark at h
    rcases mark with - | - | -
    · simp [signText] at h
    · exact .inr (.inr (.inl (List.mem_singleton.1 h)))
    · exact .inr (.inl (List.mem_singleton.1 h))
  · rcases n.isDigit_or_eq_of_mem_body h with h | h
    · exact .inl h
    · exact .inr (.inr (.inr h))

/-- Behind the first character there is no sign. -/
theorem isDigit_or_eq_of_mem_tail {c : Char} (h : c ∈ n.characters.tail) :
    c.isDigit ∨ c = '.' := by
  refine n.isDigit_or_eq_of_mem_body ?_
  rw [characters] at h
  generalize n.mark = mark at h
  rcases mark with - | - | -
  · exact List.mem_of_mem_tail h
  · exact h
  · exact h

/-- There is one point at most: none is among the digits and none is a sign. -/
theorem count_point_le : n.characters.count '.' ≤ 1 := by
  have hdigit : ∀ {l : List Char}, (∀ c ∈ l, c.isDigit) → l.count '.' = 0 := fun h ↦
    List.count_eq_zero.2 fun hmem ↦ absurd (h '.' hmem) (by decide)
  have hsign : (signText n.mark).count '.' = 0 := by
    rcases n.mark with - | - | - <;> decide
  have hwhole : n.whole.count '.' = 0 :=
    hdigit fun c hc ↦ n.isDigit c (List.mem_append_left _ hc)
  rw [characters, body, List.count_append, List.count_append, hsign, hwhole]
  cases hf : n.fraction with
  | none => simp
  | some fraction =>
    have hfraction : fraction.count '.' = 0 := hdigit fun c hc ↦ n.isDigit c (by simp [hf, hc])
    simp [hfraction]

/-! ### Reading numerals -/

/-- What is read of the numeral. -/
def decimal : Decimal where
  negative := n.sign == .negative
  digits := Nat.ofDigitChars 10 (n.whole ++ n.fraction.getD []) 0
  exponent := -(n.fraction.getD []).length

/-- The sign is read as it is written. -/
theorem sign_decimal : n.decimal.sign = n.sign := by
  rw [Decimal.sign, decimal]
  cases n.sign <;> rfl

/-- The digits behind the point are a fraction of a power of ten. -/
theorem value_decimal : n.decimal.value = n.value := by
  rw [Decimal.value, sign_decimal, value, decimal]
  dsimp only
  rw [Nat.ofDigitChars_append, Nat.ofDigitChars_eq_ofDigitChars_zero, zpow_neg, zpow_natCast,
    ← div_eq_mul_inv]
  push_cast
  rw [add_div, mul_div_cancel_left₀ _ (by positivity)]

/-- What stands behind the sign has no sign in front, so that just the sign is taken off. -/
theorem splitSign_characters : Decimal.splitSign n.characters = (n.sign == .negative, n.body) := by
  rw [characters, sign]
  rcases n.mark with - | - | -
  · exact Decimal.splitSign_eq_self fun c hc ↦
      Decimal.ne_sign (n.isDigit_or_eq_of_mem_body (List.mem_of_mem_head? hc))
  · rfl
  · rfl

/-- **The text of a numeral is read.** -/
theorem ofPositional?_characters : Decimal.ofPositional? n.characters = some n.decimal := by
  have hdigits := n.isDigit
  have hne := n.ne_nil
  rw [Decimal.ofPositional?, splitSign_characters]
  dsimp only
  rw [body, decimal]
  cases hf : n.fraction with
  | none =>
    simp only [hf, Option.getD_none, List.append_nil] at hdigits hne ⊢
    simpa using Decimal.ofDigits?_whole _ hne hdigits
  | some fraction =>
    simp only [hf, Option.getD_some] at hdigits hne ⊢
    exact Decimal.ofDigits?_fraction _ hne hdigits

/-- What is read as a decimal are digits, with at most one point among them. -/
theorem exists_body_eq {negative : Bool} {text : List Char} {d : Decimal}
    (h : Decimal.ofDigits? negative text = some d) (mark : Option Sign) :
    ∃ n : Numeral, n.mark = mark ∧ n.body = text := by
  have hdigits : ∀ c ∈ text.takeWhile Char.isDigit, c.isDigit := fun c hc ↦
    List.mem_takeWhile_imp hc
  have hsplit := List.takeWhile_append_dropWhile (p := Char.isDigit) (l := text)
  rw [Decimal.ofDigits?] at h
  -- the digits end the text, or a point follows them, or something that is neither
  split at h
  · rename_i hrest
    split at h
    · simp at h
    · rename_i hwhole
      rw [hrest, List.append_nil] at hsplit
      exact ⟨⟨mark, text.takeWhile Char.isDigit, none, by simpa using hdigits,
        by simpa using hwhole⟩, rfl, by simpa [body] using hsplit⟩
  · rename_i fraction hrest
    split at h
    · rename_i hfraction
      rw [Bool.and_eq_true, Bool.not_eq_true', List.isEmpty_eq_false_iff, List.all_eq_true]
        at hfraction
      rw [hrest] at hsplit
      refine ⟨⟨mark, text.takeWhile Char.isDigit, some fraction, fun c hc ↦ ?_, hfraction.2⟩, rfl,
        hsplit⟩
      exact (List.mem_append.1 hc).elim (hdigits c) (hfraction.1 c)
    · simp at h
  · simp at h

/-- **What is read is the text of a numeral.** The sign that was taken off is put back, and it
makes a difference whether it was a plus or was not there. -/
theorem exists_characters_eq {text : List Char} {d : Decimal}
    (h : Decimal.ofPositional? text = some d) : ∃ n : Numeral, n.characters = text := by
  obtain ⟨negative, rest, hsplit, htext⟩ := Decimal.splitSign_cases text
  rw [Decimal.ofPositional?, hsplit] at h
  have hread := exists_body_eq h
  -- no sign, a minus, and a plus
  rcases htext with rfl | rfl | rfl
  · obtain ⟨n, hmark, rfl⟩ := hread none
    exact ⟨n, by rw [characters, hmark]; rfl⟩
  · obtain ⟨n, hmark, rfl⟩ := hread (some .negative)
    exact ⟨n, by rw [characters, hmark]; rfl⟩
  · obtain ⟨n, hmark, rfl⟩ := hread (some .positive)
    exact ⟨n, by rw [characters, hmark]; rfl⟩

/-- The exponent that a numeral is. -/
theorem exponent?_text : exponent? n.text = some n.decimal.toFloat := by
  rw [exponent?, text, String.toList_ofList, ofPositional?_characters, Option.map_some]

/-- The double that is read is the one that the numeral stands for. It is closest since reading
rounds to nearest, and it is the only one since closeness and sign determine a double. -/
theorem denotes_iff {x : Float} : n.Denotes x ↔ x = n.decimal.toFloat := by
  have hnearest := n.decimal.nearest_toFloat
  have hsign := n.decimal.hasSign_toFloat
  rw [value_decimal] at hnearest
  rw [sign_decimal] at hsign
  constructor
  · exact fun h ↦ h.isClosest.eq hnearest h.hasSign hsign
  · rintro rfl
    exact ⟨hnearest.isClosest, hsign⟩

/-- Whole numbers up to the power of two above 53 bits are read exactly. -/
theorem rational?_toFloat_of_intCast {k : ℤ} (h : |k| ≤ 2 ^ 53) (hvalue : n.value = k) :
    Number.rational? n.decimal.toFloat = some (k : ℚ) := by
  have hrep := Number.representable_intCast_of_le h
  rw [← hvalue, ← value_decimal] at hrep ⊢
  exact Decimal.rational?_toFloat_of_representable hrep

end Numeral

/-- The texts of numerals are the tokens that are exponents. -/
theorem isSome_exponent?_iff {token : String} :
    (exponent? token).isSome ↔ ∃ n : Numeral, n.text = token := by
  constructor
  · intro h
    rw [exponent?, Option.isSome_map, Option.isSome_iff_exists] at h
    obtain ⟨d, hd⟩ := h
    obtain ⟨n, hn⟩ := Numeral.exists_characters_eq hd
    exact ⟨n, by rw [Numeral.text, hn, String.ofList_toList]⟩
  · rintro ⟨n, rfl⟩
    rw [n.exponent?_text]
    rfl

/-! ### A filter in front of a reader of doubles -/

/-- Only digits and points stand behind the sign, and one of them at least. -/
def isPositional (text : List Char) : Bool :=
  let rest := (Decimal.splitSign text).2
  !rest.isEmpty && rest.all fun c ↦ c.isDigit || c == '.'

/-- Numerals pass the filter. -/
theorem isPositional_of_exponent? {token : String} (h : (exponent? token).isSome) :
    isPositional token.toList := by
  obtain ⟨n, rfl⟩ := isSome_exponent?_iff.1 h
  rw [Numeral.text, String.toList_ofList, isPositional, n.splitSign_characters, Bool.and_eq_true,
    Bool.not_eq_true', List.isEmpty_eq_false_iff, List.all_eq_true]
  exact ⟨n.body_ne_nil, fun c hc ↦ by simpa using n.isDigit_or_eq_of_mem_body hc⟩

/-- Digits and points are in lower case already. -/
theorem toLower_eq_self {c : Char} (h : c.isDigit ∨ c = '.') : c.toLower = c := by
  rcases h with h | rfl
  · simp only [Char.isDigit, Bool.and_eq_true, decide_eq_true_eq] at h
    rw [Char.toLower, dif_neg]
    intro hupper
    exact absurd (UInt32.le_trans hupper.1 h.2) (by decide)
  · rfl

/-- No word for a double begins with a digit or a point. -/
theorem Number.ofWord?_eq_none {c : Char} (h : c.isDigit ∨ c = '.') (word : List Char) :
    Number.ofWord? (c :: word) = none := by
  have hletter : ∀ {w : String}, String.ofList ((c :: word).map Char.toLower) = w →
      w.toList.head? = some c := by
    rintro w rfl
    rw [String.toList_ofList, List.map_cons, toLower_eq_self h, List.head?_cons]
  unfold Number.ofWord?
  split
  · rename_i heq
    obtain rfl : 'i' = c := Option.some.inj (hletter heq)
    simp at h
  · rename_i heq
    obtain rfl : 'i' = c := Option.some.inj (hletter heq)
    simp at h
  · rename_i heq
    obtain rfl : 'n' = c := Option.some.inj (hletter heq)
    simp at h
  · rfl

/-- Without letters there are neither words nor powers of ten to read. -/
theorem Number.ofText?_of_isPositional {token : String} (h : isPositional token.toList) :
    Number.ofText? token = exponent? token := by
  obtain ⟨negative, rest, hsplit, -⟩ := Decimal.splitSign_cases token.toList
  rw [isPositional, hsplit, Bool.and_eq_true, Bool.not_eq_true', List.isEmpty_eq_false_iff,
    List.all_eq_true] at h
  obtain ⟨hne, hchars⟩ := h
  have hchars : ∀ c ∈ rest, c.isDigit ∨ c = '.' := fun c hc ↦ by simpa using hchars c hc
  have hscientific : Decimal.ofScientific? token.toList = Decimal.ofPositional? token.toList := by
    rw [Decimal.ofScientific?_eq_ofDigits? hsplit hchars, Decimal.ofPositional?, hsplit]
  -- what is refused as a numeral is no word either, since words begin with a letter
  obtain ⟨c, word, rfl⟩ := List.exists_cons_of_ne_nil hne
  rw [Number.ofText?, hscientific, exponent?, hsplit]
  cases Decimal.ofPositional? token.toList with
  | some d => rfl
  | none =>
    dsimp only
    rw [Number.ofWord?_eq_none (hchars c List.mem_cons_self)]
    rfl

/-- **An exponent is what a reader of doubles makes of digits and points** behind a sign. -/
theorem exponent?_eq_filter (token : String) :
    exponent? token = if isPositional token.toList then Number.ofText? token else none := by
  split_ifs with h
  · exact (Number.ofText?_of_isPositional h).symm
  · exact Option.not_isSome_iff_eq_none.1 fun hsome ↦ h (isPositional_of_exponent? hsome)

/-! ### What a token is as an exponent -/

/-- **Exponents are numerals, read as the closest double.** A token is an exponent as a filter
and a reader of doubles, one after the other, find it to be. It is accepted exactly if it is the
text of a numeral, and its value is then the double that the numeral stands for. This is exact
for whole numbers up to `2 ^ 53`. All characters are digits, signs and points, with no sign but
in front and one point at most, so that powers of ten and words for infinities and NaNs are no
exponents.

The filter alone does not make a numeral: a point alone and two points pass it, and are then
refused by the reader. Together they accept just the numerals. -/
theorem exponents_are_numerals (token : String) :
    (exponent? token = if isPositional token.toList then Number.ofText? token else none) ∧
      ((exponent? token).isSome ↔ ∃ n : Numeral, n.text = token) ∧
      (∀ n : Numeral, n.text = token → ∀ x, exponent? token = some x ↔ n.Denotes x) ∧
      (∀ n : Numeral, n.text = token → ∀ k : ℤ, |k| ≤ 2 ^ 53 → n.value = k →
        ∃ x, exponent? token = some x ∧ Number.rational? x = some (k : ℚ)) ∧
      ((exponent? token).isSome →
        (∀ c ∈ token.toList, c.isDigit ∨ c = '+' ∨ c = '-' ∨ c = '.') ∧
          (∀ c ∈ token.toList.tail, c ≠ '-' ∧ c ≠ '+') ∧ token.toList.count '.' ≤ 1) := by
  refine ⟨exponent?_eq_filter token, isSome_exponent?_iff, ?_, ?_, fun h ↦ ?_⟩
  · rintro n rfl x
    rw [n.exponent?_text, Option.some.injEq, eq_comm, n.denotes_iff]
  · rintro n rfl k hk hvalue
    exact ⟨_, n.exponent?_text, n.rational?_toFloat_of_intCast hk hvalue⟩
  · obtain ⟨n, rfl⟩ := isSome_exponent?_iff.1 h
    rw [Numeral.text, String.toList_ofList]
    exact ⟨fun _ ↦ n.isDigit_or_eq_of_mem_characters,
      fun _ hc ↦ Decimal.ne_sign (n.isDigit_or_eq_of_mem_tail hc), n.count_point_le⟩

/-- The point may come first or last, but not twice. -/
theorem exponents_are_numerals_points :
    (exponent? "+.5").isSome ∧ exponent? "1.2.3" = none ∧
      ∃ x, exponent? "-12." = some x ∧ Number.rational? x = some ((-12 : ℤ) : ℚ) := by
  refine ⟨?_, ?_, ?_⟩
  · obtain ⟨-, haccepted, -⟩ := exponents_are_numerals "+.5"
    exact haccepted.2 ⟨⟨some .positive, [], some ['5'], by simp, by simp⟩, by decide⟩
  · obtain ⟨-, -, -, -, hchars⟩ := exponents_are_numerals "1.2.3"
    refine Option.not_isSome_iff_eq_none.1 fun h ↦ ?_
    exact absurd (hchars h).2.2 (by decide +kernel)
  · obtain ⟨-, -, -, hwhole, -⟩ := exponents_are_numerals "-12."
    refine hwhole ⟨some .negative, ['1', '2'], some [], by simp, by simp⟩ (by decide) (-12)
      (by norm_num) ?_
    have htwelve : Nat.ofDigitChars 10 ['1', '2'] 0 = 12 := by decide
    have hnone : Nat.ofDigitChars 10 [] 0 = 0 := rfl
    simp [Numeral.value, Numeral.sign, Number.signFactor, htwelve, hnone]

end DimensionalAnalysis
