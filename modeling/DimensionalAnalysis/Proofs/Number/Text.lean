import DimensionalAnalysis.Expression.Exponent
import DimensionalAnalysis.Number.Text
import DimensionalAnalysis.Proofs.Number.Shortest

/-!
# Numbers read back from their text

The text of a finite double is a positional numeral that reads back as that double
(`exponent?_text`), whatever its magnitude and also for a negative zero. Positional notation
does not keep a decimal as it is: the zeros of a large power of ten become digits. What is read
is `Decimal.spelled`, which is the same double.

The texts of the other doubles are words and no numerals (`exponent?_text_of_not_finite`).

Exponents are written into composed units in this way and read again when the unit is, which is
why it matters that all of the text is one token. Its characters are digits, a point, a minus
and the letters of the words (`isTextChar`), and no separator is among them.
-/

namespace DimensionalAnalysis

open Float.Model (Format UnpackedFloat)
open Float.Model.UnpackedFloat

namespace Decimal

/-! ### Digits with a point -/

/-- Digits are written in digits. -/
theorem isDigit_of_mem_toDigits {n : ℕ} {c : Char} (h : c ∈ Nat.toDigits 10 n) : c.isDigit :=
  Nat.isDigit_of_mem_toDigits (by norm_num) (by norm_num) h

/-- Digits without a point are a whole number. -/
theorem ofDigits?_whole (negative : Bool) {whole : List Char} (hne : whole ≠ [])
    (hwhole : ∀ c ∈ whole, c.isDigit) :
    ofDigits? negative whole = some ⟨negative, Nat.ofDigitChars 10 whole 0, 0⟩ := by
  simp [ofDigits?, List.takeWhile_eq_self_iff.2 hwhole, List.dropWhile_eq_nil_iff.2 hwhole, hne]

/-- The places behind a point become a negative power of ten. -/
theorem ofDigits?_fraction (negative : Bool) {whole fraction : List Char}
    (hne : whole ++ fraction ≠ []) (hdigits : ∀ c ∈ whole ++ fraction, c.isDigit) :
    ofDigits? negative (whole ++ '.' :: fraction) =
      some ⟨negative, Nat.ofDigitChars 10 (whole ++ fraction) 0, -fraction.length⟩ := by
  have hwhole : ∀ c ∈ whole, c.isDigit := fun c hc ↦ hdigits c (List.mem_append_left _ hc)
  have hfraction : ∀ c ∈ fraction, c.isDigit := fun c hc ↦ hdigits c (List.mem_append_right _ hc)
  have hpoint : Char.isDigit '.' = false := rfl
  have hempty : (whole ++ fraction).isEmpty = false := by rwa [List.isEmpty_eq_false_iff]
  simp only [ofDigits?, List.takeWhile_append_of_pos hwhole, List.dropWhile_append_of_pos hwhole,
    List.takeWhile_cons, List.dropWhile_cons, hpoint, List.append_nil, hempty,
    List.all_eq_true.2 hfraction, Bool.false_eq_true, if_false, if_true, Bool.not_false,
    Bool.and_true]

/-- Where the point stands among digits, and what is read with the point taken out. -/
theorem placePoint_eq {digits : List Char} (hne : digits ≠ []) {places : ℕ} (hpos : 0 < places) :
    ∃ whole fraction, placePoint digits places = whole ++ '.' :: fraction ∧ whole ≠ [] ∧
      fraction.length = places ∧
      Nat.ofDigitChars 10 (whole ++ fraction) 0 = Nat.ofDigitChars 10 digits 0 ∧
      (∀ c ∈ whole ++ fraction, c = '0' ∨ c ∈ digits) ∧
      (whole = ['0'] ∨ whole.head? = digits.head?) := by
  by_cases hlt : places < digits.length
  · refine ⟨digits.take (digits.length - places), digits.drop (digits.length - places),
      by rw [placePoint, if_pos hlt], ?_, ?_, ?_, ?_, .inr ?_⟩
    · simp [hne]
      omega
    · simp
      omega
    · rw [List.take_append_drop]
    · rw [List.take_append_drop]
      exact fun c hc ↦ .inr hc
    · rw [List.head?_take, if_neg (by omega)]
  · -- too few digits: a zero stands in front of the point, and zeros fill up behind it
    refine ⟨['0'], List.replicate (places - digits.length) '0' ++ digits,
      by rw [placePoint, if_neg hlt]; rfl, by simp, ?_, ?_, ?_, .inl rfl⟩
    · simp
      omega
    · simp [Nat.ofDigitChars_append, Nat.ofDigitChars_cons]
    · intro c hc
      simp only [List.cons_append, List.nil_append, List.mem_cons, List.mem_append,
        List.mem_replicate] at hc
      tauto

/-! ### Positional numerals -/

/-- The decimal that the positional text of a decimal spells: the same one, with the zeros of a
large power of ten as digits. -/
def spelled (d : Decimal) : Decimal :=
  if 0 ≤ d.exponent then ⟨d.negative, d.digits * 10 ^ d.exponent.toNat, 0⟩ else d

/-- A positional text is a sign in front of digits with at most one point behind the first.

Everything that is asked of such a text follows: that it is read as what it spells, that no sign
comes twice, and which characters may occur. -/
theorem exists_positional_eq (d : Decimal) :
    ∃ c numeral, d.positional = d.signText ++ c :: numeral ∧ c.isDigit ∧
      (∀ c ∈ numeral, c.isDigit ∨ c = '.') ∧
      ofDigits? d.negative (c :: numeral) = some d.spelled := by
  -- A number has a digit at least, so that something stands in front of the point.
  have hne : Nat.toDigits 10 d.digits ≠ [] := Nat.toDigits_ne_nil
  by_cases he : 0 ≤ d.exponent
  · have hdigits : ∀ c ∈ Nat.toDigits 10 d.digits ++ List.replicate d.exponent.toNat '0',
        c.isDigit := by
      intro c hc
      rcases List.mem_append.1 hc with hc | hc
      · exact isDigit_of_mem_toDigits hc
      · rw [List.eq_of_mem_replicate hc]
        rfl
    have hread := ofDigits?_whole d.negative (by simp [hne]) hdigits
    rw [Nat.ofDigitChars_append, Nat.ofDigitChars_replicate_zero, Nat.ofDigitChars_ten_toDigits,
      mul_comm] at hread
    rw [positional, if_pos he, spelled, if_pos he]
    obtain ⟨c, numeral, heq⟩ := List.exists_cons_of_ne_nil
      (l := Nat.toDigits 10 d.digits ++ List.replicate d.exponent.toNat '0') (by simp [hne])
    rw [heq] at hdigits hread ⊢
    exact ⟨c, numeral, rfl, hdigits c List.mem_cons_self,
      fun c hc ↦ .inl (hdigits c (List.mem_cons_of_mem _ hc)), hread⟩
  · obtain ⟨whole, fraction, hplace, hwhole, hlength, hread, hmem, -⟩ :=
      placePoint_eq hne (show 0 < (-d.exponent).toNat by omega)
    have hdigits : ∀ c ∈ whole ++ fraction, c.isDigit := by
      intro c hc
      rcases hmem c hc with rfl | hc
      · rfl
      · exact isDigit_of_mem_toDigits hc
    have hpoint := ofDigits?_fraction d.negative (by simp [hwhole]) hdigits
    rw [hread, Nat.ofDigitChars_ten_toDigits, hlength, Int.toNat_of_nonneg (by omega),
      neg_neg] at hpoint
    rw [positional, if_neg he, spelled, if_neg he, hplace]
    obtain ⟨c, rest, rfl⟩ := List.exists_cons_of_ne_nil hwhole
    refine ⟨c, rest ++ '.' :: fraction, rfl, hdigits c (by simp), fun c' hc' ↦ ?_, hpoint⟩
    simp only [List.mem_append, List.mem_cons] at hc'
    rcases hc' with hc' | rfl | hc'
    · exact .inl (hdigits c' (by simp [hc']))
    · exact .inr rfl
    · exact .inl (hdigits c' (by simp [hc']))

/-- What is taken off the front of a numeral is nothing, or one of the two signs. -/
theorem splitSign_cases (text : List Char) :
    ∃ negative rest, splitSign text = (negative, rest) ∧
      (text = rest ∨ text = '-' :: rest ∨ text = '+' :: rest) := by
  rw [splitSign.eq_def]
  split
  · exact ⟨_, _, rfl, .inr (.inl rfl)⟩
  · exact ⟨_, _, rfl, .inr (.inr rfl)⟩
  · exact ⟨_, _, rfl, .inl rfl⟩

/-- Where no sign comes first, none is taken off. -/
theorem splitSign_eq_self {text : List Char} (h : ∀ c ∈ text.head?, c ≠ '-' ∧ c ≠ '+') :
    splitSign text = (false, text) := by
  unfold splitSign
  split
  · exact absurd rfl (h '-' rfl).1
  · exact absurd rfl (h '+' rfl).2
  · rfl

/-- A digit or a point is no sign. -/
theorem ne_sign {c : Char} (h : c.isDigit ∨ c = '.') : c ≠ '-' ∧ c ≠ '+' := by
  rcases h with h | rfl
  · constructor <;> rintro rfl <;> simp at h
  · decide

/-- A text that starts with a digit has no sign. -/
theorem splitSign_of_isDigit {c : Char} (h : c.isDigit) (text : List Char) :
    splitSign (c :: text) = (false, c :: text) :=
  splitSign_eq_self fun _ hc ↦ Option.some.inj hc ▸ ne_sign (.inl h)

/-- The sign that is written is read. -/
theorem splitSign_signText (d : Decimal) {c : Char} (h : c.isDigit) (text : List Char) :
    splitSign (d.signText ++ c :: text) = (d.negative, c :: text) := by
  unfold signText
  cases d.negative with
  | false => exact splitSign_of_isDigit h text
  | true => rfl

/-- A positional text is read as what it spells. -/
theorem ofPositional?_positional (d : Decimal) : ofPositional? d.positional = some d.spelled := by
  obtain ⟨c, numeral, hnumeral, hc, -, hread⟩ := d.exists_positional_eq
  rw [ofPositional?, hnumeral, splitSign_signText d hc]
  exact hread

/-! ### Numerals without a power of ten -/

/-- A digit or a point announces no power of ten. -/
theorem isPowerMark_eq_false {c : Char} (h : c.isDigit ∨ c = '.') : isPowerMark c = false := by
  rcases h with h | rfl
  · have hne : c ≠ 'e' ∧ c ≠ 'E' := by constructor <;> rintro rfl <;> simp at h
    simp [isPowerMark, hne]
  · rfl

/-- Among digits and points there is no power of ten to read. -/
theorem ofScientific?_eq_ofDigits? {text rest : List Char} {negative : Bool}
    (hsplit : splitSign text = (negative, rest)) (hrest : ∀ c ∈ rest, c.isDigit ∨ c = '.') :
    ofScientific? text = ofDigits? negative rest := by
  have hmark : ∀ c ∈ rest, (!isPowerMark c) = true := fun c hc ↦ by
    rw [isPowerMark_eq_false (hrest c hc), Bool.not_false]
  rw [ofScientific?, hsplit]
  dsimp only
  rw [List.takeWhile_eq_self_iff.2 hmark, List.dropWhile_eq_nil_iff.2 hmark]
  cases ofDigits? negative rest <;> rfl

/-- Spelling zeros out does not change the double. -/
theorem toFloat_spelled (d : Decimal) : d.spelled.toFloat = d.toFloat := by
  rw [spelled]
  split_ifs with he
  · obtain ⟨k, hk⟩ := Int.eq_ofNat_of_zero_le he
    refine toFloat_congr rfl ?_
    rw [hk, Int.toNat_natCast, zpow_natCast, zpow_zero, mul_one]
    push_cast
    rfl
  · rfl

/-- A zero behind the point does not change a whole number. -/
theorem toFloat_tenths (negative : Bool) (n : ℕ) :
    toFloat ⟨negative, n * 10, -1⟩ = toFloat ⟨negative, n, 0⟩ :=
  toFloat_congr rfl (by rw [Nat.cast_mul, mul_assoc]; norm_num)

end Decimal

namespace Number

/-! ### Whole numbers -/

/-- The numeral of a whole number is read as the nearest double. -/
theorem exponent?_toString (n : ℕ) :
    exponent? (toString n) = some (Decimal.toFloat ⟨false, n, 0⟩) := by
  have hdigits : ∀ c ∈ Nat.toDigits 10 n, c.isDigit :=
    fun _ hc ↦ Decimal.isDigit_of_mem_toDigits hc
  have hread := Decimal.ofDigits?_whole false Nat.toDigits_ne_nil hdigits
  rw [Nat.ofDigitChars_ten_toDigits] at hread
  rw [exponent?, Nat.toString_eq_ofList_toDigits, String.toList_ofList]
  obtain ⟨c, rest, heq⟩ := List.exists_cons_of_ne_nil (Nat.toDigits_ne_nil (n := n) (b := 10))
  rw [heq] at hdigits hread ⊢
  rw [Decimal.ofPositional?, Decimal.splitSign_of_isDigit (hdigits c List.mem_cons_self)]
  dsimp only
  rw [hread, Option.map_some]

/-! ### The text of a number -/

/-- A double is a number or one of the three that have no digits. -/
theorem rational?_cases (x : Float) :
    (∃ q, rational? x = some q ∧ x.isNaN = false ∧ x.isInf = false) ∨
      rational? x = none ∧ text x ∈ ["NaN", "inf", "-inf"] := by
  show (∃ q, valueOf x.toModel.unpack = some q ∧ x.toModel.unpack.isNaN = false ∧
    x.toModel.unpack.isInf = false) ∨ valueOf x.toModel.unpack = none ∧ _
  have hnan : x.isNaN = x.toModel.unpack.isNaN := rfl
  have hinf : x.isInf = x.toModel.unpack.isInf := rfl
  rw [text, hnan, hinf]
  cases x.toModel.unpack with
  | finite s m e hm => exact .inl ⟨_, rfl, rfl, rfl⟩
  | zero s => exact .inl ⟨_, rfl, rfl, rfl⟩
  | infinity s =>
    refine .inr ⟨rfl, ?_⟩
    simp only [UnpackedFloat.isNaN, UnpackedFloat.isInf, if_true, Bool.false_eq_true, if_false]
    split <;> simp
  | notANumber => exact .inr ⟨rfl, by simp [UnpackedFloat.isNaN]⟩

/-- The text of a number is the positional text of its shortest decimal. -/
theorem text_of_rational? {x : Float} {q : ℚ} (h : rational? x = some q) :
    text x = String.ofList (Decimal.shortest x).positional := by
  rcases rational?_cases x with ⟨_, -, hnan, hinf⟩ | ⟨hnone, -⟩
  · simp only [text, hnan, hinf, Bool.false_eq_true, if_false]
  · simp [h] at hnone

/-- **The text of a finite double reads back**, bit for bit. It is positional, so that it is an
exponent where an expression has one, and nothing of the double is lost on the way. -/
theorem exponent?_text {x : Float} {q : ℚ} (h : rational? x = some q) :
    exponent? (text x) = some x := by
  have hshortest := Decimal.toFloat_shortest h
  rw [text_of_rational? h, exponent?, String.toList_ofList, Decimal.ofPositional?_positional,
    Option.map_some, Decimal.toFloat_spelled, hshortest]

/-- The words for the other doubles are no numerals. -/
theorem exponent?_text_of_not_finite {x : Float} (h : rational? x = none) :
    exponent? (text x) = none := by
  rcases rational?_cases x with ⟨q, hq, -⟩ | ⟨-, hword⟩
  · simp [h] at hq
  · simp only [List.mem_cons, List.not_mem_nil, or_false] at hword
    rcases hword with hword | hword | hword <;> rw [hword] <;> decide +kernel

/-- The characters of the texts of numbers. -/
def isTextChar (c : Char) : Bool :=
  c.isDigit || "-.NaNinf".toList.contains c

/-- The digits of whole numbers are among the characters of numbers. -/
theorem isTextChar_of_mem_toString {n : ℕ} {c : Char} (h : c ∈ (toString n).toList) :
    isTextChar c := by
  rw [Nat.toString_eq_ofList_toDigits, String.toList_ofList] at h
  simp [isTextChar, Decimal.isDigit_of_mem_toDigits h]

/-- The text of any double, a number or not, is made of those characters. -/
theorem isTextChar_of_mem_text {x : Float} {c : Char} (h : c ∈ (text x).toList) :
    isTextChar c := by
  rcases rational?_cases x with ⟨q, hq, -⟩ | ⟨-, hword⟩
  · obtain ⟨first, numeral, heq, hfirst, hnumeral, -⟩ := (Decimal.shortest x).exists_positional_eq
    rw [text_of_rational? hq, String.toList_ofList, heq, List.mem_append, List.mem_cons] at h
    rcases h with h | rfl | h
    · unfold Decimal.signText at h
      split at h
      · rw [List.mem_singleton.1 h]
        rfl
      · simp at h
    · simp [isTextChar, hfirst]
    · rcases hnumeral c h with hc | rfl
      · simp [isTextChar, hc]
      · rfl
  · simp only [List.mem_cons, List.not_mem_nil, or_false] at hword
    have hall : ∀ word ∈ ["NaN", "inf", "-inf"], word.toList.all isTextChar := by decide +kernel
    have := hall (text x) (by simpa using hword)
    exact List.all_eq_true.1 this c h

end Number

end DimensionalAnalysis
