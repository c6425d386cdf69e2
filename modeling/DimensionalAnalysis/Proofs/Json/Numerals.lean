import DimensionalAnalysis.Json.Reader
import DimensionalAnalysis.Json.Writer
import DimensionalAnalysis.Proofs.Number.Text

/-!
# Numerals read back from JSON

A numeral of JSON has a sign and three parts: a whole part without leading zeros, places behind a
point and a power of ten (`IsNumeral`). Each part is read off the front of the rest, so that a
numeral is read as far as it goes and no further (`readNumeral_append`), whatever stands behind it
that is no part of a numeral.

This is all that reading needs of a number format, together with a finite double for each numeral
that was written from one (`LawfulFormat`). It need not be the same double. In the format of the
shortest digits it is (`exact_read_write`): what is written spells the decimal that was chosen for
the double, or the same with zeros behind it (`toFloat_numeralText`), and this decimal reads back.
-/

namespace DimensionalAnalysis.Json

open Decimal (isPowerMark isDigit_of_mem_toDigits)

/-- What may stand behind a numeral without being taken for a part of it. -/
def EndsNumeral (rest : List Char) : Prop :=
  ∀ c ∈ rest.head?, c.isDigit = false ∧ c ≠ '.' ∧ isPowerMark c = false

/-- The parts of a numeral behind its sign. -/
structure AreParts (whole places power : List Char) : Prop where
  /-- A zero alone, or digits that do not start with one. -/
  whole_eq : whole = ['0'] ∨ ∃ c digits, whole = c :: digits ∧ c ≠ '0' ∧ ∀ c ∈ whole, c.isDigit
  /-- Nothing, or a point and digits. -/
  places_eq : places = [] ∨ ∃ digits, digits ≠ [] ∧ (∀ c ∈ digits, c.isDigit) ∧
    places = '.' :: digits
  /-- Nothing, or a letter, a sign of either kind or none, and digits. -/
  power_eq : power = [] ∨ ∃ mark sign digits, isPowerMark mark ∧
    (sign = [] ∨ sign = ['-'] ∨ sign = ['+']) ∧ digits ≠ [] ∧ (∀ c ∈ digits, c.isDigit) ∧
    power = mark :: (sign ++ digits)

/-- The text is a numeral of JSON. Its sign, if any, is a minus. -/
def IsNumeral (text : List Char) : Prop :=
  ∃ sign whole places power, (sign = [] ∨ sign = ['-']) ∧ AreParts whole places power ∧
    text = sign ++ (whole ++ places ++ power)

/-! ### Reading the parts -/

section Parts

variable {digits rest : List Char}

/-- Digits are read up to the first character that is no digit. There has to be at least one of
them. -/
theorem readDigits_append (hne : digits ≠ []) (hdigits : ∀ c ∈ digits, c.isDigit)
    (hrest : ∀ c ∈ rest.head?, c.isDigit = false) :
    readDigits (digits ++ rest) = some (digits, rest) := by
  have htake : rest.takeWhile Char.isDigit = [] := by
    cases rest with
    | nil => rfl
    | cons c rest => simp [hrest c rfl]
  have hdrop : rest.dropWhile Char.isDigit = rest := by
    cases rest with
    | nil => rfl
    | cons c rest => simp [hrest c rfl]
  simp [readDigits, List.takeWhile_append_of_pos hdigits, List.dropWhile_append_of_pos hdigits,
    htake, hdrop, hne]

/-- A whole part is read as far as its digits go. The zero that stands alone ends at once: the
reader does not look for further digits behind it, and so no numeral starts with two zeros. -/
theorem readWhole_append {whole : List Char}
    (hwhole : whole = ['0'] ∨ ∃ c digits, whole = c :: digits ∧ c ≠ '0' ∧ ∀ c ∈ whole, c.isDigit)
    (hrest : ∀ c ∈ rest.head?, c.isDigit = false) :
    readWhole (whole ++ rest) = some (whole, rest) := by
  rcases hwhole with rfl | ⟨c, digits, rfl, hc, hdigits⟩
  · rfl
  · rw [List.cons_append, readWhole.eq_2 _ (by rintro _ heq; exact hc (List.cons.inj heq).1),
      ← List.cons_append]
    exact readDigits_append (by simp) hdigits hrest

/-- The places are read with the point in front of them. Where there are none, what follows must
not be a point, since a point without digits behind it makes the reader fail. -/
theorem readPlaces_append {places : List Char}
    (hplaces : places = [] ∨ ∃ digits, digits ≠ [] ∧ (∀ c ∈ digits, c.isDigit) ∧
      places = '.' :: digits)
    (hrest : ∀ c ∈ rest.head?, c.isDigit = false ∧ c ≠ '.') :
    readPlaces (places ++ rest) = some (places, rest) := by
  rcases hplaces with rfl | ⟨digits, hne, hdigits, rfl⟩
  · rw [List.nil_append]
    rcases rest with - | ⟨c, rest⟩
    · rfl
    · exact readPlaces.eq_2 _ (by rintro _ heq; exact (hrest c rfl).2 (List.cons.inj heq).1)
  · rw [List.cons_append, readPlaces, readDigits_append hne hdigits fun c hc ↦ (hrest c hc).1]
    rfl

/-- No digit marks a power of ten. -/
theorem isPowerMark_of_isDigit {c : Char} (hc : c.isDigit) : isPowerMark c = false :=
  Decimal.isPowerMark_eq_false (.inl hc)

/-- A power of ten is read with its mark, and with its sign if it has one. What follows a
numeral without a power must not look like the mark of one. -/
theorem readPower_append {power : List Char}
    (hpower : power = [] ∨ ∃ mark sign digits, isPowerMark mark ∧
      (sign = [] ∨ sign = ['-'] ∨ sign = ['+']) ∧ digits ≠ [] ∧ (∀ c ∈ digits, c.isDigit) ∧
      power = mark :: (sign ++ digits))
    (hrest : EndsNumeral rest) : readPower (power ++ rest) = some (power, rest) := by
  rcases hpower with rfl | ⟨mark, sign, digits, hmark, hsign, hne, hdigits, rfl⟩
  · rw [List.nil_append]
    rcases rest with - | ⟨c, rest⟩
    · rfl
    · rw [readPower.eq_def]
      simp [(hrest c rfl).2.2]
  · have hread := readDigits_append hne hdigits fun c hc ↦ (hrest c hc).1
    rw [List.cons_append, List.append_assoc, readPower.eq_def]
    rcases hsign with rfl | rfl | rfl
    · -- the sign is left out, and the first digit is not taken for one
      obtain ⟨c, digits, rfl⟩ := List.exists_cons_of_ne_nil hne
      have hc := hdigits c List.mem_cons_self
      have hminus : c ≠ '-' := by
        rintro rfl
        simp at hc
      have hplus : c ≠ '+' := by
        rintro rfl
        simp at hc
      rw [List.cons_append] at hread
      simp [hmark, hminus, hplus, hread]
    · simp [hmark, hread]
    · simp [hmark, hread]

end Parts

namespace AreParts

variable {whole places power : List Char}

/-- A numeral has a whole part, also where its value is less than one. -/
theorem whole_ne_nil (h : AreParts whole places power) : whole ≠ [] := by
  rcases h.whole_eq with rfl | ⟨c, digits, rfl, -⟩ <;> simp

/-- The whole part consists of digits. -/
theorem isDigit_of_mem_whole (h : AreParts whole places power) : ∀ c ∈ whole, c.isDigit := by
  rcases h.whole_eq with rfl | ⟨c, digits, rfl, -, hdigits⟩
  · simp
  · exact hdigits

/-- Behind its sign a numeral starts with a digit. -/
theorem exists_cons (h : AreParts whole places power) :
    ∃ c body, whole ++ places ++ power = c :: body ∧ c.isDigit := by
  obtain ⟨c, digits, hcons⟩ := List.exists_cons_of_ne_nil h.whole_ne_nil
  exact ⟨c, digits ++ places ++ power, by simp [hcons],
    h.isDigit_of_mem_whole c (hcons ▸ List.mem_cons_self)⟩

/-- Each part ends where the next one starts.

The parts are read from the left, and each of the three lemmas above asks for something of the
text behind its part: that it does not continue the digits, that it does not start with a point,
that it does not start with the mark of a power. The parts that follow satisfy this, and past
the last one `EndsNumeral` does. -/
theorem readUnsigned_append (h : AreParts whole places power) {rest : List Char}
    (hrest : EndsNumeral rest) :
    readUnsigned (whole ++ places ++ power ++ rest) = some (whole ++ places ++ power, rest) := by
  have hpower : ∀ c ∈ (power ++ rest).head?, c.isDigit = false ∧ c ≠ '.' := by
    rcases h.power_eq with rfl | ⟨mark, sign, digits, hmark, -, -, -, rfl⟩
    · exact fun c hc ↦ ⟨(hrest c hc).1, (hrest c hc).2.1⟩
    · rintro c hc
      obtain rfl : mark = c := by simpa using hc
      -- digits and points are not taken for the mark of a power
      constructor
      · by_contra hdigit
        rw [isPowerMark_of_isDigit (Bool.not_eq_false _ ▸ hdigit)] at hmark
        exact Bool.false_ne_true hmark
      · rintro rfl
        exact absurd hmark (by decide)
  have hplaces : ∀ c ∈ (places ++ (power ++ rest)).head?, c.isDigit = false := by
    rcases h.places_eq with rfl | ⟨digits, -, -, rfl⟩
    · exact fun c hc ↦ (hpower c hc).1
    · rintro c hc
      obtain rfl : '.' = c := by simpa using hc
      rfl
  rw [List.append_assoc, List.append_assoc, readUnsigned, readWhole_append h.whole_eq hplaces]
  simp [readPlaces_append h.places_eq hpower, readPower_append h.power_eq hrest]

end AreParts

/-- **A numeral is read as far as it goes.** Inside an object it is followed by a comma or by a
brace, neither of which is a part of it. -/
theorem readNumeral_append {numeral rest : List Char} (h : IsNumeral numeral)
    (hrest : EndsNumeral rest) : readNumeral (numeral ++ rest) = some (numeral, rest) := by
  obtain ⟨sign, whole, places, power, hsign, hparts, rfl⟩ := h
  have hread := hparts.readUnsigned_append hrest
  rcases hsign with rfl | rfl
  · obtain ⟨c, body, hcons, hc⟩ := hparts.exists_cons
    rw [hcons] at hread ⊢
    have hminus : c ≠ '-' := by
      rintro rfl
      simp at hc
    rw [List.nil_append, List.cons_append, readNumeral.eq_2 _ (by
      rintro _ heq
      exact hminus (List.cons.inj heq).1)]
    exact hread
  · generalize whole ++ places ++ power = body at hread ⊢
    simp [readNumeral, hread]

/-- A numeral starts with a minus or a digit. -/
theorem IsNumeral.exists_cons {numeral : List Char} (h : IsNumeral numeral) :
    ∃ c text, numeral = c :: text ∧ (c = '-' ∨ c.isDigit) := by
  obtain ⟨sign, whole, places, power, rfl | rfl, hparts, rfl⟩ := h
  · obtain ⟨c, body, hcons, hc⟩ := hparts.exists_cons
    exact ⟨c, body, hcons, .inr hc⟩
  · exact ⟨'-', _, rfl, .inl rfl⟩

/-! ### The value of a numeral -/

/-- Without a power of ten, a numeral is a positional one. -/
theorem ofScientific?_positional (d : Decimal) {c : Char} {body : List Char} (hc : c.isDigit)
    (hbody : ∀ b ∈ body, b.isDigit ∨ b = '.') :
    Decimal.ofScientific? (d.signText ++ c :: body) =
      Decimal.ofDigits? d.negative (c :: body) :=
  Decimal.ofScientific?_eq_ofDigits? (Decimal.splitSign_signText d hc body)
    (List.forall_mem_cons.2 ⟨.inl hc, hbody⟩)

/-- A power of ten moves the point of what is in front of it. -/
theorem ofScientific?_power (d : Decimal) {c : Char} {body power : List Char} {value : Decimal}
    {n : ℤ} (hc : c.isDigit) (hbody : ∀ b ∈ body, b.isDigit ∨ b = '.')
    (hvalue : Decimal.ofDigits? d.negative (c :: body) = some value)
    (hpower : Decimal.powerOfTen? power = some n) :
    Decimal.ofScientific? (d.signText ++ (c :: body ++ 'e' :: power)) =
      some { value with exponent := value.exponent + n } := by
  have hmark : ∀ b ∈ c :: body, (!isPowerMark b) = true := fun b hb ↦ by
    rw [Decimal.isPowerMark_eq_false (List.forall_mem_cons.2 ⟨.inl hc, hbody⟩ b hb), Bool.not_false]
  have he : isPowerMark 'e' = true := rfl
  rw [Decimal.ofScientific?, List.cons_append, Decimal.splitSign_signText d hc]
  dsimp only
  rw [← List.cons_append, List.takeWhile_append_of_pos hmark, List.dropWhile_append_of_pos hmark]
  simp [he, hvalue, hpower]

/-- The power of ten that a numeral is written with. -/
theorem powerOfTen?_toDigits (n : ℤ) :
    Decimal.powerOfTen? ((if n < 0 then ['-'] else []) ++ Nat.toDigits 10 n.natAbs) = some n := by
  have hall : ((Nat.toDigits 10 n.natAbs).all Char.isDigit &&
      !(Nat.toDigits 10 n.natAbs).isEmpty) = true := by
    simpa [Nat.toDigits_ne_nil] using fun _ ↦ isDigit_of_mem_toDigits
  split
  · have hsplit : Decimal.splitSign (['-'] ++ Nat.toDigits 10 n.natAbs) =
        (true, Nat.toDigits 10 n.natAbs) := rfl
    rw [Decimal.powerOfTen?, hsplit]
    dsimp only
    rw [if_pos hall, Nat.ofDigitChars_ten_toDigits, if_pos rfl]
    congr 1
    omega
  · obtain ⟨c, rest, hcons⟩ := List.exists_cons_of_ne_nil
      (Nat.toDigits_ne_nil (n := n.natAbs) (b := 10))
    have hc : c.isDigit := isDigit_of_mem_toDigits (hcons ▸ List.mem_cons_self)
    rw [List.nil_append, Decimal.powerOfTen?, hcons, Decimal.splitSign_of_isDigit hc, ← hcons]
    dsimp only
    rw [if_pos hall, Nat.ofDigitChars_ten_toDigits, if_neg Bool.false_ne_true]
    congr 1
    omega

/-! ### What is written -/

/-- Digits start with a zero only when they spell zero. This is where the numerals of JSON are
narrower than those of the parser, which takes leading zeros. -/
theorem head?_toDigits {n : ℕ} (hn : n ≠ 0) : (Nat.toDigits 10 n).head? ≠ some '0' := by
  have hchar : ∀ n < 10, n ≠ 0 → Nat.digitChar n ≠ '0' := by decide
  induction n using Nat.strongRecOn with
  | ind n ih =>
    by_cases hlt : n < 10
    · rw [Nat.toDigits_of_lt_base hlt]
      simpa using hchar n hlt hn
    · -- the first digit of a longer text is the first digit of its tenth part
      rw [Nat.toDigits_of_base_le (by norm_num) (by omega),
        List.head?_append_of_ne_nil _ Nat.toDigits_ne_nil]
      exact ih (n / 10) (by omega) (by omega)

/-- The whole part may be any digits that do not start with a zero. -/
theorem whole_of_head? {whole : List Char} (hne : whole ≠ []) (hhead : whole.head? ≠ some '0')
    (hdigits : ∀ c ∈ whole, c.isDigit) :
    ∃ c digits, whole = c :: digits ∧ c ≠ '0' ∧ ∀ c ∈ whole, c.isDigit := by
  obtain ⟨c, digits, rfl⟩ := List.exists_cons_of_ne_nil hne
  exact ⟨c, digits, rfl, by simpa using hhead, hdigits⟩

/-- A scientific text has the three parts of a numeral: the first digit, the other digits behind
a point if there are any, and the power of ten. -/
theorem exists_areParts_scientific {digits : List Char} (hne : digits ≠ [])
    (hdigits : ∀ c ∈ digits, c.isDigit) (n : ℤ) :
    ∃ whole places power, scientificText digits n = whole ++ places ++ power ∧
      AreParts whole places power := by
  obtain ⟨c, places, rfl⟩ := List.exists_cons_of_ne_nil hne
  refine ⟨[c], if places.isEmpty then [] else '.' :: places,
    'e' :: ((if n < 0 then ['-'] else []) ++ Nat.toDigits 10 n.natAbs), ?_, ?_, ?_, ?_⟩
  · simp [scientificText]
  · by_cases hc : c = '0'
    · exact .inl (by rw [hc])
    · exact .inr ⟨c, [], rfl, hc, by simpa using hdigits c List.mem_cons_self⟩
  · rcases places with - | ⟨c', places⟩
    · exact .inl rfl
    · exact .inr ⟨c' :: places, by simp, fun c hc ↦ hdigits c (List.mem_cons_of_mem _ hc), rfl⟩
  · refine .inr ⟨'e', _, _, rfl, ?_, Nat.toDigits_ne_nil, fun _ ↦ isDigit_of_mem_toDigits, rfl⟩
    split
    · exact .inr (.inl rfl)
    · exact .inl rfl

/-- A whole number is written with a point and a zero behind its digits. -/
theorem exists_areParts_whole {d : Decimal} (h : d.digits ≠ 0 ∨ d.exponent = 0)
    (he : 0 ≤ d.exponent) :
    ∃ whole places power, d.positional ++ ['.', '0'] = d.signText ++ (whole ++ places ++ power) ∧
      AreParts whole places power := by
  have hne : Nat.toDigits 10 d.digits ≠ [] := Nat.toDigits_ne_nil
  refine ⟨Nat.toDigits 10 d.digits ++ List.replicate d.exponent.toNat '0', ['.', '0'], [], ?_,
    ?_, .inr ⟨['0'], by simp, by simp, rfl⟩, .inl rfl⟩
  · rw [Decimal.positional, if_pos he]
    simp
  · rcases eq_or_ne d.digits 0 with hzero | hzero
    · rw [hzero, h.resolve_left (by simpa using hzero)]
      exact .inl rfl
    · refine .inr (whole_of_head? (by simp [hne]) ?_ fun c hc ↦ ?_)
      · rw [List.head?_append_of_ne_nil _ hne]
        exact head?_toDigits hzero
      · rcases List.mem_append.1 hc with hc | hc
        · exact isDigit_of_mem_toDigits hc
        · rw [List.eq_of_mem_replicate hc]
          rfl

/-- A fraction is written with its point, and its whole part is zero or starts as the digits do. -/
theorem exists_areParts_fraction {d : Decimal} (h : d.digits ≠ 0 ∨ d.exponent = 0)
    (he : ¬0 ≤ d.exponent) :
    ∃ whole places power, d.positional = d.signText ++ (whole ++ places ++ power) ∧
      AreParts whole places power := by
  obtain ⟨whole, fraction, hplace, hwhole, hlength, -, hmem, hhead⟩ :=
    Decimal.placePoint_eq Nat.toDigits_ne_nil (show 0 < (-d.exponent).toNat by omega)
  have hall : ∀ c ∈ whole ++ fraction, c.isDigit := by
    intro c hc
    rcases hmem c hc with rfl | hc
    · rfl
    · exact isDigit_of_mem_toDigits hc
  refine ⟨whole, '.' :: fraction, [], ?_, ?_, .inr ⟨fraction, ?_, ?_, rfl⟩, .inl rfl⟩
  · rw [Decimal.positional, if_neg he, hplace]
    simp
  · refine hhead.imp_right fun hhead ↦ whole_of_head? hwhole ?_ fun c hc ↦ hall c (by simp [hc])
    rw [hhead]
    exact head?_toDigits (h.resolve_right (by omega))
  · rintro rfl
    rw [List.length_nil] at hlength
    omega
  · exact fun c hc ↦ hall c (by simp [hc])

/-- A decimal is written in three parts, behind its sign.

A decimal whose digits are zero is excepted unless it has no power of ten. A positive one would be
spelled by further zeros, and no numeral of JSON starts with two of them. The decimals that are
chosen for doubles are of the form that is asked for (`Decimal.digits_shortest`). -/
theorem exists_areParts {d : Decimal} (h : d.digits ≠ 0 ∨ d.exponent = 0) :
    ∃ whole places power, numeralText d = d.signText ++ (whole ++ places ++ power) ∧
      AreParts whole places power := by
  unfold numeralText
  dsimp only
  split
  · by_cases he : 0 ≤ d.exponent
    · rw [if_pos he]
      exact exists_areParts_whole h he
    · rw [if_neg he, List.append_nil]
      exact exists_areParts_fraction h he
  · obtain ⟨whole, places, power, htext, hparts⟩ := exists_areParts_scientific
      Nat.toDigits_ne_nil (fun _ ↦ isDigit_of_mem_toDigits) _
    exact ⟨whole, places, power, congrArg (d.signText ++ ·) htext, hparts⟩

/-- A decimal is written as a numeral. -/
theorem isNumeral_numeralText {d : Decimal} (h : d.digits ≠ 0 ∨ d.exponent = 0) :
    IsNumeral (numeralText d) := by
  obtain ⟨whole, places, power, htext, hparts⟩ := exists_areParts h
  refine ⟨d.signText, whole, places, power, ?_, hparts, htext⟩
  unfold Decimal.signText
  split
  · exact .inr rfl
  · exact .inl rfl

/-- A scientific numeral is read as the decimal it was written for, the power of ten as well as
the digits. The point behind the first digit lowers the power by the number of places, and the
mark gives it back. -/
theorem ofScientific?_scientificText (d : Decimal) :
    Decimal.ofScientific? (d.signText ++ scientificText (Nat.toDigits 10 d.digits)
      ((Nat.toDigits 10 d.digits).length + d.exponent - 1)) = some d := by
  have hread := Nat.ofDigitChars_ten_toDigits (n := d.digits)
  have hdigits : ∀ c ∈ Nat.toDigits 10 d.digits, c.isDigit := fun _ ↦ isDigit_of_mem_toDigits
  obtain ⟨c, places, hcons⟩ := List.exists_cons_of_ne_nil
    (Nat.toDigits_ne_nil (n := d.digits) (b := 10))
  rw [hcons] at hread hdigits ⊢
  have hc := hdigits c List.mem_cons_self
  -- what stands in front of the mark is the first digit, and the others behind a point
  obtain ⟨body, htext, hbody, hvalue⟩ : ∃ body,
      (if places.isEmpty then [] else '.' :: places) = body ∧
        (∀ b ∈ body, b.isDigit ∨ b = '.') ∧
        Decimal.ofDigits? d.negative (c :: body) =
          some ⟨d.negative, d.digits, -(places.length : ℤ)⟩ := by
    refine ⟨_, rfl, ?_⟩
    rcases places with - | ⟨p, places⟩
    · refine ⟨by simp, ?_⟩
      rw [← hread]
      exact Decimal.ofDigits?_whole d.negative (by simp) hdigits
    · refine ⟨fun b hb ↦ ?_, ?_⟩
      · rcases List.mem_cons.1 hb with rfl | hb
        · exact .inr rfl
        · exact .inl (hdigits b (List.mem_cons_of_mem _ hb))
      · rw [← hread]
        exact Decimal.ofDigits?_fraction d.negative
          (show [c] ++ p :: places ≠ [] by simp) hdigits
  have hpower := ofScientific?_power d hc hbody hvalue
    (powerOfTen?_toDigits ((c :: places).length + d.exponent - 1))
  have hexponent : -(places.length : ℤ) + ((c :: places).length + d.exponent - 1) = d.exponent := by
    rw [List.length_cons]
    push_cast
    ring
  -- what the point takes from the power of ten is what the mark adds to it
  rw [hexponent] at hpower
  rw [scientificText, List.drop_one, List.tail_cons, htext]
  simpa using hpower

/-- A whole number is read with one more zero, the one behind the point. -/
theorem ofScientific?_whole {d : Decimal} (he : 0 ≤ d.exponent) :
    Decimal.ofScientific? (d.positional ++ ['.', '0']) =
      some ⟨d.negative, d.digits * 10 ^ d.exponent.toNat * 10, -1⟩ := by
  obtain ⟨whole, hwhole⟩ : ∃ whole,
      Nat.toDigits 10 d.digits ++ List.replicate d.exponent.toNat '0' = whole := ⟨_, rfl⟩
  have hdigits : ∀ c ∈ whole ++ ['0'], c.isDigit := by
    simp only [← hwhole, List.mem_append, List.mem_replicate, List.mem_singleton]
    rintro c ((hc | ⟨-, rfl⟩) | rfl)
    · exact isDigit_of_mem_toDigits hc
    · rfl
    · rfl
  have hvalue : Nat.ofDigitChars 10 (whole ++ ['0']) 0 =
      d.digits * 10 ^ d.exponent.toNat * 10 := by
    simp [← hwhole, Nat.ofDigitChars_append, Nat.ofDigitChars_replicate_zero,
      Nat.ofDigitChars_ten_toDigits, Nat.ofDigitChars_cons, mul_comm]
  obtain ⟨c, rest, rfl⟩ : ∃ c rest, whole = c :: rest :=
    List.exists_cons_of_ne_nil (by simp [← hwhole, Nat.toDigits_ne_nil])
  have hread := Decimal.ofDigits?_fraction d.negative (by simp) hdigits
  rw [hvalue] at hread
  have hbody : ∀ b ∈ rest ++ ['.', '0'], b.isDigit ∨ b = '.' := by
    simp only [List.mem_append, List.mem_cons, List.not_mem_nil, or_false]
    rintro b (hb | rfl | rfl)
    · exact .inl (hdigits b (by simp [hb]))
    · exact .inr rfl
    · exact .inl rfl
  rw [Decimal.positional, if_pos he, hwhole, List.append_assoc, List.cons_append,
    ofScientific?_positional d (hdigits c (by simp)) hbody]
  exact hread

/-- **What is written for a decimal is read as its double.** The decimal that is read need not
be the one that was written, since a whole number gets a zero behind its point. -/
theorem toFloat_numeralText (d : Decimal) :
    ∃ value, Decimal.ofScientific? (numeralText d) = some value ∧ value.toFloat = d.toFloat := by
  unfold numeralText
  dsimp only
  split
  · by_cases he : 0 ≤ d.exponent
    · refine ⟨_, by rw [if_pos he, ofScientific?_whole he], ?_⟩
      rw [Decimal.toFloat_tenths, ← Decimal.toFloat_spelled d, Decimal.spelled, if_pos he]
    · obtain ⟨c, numeral, heq, hc, hnumeral, hread⟩ := d.exists_positional_eq
      rw [Decimal.spelled, if_neg he] at hread
      refine ⟨d, ?_, rfl⟩
      rw [if_neg he, List.append_nil, heq, ofScientific?_positional d hc hnumeral, hread]
  · exact ⟨d, ofScientific?_scientificText d, rfl⟩

/-! ### Formats -/

/-- A number format that writes numerals of JSON, and reads a finite double from what it has
written for one.

Nothing is said about which double this is. A reader that takes the quickest way to a double may
miss the closest one, and what is proved about quantities that are read back holds for it too.
-/
structure LawfulFormat extends NumberFormat where
  isNumeral_write : ∀ {x}, x.isFinite → IsNumeral (write x)
  isFinite_read_write : ∀ {x}, x.isFinite → (read (write x)).isFinite

/-- A lawful format is used wherever a format is. -/
instance : Coe LawfulFormat NumberFormat where
  coe := LawfulFormat.toNumberFormat

namespace NumberFormat

/-- The shortest digits are read as the double that they were written for.

Both signs of zero are included, as the sign is a part of what is written. -/
theorem exact_read_write {x : Float} (hx : x.isFinite) : exact.read (exact.write x) = x := by
  obtain ⟨q, hq⟩ := Number.exists_rational?_of_isFinite hx
  obtain ⟨value, hvalue, htoFloat⟩ := toFloat_numeralText (Decimal.shortest x)
  show ((Decimal.ofScientific? (numeralText (Decimal.shortest x))).map Decimal.toFloat).getD
    (0.0 / 0.0) = x
  rw [hvalue, Option.map_some, Option.getD_some, htoFloat, Decimal.toFloat_shortest hq]

end NumberFormat

/-- The shortest digits and the closest double. -/
def LawfulFormat.exact : LawfulFormat where
  toNumberFormat := .exact
  isNumeral_write hx := by
    obtain ⟨q, hq⟩ := Number.exists_rational?_of_isFinite hx
    exact isNumeral_numeralText (Decimal.digits_shortest hq)
  isFinite_read_write hx := by rwa [NumberFormat.exact_read_write hx]

end DimensionalAnalysis.Json
