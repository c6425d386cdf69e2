import DimensionalAnalysis.Proofs.Number.Order
import DimensionalAnalysis.Signature.Basic

/-!
# Exact arithmetic of signatures

Signatures add, subtract and scale entry by entry, and an absent entry takes part as a zero. As
long as the results are representable, the exponents that `get` reads do the same as rational
numbers.

What is stored and what is absent makes a difference to the doubles only where one of them is a
zero: an absent entry is not added at all (`get_add`), and adding zero changes no value
(`rational?_get_add_eq`). For values, and so for everything that is observed through them, the
difference is gone.

Signatures are equal exactly if all of their exponents are numbers and those of either are equal
(`beq_iff`). So equality is symmetric and transitive, and what it says of one signature is that
the signature **is finite** (`beq_self_iff`).
-/

namespace DimensionalAnalysis.Signature

open Number (rational? Representable IsInteger)

variable {s t : Signature} {d : Dimension} {p q : ℚ}

/-- An absent entry reads as zero. -/
theorem get_of_entry_none (h : s.entry d = none) : s.get d = 0.0 := by
  rw [get, h, Option.getD_none]

/-- A stored entry reads as it is. -/
theorem get_of_entry_some {x : Float} (h : s.entry d = some x) : s.get d = x := by
  rw [get, h, Option.getD_some]

/-- Without entries everything reads as zero. -/
theorem get_empty (d : Dimension) : empty.get d = 0.0 :=
  get_of_entry_none (entry_empty d)

/-- An exponent of a sum is the sum of the exponents, or the left one where the right one is
absent. -/
theorem get_add (s t : Signature) (d : Dimension) :
    (s + t).get d = s.get d + t.get d ∨ t.get d = 0.0 ∧ (s + t).get d = s.get d := by
  have hentry := entry_merge s t d
  cases hx : t.entry d with
  | none =>
    rw [hx] at hentry
    exact .inr ⟨get_of_entry_none hx, by rw [get, hentry, ← get]⟩
  | some x =>
    rw [hx] at hentry
    exact .inl (by rw [get_of_entry_some hx, get_of_entry_some hentry])

/-- An exponent of a difference is the difference of the exponents, or the left one where the
right one is absent. -/
theorem get_sub (s t : Signature) (d : Dimension) :
    (s - t).get d = s.get d - t.get d ∨ t.get d = 0.0 ∧ (s - t).get d = s.get d := by
  have hentry := entry_subtract s t d
  cases hx : t.entry d with
  | none =>
    rw [hx] at hentry
    exact .inr ⟨get_of_entry_none hx, by rw [get, hentry, ← get]⟩
  | some x =>
    rw [hx] at hentry
    exact .inl (by
      rw [get_of_entry_some hx, get_of_entry_some hentry, Number.sub_eq_add_neg])

/-- An exponent of a multiple is the multiple of the exponent, or zero where it is absent. -/
theorem get_scaled (s : Signature) (x : Float) (d : Dimension) :
    (s.scaled x).get d = s.get d * x ∨ s.get d = 0.0 ∧ (s.scaled x).get d = 0.0 := by
  have hentry := entry_scaled s x d
  cases hy : s.entry d with
  | none =>
    rw [hy] at hentry
    exact .inr ⟨get_of_entry_none hy, get_of_entry_none hentry⟩
  | some y =>
    rw [hy] at hentry
    exact .inl (by rw [get_of_entry_some hy, get_of_entry_some hentry])

/-- Absent or not, the exponents of a sum are the sums of exponents. -/
theorem rational?_get_add_eq (s t : Signature) (d : Dimension) :
    rational? ((s + t).get d) = rational? (s.get d + t.get d) := by
  obtain h | ⟨hzero, h⟩ := get_add s t d
  · rw [h]
  · rw [h, hzero, Number.add_swap, Number.rational?_zero_add]

/-- Absent or not, the exponents of a difference are the differences of exponents. -/
theorem rational?_get_sub_eq (s t : Signature) (d : Dimension) :
    rational? ((s - t).get d) = rational? (s.get d - t.get d) := by
  obtain h | ⟨hzero, h⟩ := get_sub s t d
  · rw [h]
  · rw [h, hzero, Number.rational?_sub_zero]

/-- The exponents of a multiple are the multiples of exponents. An infinite factor is an exception,
since it makes a NaN of a zero that is stored. -/
theorem rational?_get_scaled_eq {x : Float} (s : Signature) (hx : rational? x = some q)
    (d : Dimension) : rational? ((s.scaled x).get d) = rational? (s.get d * x) := by
  obtain h | ⟨hzero, h⟩ := get_scaled s x d
  · rw [h]
  · have hproduct := Number.rational?_mul Number.rational?_zero hx
    rw [zero_mul] at hproduct
    rw [h, hzero, hproduct Number.representable_zero, Number.rational?_zero]

/-- The exponents of a sum add exactly, as long as the result is representable. -/
theorem rational?_get_add (hs : rational? (s.get d) = some p) (ht : rational? (t.get d) = some q)
    (hrep : Representable (p + q)) : rational? ((s + t).get d) = some (p + q) := by
  rw [rational?_get_add_eq, Number.rational?_add hs ht hrep]

/-- The exponents of a difference subtract exactly, under the same condition. -/
theorem rational?_get_sub (hs : rational? (s.get d) = some p) (ht : rational? (t.get d) = some q)
    (hrep : Representable (p - q)) : rational? ((s - t).get d) = some (p - q) := by
  rw [rational?_get_sub_eq, Number.rational?_sub hs ht hrep]

/-- The exponents of a multiple multiply exactly, under the same condition. -/
theorem rational?_get_scaled {x : Float} (hs : rational? (s.get d) = some p)
    (hx : rational? x = some q) (hrep : Representable (p * q)) :
    rational? ((s.scaled x).get d) = some (p * q) := by
  rw [rational?_get_scaled_eq s hx, Number.rational?_mul hs hx hrep]

/-! ### Integer entries -/

section Integers

variable {m n : ℤ}

/-- Integer exponents add as integers, within 53 bits. -/
theorem rational?_get_add_int (hs : rational? (s.get d) = some (m : ℚ))
    (ht : rational? (t.get d) = some (n : ℚ)) (hlt : |m + n| < 2 ^ 53) :
    rational? ((s + t).get d) = some ((m + n : ℤ) : ℚ) := by
  have hrep := Number.representable_intCast hlt
  rw [Int.cast_add] at hrep ⊢
  exact rational?_get_add hs ht hrep

/-- Integer exponents subtract as integers, within 53 bits. -/
theorem rational?_get_sub_int (hs : rational? (s.get d) = some (m : ℚ))
    (ht : rational? (t.get d) = some (n : ℚ)) (hlt : |m - n| < 2 ^ 53) :
    rational? ((s - t).get d) = some ((m - n : ℤ) : ℚ) := by
  have hrep := Number.representable_intCast hlt
  rw [Int.cast_sub] at hrep ⊢
  exact rational?_get_sub hs ht hrep

/-- Integer exponents multiply as integers, within 53 bits. -/
theorem rational?_get_scaled_int {x : Float} (hs : rational? (s.get d) = some (m : ℚ))
    (hx : rational? x = some (n : ℚ)) (hlt : |m * n| < 2 ^ 53) :
    rational? ((s.scaled x).get d) = some ((m * n : ℤ) : ℚ) := by
  have hrep := Number.representable_intCast hlt
  rw [Int.cast_mul] at hrep ⊢
  exact rational?_get_scaled hs hx hrep

end Integers

/-! ### Nothing added -/

/-- Adding to nothing changes no value. -/
theorem rational?_get_empty_add (t : Signature) (d : Dimension) :
    rational? ((empty + t).get d) = rational? (t.get d) := by
  rw [rational?_get_add_eq, get_empty, Number.rational?_zero_add]

/-- The terms of a sum may be exchanged. Only the sign of a zero may change by it, since an entry
is added to a zero where the other signature has none. -/
theorem rational?_get_add_swap (s t : Signature) (d : Dimension) :
    rational? ((s + t).get d) = rational? ((t + s).get d) := by
  rw [rational?_get_add_eq, rational?_get_add_eq, Number.add_swap]

/-! ### Equality -/

/-- Signatures are equal exactly if their exponents are equal numbers. Equality asks whether a
difference is zero, and that the difference of an infinity and itself is no number makes
infinite exponents differ from all. -/
theorem beq_iff :
    s == t ↔ ∀ d, ∃ p, rational? (s.get d) = some p ∧ rational? (t.get d) = some p := by
  show Dimension.all.all (fun d ↦ s.get d - t.get d == 0.0) = true ↔ _
  rw [List.all_eq_true]
  exact ⟨fun h d ↦ Number.sub_beq_zero_iff.1 (h d (Dimension.mem_all d)),
    fun h d _ ↦ Number.sub_beq_zero_iff.2 (h d)⟩

/-- Equality is symmetric and transitive without exception. That it is not reflexive is left to
`beq_self_iff`. -/
instance : PartialEquivBEq Signature where
  symm h := beq_iff.2 fun d ↦ by
    obtain ⟨p, hs, ht⟩ := beq_iff.1 h d
    exact ⟨p, ht, hs⟩
  trans h h' := beq_iff.2 fun d ↦ by
    obtain ⟨p, hs, ht⟩ := beq_iff.1 h d
    obtain ⟨q, ht', hu⟩ := beq_iff.1 h' d
    obtain rfl : p = q := Option.some.inj (ht.symm.trans ht')
    exact ⟨p, hs, hu⟩

/-- Every exponent is finite. -/
def IsFinite (s : Signature) : Prop :=
  ∀ d, (s.get d).isFinite

/-- To be finite is to have a value for each exponent. -/
theorem isFinite_iff : s.IsFinite ↔ ∀ d, (rational? (s.get d)).isSome :=
  forall_congr' fun _ ↦ by rw [Number.isSome_rational?]

/-- A finite signature is equal to those that have its exponents. -/
theorem beq_iff_rational?_get (hs : s.IsFinite) :
    s == t ↔ ∀ d, rational? (s.get d) = rational? (t.get d) := by
  rw [beq_iff]
  refine forall_congr' fun d ↦ ?_
  obtain ⟨p, hp⟩ := Option.isSome_iff_exists.1 (isFinite_iff.1 hs d)
  rw [hp]
  constructor
  · rintro ⟨q, hq, ht⟩
    rw [hq, ht]
  · intro h
    exact ⟨p, rfl, h.symm⟩

/-- A signature is equal to itself exactly if it is finite. -/
theorem beq_self_iff : s == s ↔ s.IsFinite := by
  rw [beq_iff, isFinite_iff]
  refine forall_congr' fun d ↦ ?_
  rw [Option.isSome_iff_exists]
  exact exists_congr fun p ↦ and_self_iff

/-- Sums of exponents that are all finite add up to a finite signature. -/
theorem isFinite_add (hsum : ∀ d, (s.get d + t.get d).isFinite) : (s + t).IsFinite := by
  rw [isFinite_iff]
  intro d
  rw [rational?_get_add_eq, Number.isSome_rational?]
  exact hsum d

/-- The sums in either order are equal if they are finite. -/
theorem add_beq_swap (h : (s + t).IsFinite) : s + t == t + s :=
  (beq_iff_rational?_get h).2 (rational?_get_add_swap s t)

/-- Signatures with integers for exponents are equal when the integers are. -/
theorem beq_iff_of_rational? {m n : Dimension → ℤ}
    (hs : ∀ d, rational? (s.get d) = some (m d : ℚ))
    (ht : ∀ d, rational? (t.get d) = some (n d : ℚ)) : s == t ↔ ∀ d, m d = n d := by
  rw [beq_iff]
  refine forall_congr' fun d ↦ ?_
  rw [hs, ht]
  constructor
  · rintro ⟨p, hp, hq⟩
    exact_mod_cast (Option.some.inj hp).trans (Option.some.inj hq).symm
  · intro h
    exact ⟨m d, rfl, by rw [h]⟩

end DimensionalAnalysis.Signature
