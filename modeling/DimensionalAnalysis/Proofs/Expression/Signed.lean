import DimensionalAnalysis.Expression.Basic
import DimensionalAnalysis.Proofs.Number.Exact

/-!
# Signed terms

What an expression stands for does not depend on where its terms stand, but only on how often
each symbol is multiplied. So a term above the line counts as its symbol with its exponent, one
where there is none, and a term below the line as its symbol with the negative exponent. The
**signed terms** of an expression are the multiset of these (`Expression.signedTerms`).

Products add signed terms, quotients subtract and inverses negate them (`signedTerms_product`,
`signedTerms_quotient`, `signedTerms_inverted`), for all expressions and for all exponents, bit
for bit. That an inverse has two forms does not show: with terms below the line the two sides
change places, and otherwise every term is replaced by its reciprocal.

An expression itself is more than its signed terms, and inverting twice restores it only if there
are terms on both sides. With nothing below the line it loses the exponents that are one: the
first inverse makes them minus one, and the second drops that. With nothing above the line it
crosses from the one form of an inverse into the other.
-/

namespace DimensionalAnalysis

/-! ### Terms -/

/-- The same symbol with the opposite exponent. -/
def negateSigned (p : String × Float) : String × Float :=
  (p.1, -p.2)

/-- Negating twice changes no exponent, also if it is infinite or a NaN. -/
theorem negateSigned_negateSigned (p : String × Float) : negateSigned (negateSigned p) = p := by
  rw [negateSigned, negateSigned, Number.neg_neg_eq_self]

/-- Negating all exponents twice changes none. -/
theorem map_negateSigned_negateSigned (s : Multiset (String × Float)) :
    (s.map negateSigned).map negateSigned = s := by
  rw [Multiset.map_map, show negateSigned ∘ negateSigned = id from funext negateSigned_negateSigned,
    Multiset.map_id]

namespace Term

/-- The symbol of a term and its exponent, one where there is none. -/
def signed (t : Term) : String × Float :=
  (t.symbol, t.exponent.getD 1.0)

/-- The term without its exponent, if that is one. -/
def withoutOne (t : Term) : Term :=
  if t.exponent = some 1.0 then ⟨t.symbol, none⟩ else t

/-- Signed terms of terms that stand on one side. -/
def listSigned (ts : List Term) : Multiset (String × Float) :=
  ts.map signed

/-- Terms that are put beside one another are counted together. -/
theorem listSigned_append (ts us : List Term) :
    listSigned (ts ++ us) = listSigned ts + listSigned us := by
  rw [listSigned, List.map_append, ← Multiset.coe_add]
  rfl

/-- No exponent becomes minus one. -/
theorem reciprocal_none (symbol : String) :
    reciprocal ⟨symbol, none⟩ = ⟨symbol, some (-1.0)⟩ :=
  rfl

/-- An exponent is negated, unless it is minus one. -/
theorem reciprocal_some (symbol : String) (x : Float) :
    reciprocal ⟨symbol, some x⟩ = ⟨symbol, if x = -1.0 then none else some (-x)⟩ := by
  have hminus := Number.beq_iff_eq_of_ne_zero (x := x) Number.rational?_negOne (by norm_num)
  simp only [reciprocal, hminus]

/-- A reciprocal has the opposite exponent. No exponent stands for one, and minus one becomes no
exponent, so that either way the exponent is negated. -/
theorem signed_reciprocal (t : Term) : t.reciprocal.signed = negateSigned t.signed := by
  obtain ⟨symbol, - | x⟩ := t
  · rfl
  · rw [reciprocal_some]
    split
    · rename_i hx
      rw [hx, signed, signed, negateSigned, Option.getD_none, Option.getD_some,
        Number.neg_neg_eq_self]
    · rfl

/-- Reciprocals have the opposite exponents. -/
theorem listSigned_reciprocal (ts : List Term) :
    listSigned (ts.map reciprocal) = (listSigned ts).map negateSigned := by
  rw [listSigned, listSigned, Multiset.map_coe, List.map_map, List.map_map]
  exact congrArg _ (List.map_congr_left fun t _ ↦ signed_reciprocal t)

/-- The reciprocal of the reciprocal has no exponent in place of the exponent one. -/
theorem reciprocal_reciprocal (t : Term) : t.reciprocal.reciprocal = t.withoutOne := by
  obtain ⟨symbol, - | x⟩ := t
  · rw [reciprocal_none, reciprocal_some, if_pos rfl, withoutOne, if_neg (by simp)]
  · rw [reciprocal_some, withoutOne]
    simp only [Option.some.injEq]
    by_cases hminus : x = -1.0
    · rw [if_pos hminus, reciprocal_none, if_neg (hminus ▸ by decide +kernel), hminus]
    · have hone : -x = -1.0 ↔ x = 1.0 := by
        refine ⟨fun h ↦ ?_, congrArg (-·)⟩
        rw [← Number.neg_neg_eq_self x, h, Number.neg_neg_eq_self]
      simp only [if_neg hminus, reciprocal_some, hone, Number.neg_neg_eq_self]
      split <;> rfl

end Term

/-! ### Expressions -/

namespace Expression

open Term (listSigned)

variable {e : Expression}

/-- The symbols with their exponents above the line, and with their negative exponents below. -/
def signedTerms (e : Expression) : Multiset (String × Float) :=
  listSigned e.numerator + (listSigned e.denominator).map negateSigned

/-- Products add signed terms. -/
theorem signedTerms_product (e f : Expression) :
    (e.product f).signedTerms = e.signedTerms + f.signedTerms := by
  simp only [signedTerms, product, Term.listSigned_append, Multiset.map_add]
  exact add_add_add_comm _ _ _ _

/-- Quotients subtract signed terms. -/
theorem signedTerms_quotient (e f : Expression) :
    (e.quotient f).signedTerms = e.signedTerms + f.signedTerms.map negateSigned := by
  simp only [signedTerms, quotient, Term.listSigned_append, Multiset.map_add,
    map_negateSigned_negateSigned]
  rw [add_comm ((listSigned f.numerator).map negateSigned)]
  exact add_add_add_comm _ _ _ _

/-- With nothing below the line an inverse is made of reciprocals. -/
theorem inverted_of_denominator_eq_nil (h : e.denominator = []) :
    e.inverted = ⟨e.numerator.map Term.reciprocal, []⟩ := by
  rw [inverted, if_pos (List.isEmpty_iff.2 h)]

/-- With terms below the line an inverse exchanges the two sides. -/
theorem inverted_of_denominator_ne_nil (h : e.denominator ≠ []) :
    e.inverted = ⟨e.denominator, e.numerator⟩ := by
  rw [inverted, if_neg (mt List.isEmpty_iff.1 h)]

/-- Either form of an inverse negates the signed terms. -/
theorem signedTerms_inverted (e : Expression) :
    e.inverted.signedTerms = e.signedTerms.map negateSigned := by
  by_cases h : e.denominator = []
  · rw [inverted_of_denominator_eq_nil h, signedTerms, signedTerms, h, Term.listSigned_reciprocal]
    simp [listSigned]
  · rw [inverted_of_denominator_ne_nil h, signedTerms, signedTerms, Multiset.map_add,
      map_negateSigned_negateSigned, add_comm]

/-- **Arithmetic of expressions is arithmetic of signed terms**, for all expressions. Inverting
twice gives back the signed terms, and the expression itself if it has terms on both sides. With
nothing below the line it gives it back without its exponents one. With nothing above the line
it leaves the terms below as reciprocals above.

The equations are between multisets of symbols and doubles. No exponents are added up and
nothing cancels, so that no rounding and no overflow comes in. -/
theorem signedTerms_arithmetic (e f : Expression) :
    (e.product f).signedTerms = e.signedTerms + f.signedTerms ∧
    (e.quotient f).signedTerms = e.signedTerms + f.signedTerms.map negateSigned ∧
    e.inverted.signedTerms = e.signedTerms.map negateSigned ∧
    e.inverted.inverted.signedTerms = e.signedTerms ∧
    (e.numerator ≠ [] → e.denominator ≠ [] → e.inverted.inverted = e) ∧
    (e.denominator = [] → e.inverted.inverted = ⟨e.numerator.map Term.withoutOne, []⟩) ∧
    (e.numerator = [] → e.denominator ≠ [] →
      e.inverted.inverted = ⟨e.denominator.map Term.reciprocal, []⟩) := by
  refine ⟨signedTerms_product e f, signedTerms_quotient e f, signedTerms_inverted e, ?_,
    fun hnum hden ↦ ?_, fun hden ↦ ?_, fun hnum hden ↦ ?_⟩
  · rw [signedTerms_inverted, signedTerms_inverted, map_negateSigned_negateSigned]
  · rw [inverted_of_denominator_ne_nil hden, inverted_of_denominator_ne_nil hnum]
  · rw [inverted_of_denominator_eq_nil hden, inverted_of_denominator_eq_nil rfl, List.map_map]
    exact congrArg (Expression.mk · [])
      (List.map_congr_left fun t _ ↦ Term.reciprocal_reciprocal t)
  · rw [inverted_of_denominator_ne_nil hden, inverted_of_denominator_eq_nil hnum]

/-- Inverting twice: nothing below the line, where an exponent is one, minus one or a negative
zero; terms on both sides; nothing above the line. -/
theorem signedTerms_arithmetic_twice :
    let e : Expression := ⟨[⟨"m", some 1.0⟩, ⟨"s", some (-1.0)⟩, ⟨"kg", some (-0.0)⟩], []⟩
    let f : Expression := ⟨[⟨"A", some 1.0⟩], [⟨"K", none⟩]⟩
    let g : Expression := ⟨[], [⟨"s", some 2.0⟩]⟩
    e.inverted.inverted = ⟨[⟨"m", none⟩, ⟨"s", some (-1.0)⟩, ⟨"kg", some (-0.0)⟩], []⟩ ∧
      f.inverted.inverted = f ∧ g.inverted.inverted = ⟨[⟨"s", some (-2.0)⟩], []⟩ := by
  intro e f g
  obtain ⟨-, -, -, -, -, hone, -⟩ := signedTerms_arithmetic e f
  obtain ⟨-, -, -, -, hboth, -, -⟩ := signedTerms_arithmetic f g
  obtain ⟨-, -, -, -, -, -, hbelow⟩ := signedTerms_arithmetic g e
  refine ⟨(hone rfl).trans (by decide +kernel), hboth (by simp [f]) (by simp [f]),
    (hbelow rfl (by simp [g])).trans (by decide +kernel)⟩

end Expression

end DimensionalAnalysis
