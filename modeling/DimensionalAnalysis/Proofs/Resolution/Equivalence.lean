import DimensionalAnalysis.Proofs.Resolution.Order

/-!
# Expressions of one dimension

Two expressions have one dimension if their signatures are equal, and signatures are equal if no
exponents differ. What differs is told by subtraction, and an infinite exponent or a NaN differs
from every exponent. So having one dimension is symmetric and transitive, and it is reflexive on
the expressions whose signature is finite and on no others
(`Catalog.sameDimension_equivalence`): another expression does not even convert into itself.

How a signature comes to have an exponent that is no number is a matter of the exponents in the
text. Numerals up to `2 ^ 960` do not get there (`Expression.IsModerate`): a term adds to an
exponent what it asks for and a few roundings, which is less than nine times the largest
numeral.

Nine is the unit once, and its power less one: an entry of at most three times an exponent that
is at most twice the numeral, with some room for the roundings. The bound is generous, since all
that matters is that it stays finite.
-/

namespace DimensionalAnalysis

open Number (Within)

/-! ### Bounds of signatures -/

namespace Signature

variable {s t : Signature} {d : Dimension} {a b c : ℚ}

/-- Exponents of a sum are within the sum of the bounds, up to a rounding. -/
theorem within_get_add (hs : Within (s.get d) a) (ht : Within (t.get d) b)
    (hle : (1 + 2 ^ (-52 : ℤ)) * (a + b) + 1 ≤ c) (hc : c ≤ 2 ^ (1023 : ℤ)) :
    Within ((s + t).get d) c := by
  obtain h | ⟨-, h⟩ := get_add s t d
  · rw [h]
    exact hs.add ht hle hc
  · rw [h]
    exact hs.mono (by linarith [Number.le_of_rounded_le (add_nonneg hs.nonneg ht.nonneg) hle,
      ht.nonneg])

/-- Exponents of a difference are within the sum of the bounds, up to a rounding. -/
theorem within_get_sub (hs : Within (s.get d) a) (ht : Within (t.get d) b)
    (hle : (1 + 2 ^ (-52 : ℤ)) * (a + b) + 1 ≤ c) (hc : c ≤ 2 ^ (1023 : ℤ)) :
    Within ((s - t).get d) c := by
  obtain h | ⟨-, h⟩ := get_sub s t d
  · rw [h]
    exact hs.sub ht hle hc
  · rw [h]
    exact hs.mono (by linarith [Number.le_of_rounded_le (add_nonneg hs.nonneg ht.nonneg) hle,
      ht.nonneg])

/-- Exponents of a multiple are within the product of the bounds, up to a rounding. -/
theorem within_get_scaled {x : Float} (hs : Within (s.get d) a) (hx : Within x b)
    (hle : (1 + 2 ^ (-52 : ℤ)) * (a * b) + 1 ≤ c) (hc : c ≤ 2 ^ (1023 : ℤ)) :
    Within ((s.scaled x).get d) c := by
  obtain h | ⟨-, h⟩ := get_scaled s x d
  · rw [h]
    exact hs.mul hx hle hc
  · rw [h]
    have hnonneg := mul_nonneg hs.nonneg hx.nonneg
    exact .zero (hnonneg.trans (Number.le_of_rounded_le hnonneg hle))

end Signature

section Terms

variable {d : Dimension} {a x : ℚ}

/-- A term adds less than nine times the bound of its exponent, as long as roundings are small
beside that bound. -/
theorem within_get_addTerm {acc unit : Resolution} {t : Term} (hx : 16 ≤ x)
    (htop : 2 ^ 52 * x ≤ 2 ^ (1023 : ℤ)) (ha : a + 9 * x ≤ 2 ^ 51 * x)
    (hacc : Within (acc.signature.get d) a) (hunit : Within (unit.signature.get d) 3)
    (ht : ∀ y ∈ t.exponent, Within y x) :
    Within ((acc.addTerm unit t).signature.get d) (a + 9 * x) := by
  have hnonneg := hacc.nonneg
  have hroom : ∀ {c : ℚ}, c ≤ a + 9 * x → c ≤ 2 ^ (1023 : ℤ) := fun hc ↦
    (hc.trans (by linarith only [ha, hx])).trans htop
  have htimes : Within ((acc.times unit).signature.get d) (a + x) :=
    Signature.within_get_add hacc hunit (by norm_num; linarith only [ha, hx])
      (hroom (by linarith only [hx]))
  rw [Resolution.addTerm]
  cases hy : t.exponent with
  | none => exact htimes.mono (by linarith only [hx])
  | some y =>
    have hone : Within 1.0 1 := ⟨1, Number.rational?_one, by rw [abs_one]⟩
    -- the exponent less one, then times the entries of the unit, then added
    have hpower : Within (y - 1.0) (2 * x) := (ht y hy).sub hone
      (by norm_num; linarith only [hx]) (hroom (by linarith only [hx, hnonneg]))
    have hscaled : Within ((unit.signature.scaled (y - 1.0)).get d) (7 * x) :=
      Signature.within_get_scaled hunit hpower (by norm_num; linarith only [hx])
        (hroom (by linarith only [hx, hnonneg]))
    exact Signature.within_get_add htimes hscaled (by norm_num; linarith only [ha, hx])
      (hroom le_rfl)

/-- Terms add up to nine times the bound of their exponents for each of them. -/
theorem within_get_resolveTerms {single : String → Except Fault Resolution} {ts : List Term}
    {acc r : Resolution} (hx : 16 ≤ x) (htop : 2 ^ 52 * x ≤ 2 ^ (1023 : ℤ))
    (ha : a + ts.length * (9 * x) ≤ 2 ^ 51 * x)
    (hts : ∀ t ∈ ts, ∀ y ∈ t.exponent, Within y x)
    (hunits : ∀ t ∈ ts, ∀ unit, single t.symbol = .ok unit → Within (unit.signature.get d) 3)
    (hacc : Within (acc.signature.get d) a) (h : resolveTerms single acc ts = .ok r) :
    Within (r.signature.get d) (a + ts.length * (9 * x)) := by
  induction ts generalizing acc a with
  | nil =>
    obtain rfl : acc = r := by simpa [resolveTerms] using h
    simpa using hacc
  | cons t ts ih =>
    rw [resolveTerms, bind_eq_ok_iff] at h
    obtain ⟨unit, hunit, h⟩ := h
    have hrest : 0 ≤ (ts.length : ℚ) * (9 * x) :=
      mul_nonneg (Nat.cast_nonneg _) (by linarith only [hx])
    rw [List.length_cons, Nat.cast_add_one, add_one_mul, add_comm _ (9 * x), ← add_assoc] at ha ⊢
    have hstep := within_get_addTerm hx htop (by linarith only [ha, hrest]) hacc
      (hunits t List.mem_cons_self unit hunit) (hts t List.mem_cons_self)
    exact ih ha (fun t ht ↦ hts t (List.mem_cons_of_mem _ ht))
      (fun t ht ↦ hunits t (List.mem_cons_of_mem _ ht)) hstep h

end Terms

/-- Not too many terms, and no exponent too large. -/
structure Expression.IsModerate (e : Expression) : Prop where
  length_le : e.terms.length ≤ 2 ^ 40
  within : ∀ t ∈ e.terms, ∀ x ∈ t.exponent, Within x (2 ^ (960 : ℤ))

namespace Catalog

variable {e f g : String} {r s t : Resolution}

/-- One side of a moderate expression over the standard catalog. -/
theorem within_get_resolveTerms_standard {ts : List Term} {acc : Resolution} {x : ℚ} (hx : 16 ≤ x)
    (htop : 2 ^ 52 * x ≤ 2 ^ (1023 : ℤ)) (hlength : ts.length ≤ 2 ^ 40)
    (hts : ∀ t ∈ ts, ∀ y ∈ t.exponent, Within y x)
    (h : resolveTerms standard.resolveUnit .unity ts = .ok acc) (d : Dimension) :
    Within (acc.signature.get d) (2 ^ 51 * x) := by
  have hunity : Within (Resolution.unity.signature.get d) 0 :=
    ⟨0, by simpa using Resolution.rational?_get_unity d, by rw [abs_zero]⟩
  have hunits : ∀ t ∈ ts, ∀ unit, standard.resolveUnit t.symbol = .ok unit →
      Within (unit.signature.get d) 3 := by
    intro t _ unit hunit
    obtain ⟨k, hk, hvalue⟩ := exists_entry_of_resolveUnit hunit d
    exact ⟨k, hvalue, by exact_mod_cast hk⟩
  have hlength : (ts.length : ℚ) ≤ 2 ^ 40 := by exact_mod_cast hlength
  have hle : 0 + ts.length * (9 * x) ≤ 2 ^ 51 * x := by
    have := mul_le_mul_of_nonneg_right hlength (show 0 ≤ 9 * x by linarith only [hx])
    linarith only [hx, this]
  exact (within_get_resolveTerms hx htop hle hts hunits hunity h).mono hle

/-- What is moderate as text resolves to finite exponents. -/
theorem isFinite_of_isModerate (h : standard.resolve e = .ok r) {terms : Expression}
    (hterms : Expression.ofString e = .ok terms) (hmoderate : terms.IsModerate) :
    r.signature.IsFinite := by
  obtain ⟨terms', n, m, hterms', -, hn, hm, hr⟩ := exists_ofString_of_resolveText h
  obtain rfl : terms' = terms := Except.ok.inj (hterms'.symm.trans hterms)
  obtain ⟨x, hx⟩ : ∃ x : ℚ, x = 2 ^ (960 : ℤ) := ⟨_, rfl⟩
  -- a name for the power, so that the bounds below are linear in it
  have hx16 : 16 ≤ x := by
    rw [hx, show (16 : ℚ) = 2 ^ (4 : ℤ) by norm_num]
    exact zpow_le_zpow_right₀ (by norm_num) (by norm_num)
  have htop : 2 ^ 53 * x ≤ 2 ^ (1023 : ℤ) := by
    rw [hx, ← zpow_natCast, ← zpow_add₀ (by norm_num)]
    exact zpow_le_zpow_right₀ (by norm_num) (by norm_num)
  have hhalf : 2 ^ 52 * x ≤ 2 ^ (1023 : ℤ) := le_trans (by linarith only [hx16]) htop
  have hwithin := hmoderate.within
  have hlength := hmoderate.length_le
  rw [← hx] at hwithin
  rw [Expression.terms, List.length_append] at hlength
  have hnumerator := within_get_resolveTerms_standard hx16 hhalf (by omega)
    (fun t ht ↦ hwithin t (List.mem_append_left _ ht)) hn
  have hdenominator := within_get_resolveTerms_standard hx16 hhalf (by omega)
    (fun t ht ↦ hwithin t (List.mem_append_right _ ht)) hm
  obtain ⟨-, rfl⟩ := combine_eq_ok_iff.1 hr
  rw [Signature.isFinite_iff]
  intro d
  exact (Signature.within_get_sub (hnumerator d) (hdenominator d)
    (by norm_num; linarith only [hx16]) htop).isSome

/-! ### Compatible expressions -/

/-- For expressions that resolve, the answer is a comparison of signatures. -/
theorem sameDimension_eq (c : Catalog) (he : c.resolve e = .ok r) (hf : c.resolve f = .ok s) :
    c.sameDimension e f = .ok (r.signature == s.signature) := by
  rw [sameDimension, he, ok_bind, hf, ok_bind, pure_eq_ok]

/-- For expressions that resolve, the factor is a quotient of scales, or there is a mismatch. -/
theorem conversionFactor_eq (c : Catalog) (he : c.resolve e = .ok r) (hf : c.resolve f = .ok s) :
    c.conversionFactor e f =
      if r.signature == s.signature then .ok (r.scale / s.scale) else .error (.mismatch e f) := by
  rw [conversionFactor, he, ok_bind, hf, ok_bind]
  rfl

/-- **Having one dimension is an equivalence on the expressions of finite signature.** It is
symmetric and transitive on all that resolve, and an expression has the dimension of itself, and
converts into itself, exactly if its exponents are finite. They are if the text is moderate.

The texts that make a difference are those with an exponent beyond the largest double, or with
very many large ones. Nothing of it depends on the scales. -/
theorem sameDimension_equivalence (he : standard.resolve e = .ok r)
    (hf : standard.resolve f = .ok s) (hg : standard.resolve g = .ok t) :
    (standard.sameDimension e e = .ok true ↔ r.signature.IsFinite) ∧
    (standard.conversionFactor e e ≠ .error (.mismatch e e) ↔ r.signature.IsFinite) ∧
    (∀ terms, Expression.ofString e = .ok terms → terms.IsModerate → r.signature.IsFinite) ∧
    (∃ b, standard.sameDimension e f = .ok b ∧ standard.sameDimension f e = .ok b) ∧
    (standard.sameDimension e f = .ok true → standard.sameDimension f g = .ok true →
      standard.sameDimension e g = .ok true) := by
  rw [sameDimension_eq _ he he, sameDimension_eq _ he hf, sameDimension_eq _ hf hg,
    sameDimension_eq _ he hg, sameDimension_eq _ hf he, conversionFactor_eq _ he he]
  simp only [Except.ok.injEq]
  refine ⟨Signature.beq_self_iff, ?_, fun _ ↦ isFinite_of_isModerate he,
    ⟨_, rfl, BEq.comm⟩, BEq.trans⟩
  rw [← Signature.beq_self_iff]
  split <;> simp_all

/-- Three units of area. -/
theorem sameDimension_equivalence_areas :
    standard.sameDimension "m**2" "m**2" = .ok true ∧
    standard.conversionFactor "m**2" "m**2" ≠ .error (.mismatch "m**2" "m**2") ∧
    standard.sameDimension "m*in" "ft*m" = .ok true ∧
    standard.sameDimension "m**2" "ft*m" = .ok true := by
  obtain ⟨r, hr⟩ := exists_ok_of_isOk (x := standard.resolve "m**2") (by decide +kernel)
  obtain ⟨s, hs⟩ := exists_ok_of_isOk (x := standard.resolve "m*in") (by decide +kernel)
  obtain ⟨t, ht⟩ := exists_ok_of_isOk (x := standard.resolve "ft*m") (by decide +kernel)
  obtain ⟨hself, hconvert, hmoderate, -, htrans⟩ := sameDimension_equivalence hr hs ht
  have hterms : Expression.ofString "m**2" =
      .ok ⟨[⟨"m", some (Decimal.toFloat ⟨false, 2, 0⟩)⟩], []⟩ := by decide +kernel
  have hle : |(2 : ℚ)| ≤ 2 ^ (960 : ℤ) := by
    rw [abs_two]
    simpa using zpow_le_zpow_right₀ (a := (2 : ℚ)) (by norm_num) (show (1 : ℤ) ≤ 960 by norm_num)
  have htwo : Within (Decimal.toFloat ⟨false, 2, 0⟩) (2 ^ (960 : ℤ)) :=
    ⟨2, by simpa using (Decimal.rational?_toFloat_whole (show 2 < 2 ^ 53 by norm_num)).1, hle⟩
  have hfinite := hmoderate _ hterms ⟨by simp [Expression.terms], by simpa [Expression.terms]⟩
  have hfirst : standard.sameDimension "m**2" "m*in" = .ok true := by decide +kernel
  have hsecond : standard.sameDimension "m*in" "ft*m" = .ok true := by decide +kernel
  exact ⟨hself.2 hfinite, hconvert.2 hfinite, hsecond, htrans hfirst hsecond⟩

/-- A power of the metre beyond the largest double resolves, and does not have the dimension of
itself. -/
theorem not_sameDimension_self :
    ∃ e r, standard.resolve e = .ok r ∧ standard.sameDimension e e = .ok false ∧
      standard.conversionFactor e e = .error (.mismatch e e) := by
  obtain ⟨n, hn⟩ : ∃ n : ℕ, n = 10 ^ 309 := ⟨_, rfl⟩
  obtain ⟨x, hx⟩ : ∃ x, x = Decimal.toFloat ⟨false, n, 0⟩ := ⟨_, rfl⟩
  have hmetre : Expression.ofString "m" = .ok ⟨[⟨"m", none⟩], []⟩ := by decide +kernel
  have hpower := Expression.ofString_power_nat
    (Expression.isReadable_of_ofString hmetre ⟨"m", none⟩ List.mem_cons_self) n
  rw [← hx] at hpower
  have hterms : (resolveTerms standard.resolveUnit .unity [⟨"m", some x⟩]).toOption.any
      fun r ↦ !(r.signature - Signature.empty == r.signature - Signature.empty) := by
    rw [hx, hn]
    decide +kernel
  simp only [Option.any_eq_true, toOption_eq_some_iff, Bool.not_eq_true'] at hterms
  obtain ⟨r, hr, hself⟩ := hterms
  have hone : (Resolution.unity.scale == 0.0) = false := by decide +kernel
  have hresolve := (resolveText_eq_ok_iff_of_ofString hpower).2
    ⟨r, .unity, hr, rfl, combine_eq_ok_iff.2 ⟨hone, rfl⟩⟩
  refine ⟨_, _, hresolve, ?_, ?_⟩
  · rw [sameDimension_eq _ hresolve hresolve]
    exact congrArg _ hself
  · rw [conversionFactor_eq _ hresolve hresolve]
    exact if_neg (Bool.eq_false_iff.1 hself)

end Catalog

end DimensionalAnalysis
