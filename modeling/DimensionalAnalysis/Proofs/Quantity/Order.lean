import DimensionalAnalysis.Proofs.Quantity.Faults
import DimensionalAnalysis.Proofs.Resolution.Order

/-!
# Text and signature of quantities

Arithmetic composes the text of a unit and the signature of a unit side by side, the one from
terms and the other from doubles. In a run over expressions with integers for exponents the two
**agree**: the text reads, with integers again, and the signature is the order of what is read
(`Measure.agrees_of_mem_run`), as long as that is short enough for doubles to be exact.

Products add orders and weights, quotients subtract the one and add the other, and an inverse
negates the one and keeps the other. So the invariant needs the bound for the last text only: the
operands of a short text were short.
-/

namespace DimensionalAnalysis

open Number (rational? IsInteger toInt)

/-! ### Reciprocals -/

namespace Term

variable {t : Term}

/-- The reciprocal of a term has an integer for its exponent again. -/
theorem IsIntegral.reciprocal (h : t.IsIntegral) : t.reciprocal.IsIntegral := by
  intro y hy
  rw [Term.reciprocal] at hy
  cases hx : t.exponent with
  | none =>
    simp only [hx, Option.mem_some_iff] at hy
    exact hy ▸ ⟨-1, by rw [Number.rational?_negOne, Int.cast_neg, Int.cast_one]⟩
  | some x =>
    simp only [hx] at hy
    split at hy
    · simp at hy
    · exact Option.mem_some_iff.1 hy ▸ (h x hx).neg

/-- The reciprocal is of the negated power, also where the exponent is left out on either side.
-/
theorem power_reciprocal (h : t.IsIntegral) : t.reciprocal.power = -t.power := by
  have hone : toInt (-1.0) = -1 := Number.toInt_of_rational? (by simp [Number.rational?_negOne])
  rw [power, power, Term.reciprocal]
  cases hx : t.exponent with
  | none => simp [hone]
  | some x =>
    have hvalue := (h x hx).rational?_eq
    have heq := Number.beq_iff hvalue Number.rational?_negOne
    simp only [Option.map_some, Option.getD_some]
    -- the reciprocal of the power minus one has no exponent
    split
    · rename_i hbeq
      have : toInt x = -1 := by exact_mod_cast heq.1 hbeq
      simp [this]
    · rw [Option.map_some, Option.getD_some]
      exact Number.toInt_of_rational? (by rw [Number.rational?_neg hvalue, Int.cast_neg])

/-- It is of the same weight. -/
theorem weight_reciprocal (h : t.IsIntegral) : t.reciprocal.weight = t.weight := by
  rw [weight, weight, power_reciprocal h, abs_neg]

/-- No terms are of order zero. -/
theorem listOrder_nil (c : Catalog) (d : Dimension) : listOrder c [] d = 0 :=
  rfl

/-- The orders of two lists of terms are added. -/
theorem listOrder_append (c : Catalog) (ts us : List Term) (d : Dimension) :
    listOrder c (ts ++ us) d = listOrder c ts d + listOrder c us d := by
  rw [listOrder, List.map_append, List.sum_append]
  rfl

/-- The order of reciprocals is negated. -/
theorem listOrder_reciprocal (c : Catalog) {ts : List Term} (h : ∀ t ∈ ts, t.IsIntegral)
    (d : Dimension) : listOrder c (ts.map Term.reciprocal) d = -listOrder c ts d := by
  rw [listOrder, listOrder, List.sum_neg, List.map_map, List.map_map]
  refine congrArg List.sum (List.map_congr_left fun t ht ↦ ?_)
  rw [Function.comp_apply, power_reciprocal (h t ht), Expression.symbol_reciprocal, neg_mul]
  rfl

end Term

/-! ### Orders and weights of composed expressions -/

namespace Expression

variable {e f : Expression}

/-- The sum of `|exponent| + 1` over the terms. The one counts the term itself, so that a bound
on the weight is also a bound on the number of terms. -/
def weight (e : Expression) : ℤ :=
  (e.terms.map Term.weight).sum

/-- A weight is not negative. -/
theorem weight_nonneg (e : Expression) : 0 ≤ e.weight :=
  List.sum_nonneg fun n hn ↦ by
    obtain ⟨t, -, rfl⟩ := List.mem_map.1 hn
    exact t.weight_nonneg

/-- The weights of factors are added. -/
theorem weight_product (e f : Expression) : (e.product f).weight = e.weight + f.weight := by
  rw [weight, ((terms_product_perm e f).map _).sum_eq, List.map_append, List.sum_append]
  rfl

/-- Those of a dividend and a divisor are added too, since terms below the line count like those
above it. -/
theorem weight_quotient (e f : Expression) : (e.quotient f).weight = e.weight + f.weight := by
  rw [weight, ((terms_quotient_perm e f).map _).sum_eq, List.map_append, List.sum_append]
  rfl

/-- An inverse has the weight of what is inverted. -/
theorem weight_inverted (h : e.IsIntegral) : e.inverted.weight = e.weight := by
  rw [weight, weight]
  rcases terms_inverted_cases e with heq | hperm
  · rw [heq, List.map_map]
    exact congrArg List.sum (List.map_congr_left fun t ht ↦ Term.weight_reciprocal (h t ht))
  · exact (hperm.map _).sum_eq

/-- The orders of factors are added. -/
theorem order_product (c : Catalog) (e f : Expression) (d : Dimension) :
    (e.product f).order c d = e.order c d + f.order c d := by
  simp only [order, product, Term.listOrder_append]
  ring

/-- The order of the divisor is subtracted. -/
theorem order_quotient (c : Catalog) (e f : Expression) (d : Dimension) :
    (e.quotient f).order c d = e.order c d - f.order c d := by
  simp only [order, quotient, Term.listOrder_append]
  ring

/-- The order of an inverse is the negative one. This is so also where the terms above the line
have stayed there as reciprocals, because there was nothing below it. -/
theorem order_inverted (c : Catalog) (h : e.IsIntegral) (d : Dimension) :
    e.inverted.order c d = -e.order c d := by
  rw [inverted]
  split
  · rename_i hempty
    rw [List.isEmpty_iff] at hempty
    have hnum := Term.listOrder_reciprocal c (fun t ht ↦ h t (List.mem_append_left _ ht)) d
    simp only [order, hempty, hnum, Term.listOrder_nil, sub_zero]
  · simp only [order]
    ring

/-- Products of expressions with integers for exponents have integers for exponents. -/
theorem IsIntegral.product (he : e.IsIntegral) (hf : f.IsIntegral) : (e.product f).IsIntegral :=
  fun t ht ↦ (mem_terms_product.1 ht).elim (he t) (hf t)

/-- So have quotients, in which the terms only change sides. -/
theorem IsIntegral.quotient (he : e.IsIntegral) (hf : f.IsIntegral) : (e.quotient f).IsIntegral :=
  fun t ht ↦ (mem_terms_quotient.1 ht).elim (he t) (hf t)

/-- So have inverses. -/
theorem IsIntegral.inverted (he : e.IsIntegral) : e.inverted.IsIntegral := by
  intro t ht
  rcases mem_terms_inverted ht with ht | ⟨u, hu, rfl⟩
  · exact he t ht
  · exact (he u hu).reciprocal

/-- With integers for exponents, an expression is what its text says. -/
theorem IsIntegral.ofString_text (h : e.IsIntegral) (he : e.IsReadable) :
    ofString e.text = .ok e := by
  refine ofString_text_of_finite he fun t ht x hx ↦ ?_
  rw [(h t ht x hx).rational?_eq]
  rfl

/-- In the standard catalog a term counts three times at most. -/
theorem sum_weight_mul_largestEntry_le (h : ∀ t ∈ e.terms, namesUnit t.symbol) :
    (e.terms.map fun t ↦ t.weight * Catalog.standard.largestEntry t.symbol).sum ≤ 3 * e.weight := by
  rw [weight, ← List.sum_map_mul_left]
  refine List.sum_le_sum fun t ht ↦ ?_
  rw [mul_comm]
  exact mul_le_mul_of_nonneg_right (Catalog.largestEntry_standard_le (h t ht)) t.weight_nonneg

/-- In the standard catalog an order is at most three times the weight. -/
theorem abs_order_le (h : e.IsReadable) (d : Dimension) :
    |e.order .standard d| ≤ 3 * e.weight := by
  have hsum := sum_weight_mul_largestEntry_le fun t ht ↦ (h t ht).namesUnit
  rw [terms, List.map_append, List.sum_append] at hsum
  have hnum := Catalog.abs_listOrder_le .standard e.numerator d
  have hden := Catalog.abs_listOrder_le .standard e.denominator d
  calc |e.order .standard d|
      ≤ |Term.listOrder .standard e.numerator d| + |Term.listOrder .standard e.denominator d| :=
        abs_sub _ _
    _ ≤ 3 * e.weight := by linarith

/-- The order of a short expression is small enough for doubles to be exact. -/
theorem abs_order_lt (h : e.IsReadable) (hle : e.weight ≤ 2 ^ 40) (d : Dimension) :
    |e.order .standard d| < 2 ^ 53 := by
  have := abs_order_le h d
  linarith

/-- Every exponent token of the text is an integer. -/
def HasIntegerExponents (s : String) : Prop :=
  ∀ token ∈ (Split.ofString s).allTokens, ∀ x, exponent? token = some x → IsInteger x

/-- What is read from a text with integer exponents has integers for exponents. A term without
an exponent token has none. -/
theorem isIntegral_of_ofString {s : String} (hs : HasIntegerExponents s)
    (h : ofString s = .ok e) : e.IsIntegral := by
  intro t ht x hx
  obtain ⟨-, -, hexp⟩ := mem_terms_of_ofString h ht
  obtain ⟨token, htoken, heq⟩ := hexp x hx
  exact hs token htoken x heq

end Expression

/-! ### Measures that agree with their text -/

namespace Measure

open Catalog (standard)

/-- The text reads as `e`, which has integers for exponents and symbols of the standard catalog.
While `e` is short, the signature is the order of `e`. -/
structure Agrees (m : Measure) (e : Expression) : Prop where
  reads : Expression.ofString m.text = .ok e
  isIntegral : e.IsIntegral
  resolves : ∀ t ∈ e.terms, ∃ unit, standard.resolveUnit t.symbol = .ok unit
  order_eq : e.weight ≤ 2 ^ 40 → ∀ d,
    rational? (m.signature.get d) = some (e.order standard d : ℚ)

variable {m n p : Measure} {e f : Expression} {s : String} {r : Resolution}

/-- The terms of the expression are such as can be read. -/
theorem Agrees.isReadable (h : m.Agrees e) : e.IsReadable :=
  Expression.isReadable_of_ofString h.reads

/-- A short expression over integers resolves in the standard catalog to its order. -/
theorem rational?_get_of_resolve (h : standard.resolve s = .ok r)
    (he : Expression.ofString s = .ok e) (hint : e.IsIntegral) (hle : e.weight ≤ 2 ^ 40)
    (d : Dimension) : rational? (r.signature.get d) = some (e.order standard d : ℚ) := by
  have hunit : ∀ t ∈ e.terms, namesUnit t.symbol :=
    fun _ ht ↦ (Expression.mem_terms_of_ofString he ht).1
  refine Catalog.rational?_get_resolve h he hint
    (fun t ht ↦ Catalog.isIntegralSymbol_standard (hunit t ht)) ?_ d
  calc (e.terms.map fun t ↦ t.weight * standard.largestEntry t.symbol).sum
      ≤ 3 * e.weight := Expression.sum_weight_mul_largestEntry_le hunit
    _ < 2 ^ 52 := by linarith

/-- What was resolved agrees with its text. -/
theorem agrees_of_ofString (h : ofString s = .ok m) (he : Expression.ofString s = .ok e)
    (hint : e.IsIntegral) : m.Agrees e := by
  obtain ⟨hr, rfl⟩ := ofString_eq_ok_iff.1 h
  obtain ⟨e', _, _, he', hunits, -⟩ := exists_ofString_of_resolveText hr
  obtain rfl : e' = e := by simpa [he'] using he
  exact ⟨he, hint, hunits, rational?_get_of_resolve hr he hint⟩

/-- The product of two measures agrees with the product of what they read as. -/
theorem Agrees.product (hm : m.Agrees e) (hn : n.Agrees f) (hp : m.product n = .ok p) :
    p.Agrees (e.product f) := by
  obtain ⟨e', f', he, hf, rfl⟩ := product_eq_ok_iff.1 hp
  obtain rfl : e' = e := by simpa [he] using hm.reads
  obtain rfl : f' = f := by simpa [hf] using hn.reads
  have hint := hm.isIntegral.product hn.isIntegral
  have hreadable := hm.isReadable.product hn.isReadable
  refine ⟨hint.ofString_text hreadable, hint, fun t ht ↦ ?_, fun hle d ↦ ?_⟩
  · exact (Expression.mem_terms_product.1 ht).elim (hm.resolves t) (hn.resolves t)
  · have hlt := Expression.abs_order_lt hreadable hle d
    rw [Expression.weight_product] at hle
    rw [Expression.order_product] at hlt ⊢
    -- both operands are as short as the product
    have hm' := hm.order_eq (by linarith [f'.weight_nonneg]) d
    have hn' := hn.order_eq (by linarith [e'.weight_nonneg]) d
    exact Signature.rational?_get_add_int hm' hn' hlt

/-- Likewise for the quotient, whose order is a difference. -/
theorem Agrees.quotient (hm : m.Agrees e) (hn : n.Agrees f) (hp : m.quotient n = .ok p) :
    p.Agrees (e.quotient f) := by
  obtain ⟨e', f', r, he, hf, hr, rfl⟩ := quotient_eq_ok_iff.1 hp
  obtain rfl : e' = e := by simpa [he] using hm.reads
  obtain rfl : f' = f := by simpa [hf] using hn.reads
  obtain ⟨-, rfl⟩ := combine_eq_ok_iff.1 hr
  have hint := hm.isIntegral.quotient hn.isIntegral
  have hreadable := hm.isReadable.quotient hn.isReadable
  refine ⟨hint.ofString_text hreadable, hint, fun t ht ↦ ?_, fun hle d ↦ ?_⟩
  · exact (Expression.mem_terms_quotient.1 ht).elim (hm.resolves t) (hn.resolves t)
  · have hlt := Expression.abs_order_lt hreadable hle d
    rw [Expression.weight_quotient] at hle
    rw [Expression.order_quotient] at hlt ⊢
    have hm' := hm.order_eq (by linarith [f'.weight_nonneg]) d
    have hn' := hn.order_eq (by linarith [e'.weight_nonneg]) d
    exact Signature.rational?_get_sub_int hm' hn' hlt

/-- Likewise for the inverse. -/
theorem Agrees.inverted (hm : m.Agrees e) (hn : m.inverted = .ok n) : n.Agrees e.inverted := by
  obtain ⟨e', r, he, hr, rfl⟩ := inverted_eq_ok_iff.1 hn
  obtain rfl : e' = e := by simpa [he] using hm.reads
  obtain ⟨-, rfl⟩ := combine_eq_ok_iff.1 hr
  have hint := hm.isIntegral.inverted
  have hreadable := hm.isReadable.inverted
  refine ⟨hint.ofString_text hreadable, hint, fun t ht ↦ ?_, fun hle d ↦ ?_⟩
  · rcases Expression.mem_terms_inverted ht with ht | ⟨u, hu, rfl⟩
    · exact hm.resolves t ht
    · exact Expression.symbol_reciprocal u ▸ hm.resolves u hu
  · have hlt := Expression.abs_order_lt hreadable hle d
    rw [Expression.weight_inverted hm.isIntegral] at hle
    -- one over the unit: its signature is taken from that of unity
    rw [Expression.order_inverted standard hm.isIntegral, ← zero_sub] at hlt ⊢
    exact Signature.rational?_get_sub_int (Resolution.rational?_get_unity d) (hm.order_eq hle d) hlt

/-! ### Runs -/

/-- What a command yields agrees with its text, given that the old measures do and that the
command supplies integers for exponents. -/
theorem agrees_of_yields {c : Command}
    (hc : ∀ s, c.expression? = some s → Expression.HasIntegerExponents s)
    (h : c.Yields (fun n ↦ ∃ e, n.Agrees e) m) : ∃ e, m.Agrees e := by
  cases h with
  | kept hm => exact hm
  | @supplied s _ hs hm =>
    obtain ⟨hr, -⟩ := ofString_eq_ok_iff.1 hm
    obtain ⟨e, _, _, he, -⟩ := exists_ofString_of_resolveText hr
    have hint := Expression.isIntegral_of_ofString (hc s hs)
      ((Expression.ofString_trimmed s).symm.trans he)
    exact ⟨e, agrees_of_ofString hm he hint⟩
  | reread hn hm =>
    obtain ⟨e, hn⟩ := hn
    exact ⟨e, agrees_of_ofString hm ((Expression.ofString_trimmed _).trans hn.reads) hn.isIntegral⟩
  | product hm hn hp =>
    obtain ⟨e, hm⟩ := hm
    obtain ⟨f, hn⟩ := hn
    exact ⟨_, hm.product hn hp⟩
  | quotient hm hn hp =>
    obtain ⟨e, hm⟩ := hm
    obtain ⟨f, hn⟩ := hn
    exact ⟨_, hm.quotient hn hp⟩
  | inverted hm hn =>
    obtain ⟨e, hm⟩ := hm
    exact ⟨_, hm.inverted hn⟩

/-- **In a run over integers, every measure agrees with its text.** The expression depends on
the measure and not on the run. -/
theorem agrees_of_mem_run {cs : List Command}
    (hcs : ∀ c ∈ cs, ∀ s, c.expression? = some s → Expression.HasIntegerExponents s)
    {q : Quantity} (hq : q ∈ Command.run cs) (hm : q.measure = some m) : ∃ e, m.Agrees e :=
  Command.forall_measure_run (fun c hc _ ↦ agrees_of_yields (hcs c hc)) q hq m hm

/-- A measure that agrees with its text resolves again, to an equal signature, unless the scale of
the denominator is zero. -/
theorem Agrees.resolve (h : m.Agrees e) (hle : e.weight ≤ 2 ^ 40) :
    (∃ r, standard.resolve m.text = .ok r ∧ r.signature == m.signature) ∨
      standard.resolve m.text = .error (.zeroScale m.text) := by
  -- both signatures are compared with the order of the text, not with one another
  rcases resolveText_of_ofString h.reads h.resolves with ⟨r, hr⟩ | herror
  · refine .inl ⟨r, hr, Signature.beq_iff.2 fun d ↦ ⟨e.order standard d, ?_, ?_⟩⟩
    · exact rational?_get_of_resolve hr h.reads h.isIntegral hle d
    · exact h.order_eq hle d
  · exact .inr herror

/-- **Text and signature never drift apart.** In a run over expressions with integers for
exponents, every unit text reads, and while it is short its signature is the order of what is
read and the resolver finds an equal one, or fails by the scale of the denominator.

The bound is on this text only. Nothing is asked of the number of commands, nor of the other
texts in the run. -/
theorem signature_of_mem_run {cs : List Command}
    (hcs : ∀ c ∈ cs, ∀ s, c.expression? = some s → Expression.HasIntegerExponents s)
    {q : Quantity} (hq : q ∈ Command.run cs) {m : Measure} (hm : q.measure = some m) :
    ∃ e, Expression.ofString m.text = .ok e ∧ e.IsIntegral ∧
      (e.weight ≤ 2 ^ 40 →
        (∀ d, rational? (m.signature.get d) = some (e.order standard d : ℚ)) ∧
        ((∃ r, standard.resolve m.text = .ok r ∧ r.signature == m.signature) ∨
          standard.resolve m.text = .error (.zeroScale m.text))) := by
  obtain ⟨e, he⟩ := agrees_of_mem_run hcs hq hm
  exact ⟨e, he.reads, he.isIntegral, fun hle ↦ ⟨he.order_eq hle, he.resolve hle⟩⟩

/-- The inverse of a quotient: square metres by seconds, turned over. -/
theorem signature_of_mem_run_inverse :
    ∃ cs, ∃ q ∈ Command.run cs, ∃ m, q.measure = some m ∧ m.text = "s/m**2" ∧
      ∃ e, Expression.ofString m.text = .ok e ∧
        (∀ d, rational? (m.signature.get d) = some (e.order standard d : ℚ)) ∧
        ((∃ r, standard.resolve m.text = .ok r ∧ r.signature == m.signature) ∨
          standard.resolve m.text = .error (.zeroScale m.text)) := by
  obtain ⟨cs, hcs⟩ : ∃ cs : List Command, cs =
    [.withUnit 6.0 "m**2", .withUnit 2.0 "s", .apply .divide 0 1, .invert 2] := ⟨_, rfl⟩
  have hlast : (Command.run cs)[3]?.any fun q ↦ q.measure.any (·.text = "s/m**2") := by
    rw [hcs]
    decide +kernel
  simp only [Option.any_eq_true, decide_eq_true_eq] at hlast
  obtain ⟨q, hq, m, hm, htext⟩ := hlast
  have htwo : rational? (Decimal.toFloat ⟨false, 2, 0⟩) = some ((2 : ℤ) : ℚ) := by
    simpa using (Decimal.rational?_toFloat_whole (show 2 < 2 ^ 53 by norm_num)).1
  have hexpressions : ∀ c ∈ cs, ∀ s, c.expression? = some s →
      Expression.HasIntegerExponents s := by
    have hnone : exponent? "m" = none ∧ exponent? "s" = none := by decide
    have hsplit : (Split.ofString "m**2").allTokens = ["m", toString 2] ∧
        (Split.ofString "s").allTokens = ["s"] := by decide +kernel
    simp only [hcs, List.forall_mem_cons, Command.expression?, Option.some.injEq, forall_eq',
      Expression.HasIntegerExponents, hsplit, hnone, Number.exponent?_toString]
    simpa using ⟨2, htwo⟩
  obtain ⟨e, he, -, hshort⟩ := signature_of_mem_run hexpressions (List.mem_of_getElem? hq) hm
  have hterms : Expression.ofString "s/m**2" =
      .ok ⟨[⟨"s", none⟩], [⟨"m", some (Decimal.toFloat ⟨false, 2, 0⟩)⟩]⟩ := by decide +kernel
  obtain rfl := Except.ok.inj (hterms.symm.trans (htext ▸ he))
  refine ⟨cs, q, List.mem_of_getElem? hq, m, hm, htext, _, he, hshort ?_⟩
  simp [Expression.weight, Expression.terms, Term.weight, Term.power,
    Number.toInt_of_rational? htwo]

end Measure

end DimensionalAnalysis
