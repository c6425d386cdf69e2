import DimensionalAnalysis.Proofs.Expression.Signed
import DimensionalAnalysis.Proofs.Quantity.Coherence

/-!
# Scales that go with their texts

The scale of a unit is computed when the unit is: by the resolver from a text, and by one product or
quotient of scales from the units of operands. The same text can come about in either way, and in
many groupings. Doubles round differently in each of them, so that equal texts need not have equal
scales (`Quantity.exists_scale_ne_of_text_eq`), and if something on the way overflows the scales
have nothing to do with each other.

Within the range of doubles, however, the text determines the scale up to rounding
(`Quantity.scale_of_mem_run`). The scale **tracks** the text: its logarithm is that of the
expression which the text reads as, up to the drift of the operations so far (`Measure.Tracks`).
Apart from what the platform is off in powers, the drift is a few roundings for each term and no
more than another one of all that the text reaches (`Expression.drift_le`). Units of scale one have
no drift, whatever the platform makes of powers, and their scales are exactly one
(`Measure.isCoherent_of_mem_run`).

Values in units of equal text are taken for values in one unit. What this leaves out is a factor of
two tracking scales, which is nearly one, and is one exactly if the scales are equal.
-/

namespace DimensionalAnalysis

open Number (rational? HasLog roundoff roundoff_pos)

open Catalog (standard)

/-! ### Reciprocals -/

namespace Term

variable {t : Term}

/-- A reciprocal with a finite exponent is one of a term with a finite exponent. It may have no
exponent at all, and then the exponent was minus one. -/
theorem isFinite_of_reciprocal (h : t.reciprocal.IsFinite) : t.IsFinite := by
  intro x hx
  rw [IsFinite, reciprocal, Option.mem_def.1 hx] at h
  dsimp only at h
  split at h
  · exact Number.isSome_rational?_of_beq Number.rational?_negOne ‹_›
  · exact Number.isSome_rational?_neg ▸ h (-x) rfl

/-- The power is negated exactly, since no double is rounded when its sign changes. -/
theorem realPower_reciprocal (h : t.IsFinite) : t.reciprocal.realPower = -t.realPower := by
  obtain ⟨symbol, exponent⟩ := t
  rw [reciprocal]
  cases exponent with
  | none => simp [realPower, Number.rational?_negOne]
  | some x =>
    obtain ⟨q, hq⟩ := Option.isSome_iff_exists.1 (h x rfl)
    have hneg : x == -1.0 ↔ q = -1 := Number.beq_iff hq Number.rational?_negOne
    dsimp only
    split
    · rename_i hx
      simp [realPower, hq, hneg.1 hx]
    · simp [realPower, hq, Number.rational?_neg hq]

/-- So is the logarithm of the scale. -/
theorem logScale_reciprocal (c : Catalog) (h : t.IsFinite) :
    t.reciprocal.logScale c = -t.logScale c := by
  rw [logScale, realPower_reciprocal h, Expression.symbol_reciprocal, neg_mul, logScale]

/-- The reach does not depend on signs. -/
theorem reach_reciprocal (c : Catalog) (h : t.IsFinite) : t.reciprocal.reach c = t.reach c := by
  rw [reach, realPower_reciprocal h, Expression.symbol_reciprocal, abs_neg, reach]

/-- A term is measured if its reciprocal is. -/
theorem IsMeasured.of_reciprocal {c : Catalog} (h : t.reciprocal.IsMeasured c) :
    t.IsMeasured c := by
  obtain ⟨hunit, hpower⟩ := h
  rw [Expression.symbol_reciprocal] at hunit hpower
  exact ⟨hunit, hpower.imp_left isFinite_of_reciprocal⟩

/-- In the standard catalog every unit has a positive scale. -/
theorem isMeasured_standard_iff : t.IsMeasured standard ↔
    t.IsUnit ∧ (t.IsFinite ∨ standard.isCoherent t.symbol) := by
  constructor
  · rintro ⟨⟨unit, hunit, -⟩, hpower⟩
    exact ⟨⟨unit, hunit⟩, hpower⟩
  · rintro ⟨⟨unit, hunit⟩, hpower⟩
    exact ⟨⟨unit, hunit, Catalog.hasLog_standard hunit⟩, hpower⟩

/-- What is measured is a unit. -/
theorem IsMeasured.isUnit (h : t.IsMeasured standard) : t.IsUnit :=
  (isMeasured_standard_iff.1 h).1

/-- Coherent symbols are measured, whatever their exponents are. -/
theorem isMeasured_of_isCoherent (h : standard.isCoherent t.symbol) : t.IsMeasured standard :=
  isMeasured_standard_iff.2 ⟨Catalog.exists_resolveUnit_of_isCoherent h, .inr h⟩

/-- The exponent one asks for the power zero, as no exponent does. -/
theorem powerError_withoutOne (t : Term) : t.withoutOne.powerError = t.powerError := by
  rw [withoutOne]
  split
  · rename_i hone
    have hself : t.powerError = 0 := powerError_of_representable fun x hx ↦ by
      obtain rfl : 1.0 = x := by simpa [hone] using hx
      exact ⟨1, Number.rational?_one, by rw [sub_self]; exact Number.representable_zero⟩
    rw [hself]
    rfl
  · rfl

/-- A term and its reciprocal slip alike. This is why the slip counts what is asked for by both
of them: which one it is that the resolver comes to see depends on how often the text has been
turned over. -/
theorem slip_reciprocal (c : Catalog) (t : Term) : t.reciprocal.slip c = t.slip c := by
  rw [slip, reciprocal_reciprocal, powerError_withoutOne, Expression.symbol_reciprocal, add_comm,
    slip]

/-- The power that is asked for is off by no more than one rounding. -/
theorem powerError_le (h : t.IsFinite) : t.powerError ≤ 2 ^ (-52 : ℤ) * (|t.realPower| + 1) := by
  rw [powerError]
  split
  · positivity
  · rename_i x hx
    obtain ⟨p, hp⟩ := Option.isSome_iff_exists.1 (h x hx)
    obtain ⟨y, hy⟩ := Number.exists_rational?_sub_one hp
    have hpower : t.realPower = p := by simp [realPower, hx, hp]
    have hnear := Number.abs_sub_one_le hp hy
    rw [← Rat.cast_le (K := ℝ), Rat.cast_mul, Rat.cast_zpow] at hnear
    rw [hy, Option.getD_some, hpower]
    push_cast at hnear
    exact hnear

/-- Slips are small against the reach of a term. The text stays within the range of doubles, and
so all slips together are a small multiple of the rounding. -/
theorem slip_le (c : Catalog) (h : t.IsFinite) : t.slip c ≤ roundoff * t.reach c := by
  have hself := powerError_le h
  have hreciprocal := powerError_le h.reciprocal
  rw [realPower_reciprocal h, abs_neg] at hreciprocal
  have hround : roundoff = 2 * 2 ^ (-52 : ℤ) := by
    rw [roundoff]
    norm_num
  rw [slip, reach, hround, ← mul_assoc]
  refine mul_le_mul_of_nonneg_right ?_ (abs_nonneg _)
  linarith

/-- A power of one is one, on every platform. -/
theorem powerWithin_of_isCoherent {δ : ℝ} (hδ : 0 ≤ δ) (h : standard.isCoherent t.symbol) :
    t.PowerWithin standard δ := by
  intro x _ y _ _ unit hunit
  rw [(Catalog.isCoherent_iff hunit).1 h, Number.power_one, Catalog.logScale_of_isCoherent h,
    mul_zero]
  exact HasLog.one.mono hδ

end Term

namespace Expression

open Term (shares listLogScale listReach listSlip)

variable {e f g : Expression}

/-- The exponents are finite if those of the inverse are. -/
theorem isFinite_of_inverted (h : e.inverted.IsFinite) : e.IsFinite := by
  intro t ht
  rcases terms_inverted_cases e with heq | hperm
  · exact Term.isFinite_of_reciprocal (h _ (heq ▸ List.mem_map_of_mem ht))
  · exact h t (hperm.mem_iff.2 ht)

/-- And the terms are measured if those of the inverse are. -/
theorem isMeasured_of_inverted {c : Catalog} (h : ∀ t ∈ e.inverted.terms, t.IsMeasured c) :
    ∀ t ∈ e.terms, t.IsMeasured c := by
  intro t ht
  rcases terms_inverted_cases e with heq | hperm
  · exact (h _ (heq ▸ List.mem_map_of_mem ht)).of_reciprocal
  · exact h t (hperm.mem_iff.2 ht)

/-! ### Logarithms of composed expressions -/

/-- Logarithms of factors are added. -/
theorem logScale_product (c : Catalog) (e f : Expression) :
    (e.product f).logScale c = e.logScale c + f.logScale c := by
  simp only [logScale, product, Term.listLogScale_append]
  ring

/-- That of a divisor is subtracted. -/
theorem logScale_quotient (c : Catalog) (e f : Expression) :
    (e.quotient f).logScale c = e.logScale c - f.logScale c := by
  simp only [logScale, quotient, Term.listLogScale_append]
  ring

/-- That of an inverse is negated. -/
theorem logScale_inverted (c : Catalog) (h : e.IsFinite) :
    e.inverted.logScale c = -e.logScale c := by
  rw [inverted]
  split
  · rename_i hempty
    have hnum : listLogScale c (e.numerator.map Term.reciprocal) = -listLogScale c e.numerator := by
      rw [listLogScale, listLogScale, List.sum_neg, List.map_map, List.map_map]
      exact congrArg List.sum (List.map_congr_left fun t ht ↦
        Term.logScale_reciprocal c (h t (List.mem_append_left _ ht)))
    have hnil : listLogScale c [] = 0 := rfl
    rw [logScale, logScale, hnum, List.isEmpty_iff.1 hempty, hnil, sub_zero, sub_zero]
  · simp only [logScale]
    ring

/-- An inverse reaches as far as what is inverted. -/
theorem reach_inverted (c : Catalog) (h : e.IsFinite) : e.inverted.reach c = e.reach c := by
  rw [reach, reach, listReach, listReach]
  rcases terms_inverted_cases e with heq | hperm
  · rw [heq, List.map_map]
    exact congrArg List.sum (List.map_congr_left fun t ht ↦ Term.reach_reciprocal c (h t ht))
  · exact (hperm.map _).sum_eq

/-- An inverse has as many shares. -/
theorem shares_inverted (c : Catalog) (e : Expression) :
    shares c e.inverted.terms = shares c e.terms := by
  rw [shares, shares]
  rcases terms_inverted_cases e with heq | hperm
  · rw [heq, List.countP_map]
    exact List.countP_congr fun t _ ↦ by rw [Function.comp_apply, symbol_reciprocal]
  · exact hperm.countP_eq _

/-- And it slips as far. -/
theorem listSlip_inverted (c : Catalog) (e : Expression) :
    listSlip c e.inverted.terms = listSlip c e.terms := by
  rw [listSlip, listSlip]
  rcases terms_inverted_cases e with heq | hperm
  · rw [heq, List.map_map]
    exact congrArg List.sum (List.map_congr_left fun t _ ↦ Term.slip_reciprocal c t)
  · exact (hperm.map _).sum_eq

/-- So it drifts as far. -/
theorem drift_inverted (c : Catalog) (e : Expression) (k : ℕ) (δ : ℝ) :
    e.inverted.drift c k δ = e.drift c k δ := by
  rw [drift, shares_inverted, listSlip_inverted, drift]

/-- The shares of a composed expression are those of its operands. The order of terms does not
matter for this, nor on which side of the line they stand. -/
theorem shares_of_perm {c : Catalog} (h : g.terms.Perm (e.terms ++ f.terms)) :
    shares c g.terms = shares c e.terms + shares c f.terms := by
  rw [← Term.shares_append]
  exact h.countP_eq _

/-- The same holds of the reach. -/
theorem reach_of_perm {c : Catalog} (h : g.terms.Perm (e.terms ++ f.terms)) :
    g.reach c = e.reach c + f.reach c := by
  rw [reach, listReach, (h.map _).sum_eq]
  exact Term.listReach_append c e.terms f.terms

/-- And of the slips. -/
theorem listSlip_of_perm {c : Catalog} (h : g.terms.Perm (e.terms ++ f.terms)) :
    listSlip c g.terms = listSlip c e.terms + listSlip c f.terms := by
  rw [listSlip, (h.map _).sum_eq]
  exact Term.listSlip_append c e.terms f.terms

/-- A drift is not negative. -/
theorem drift_nonneg (c : Catalog) (e : Expression) (k : ℕ) {δ : ℝ} (hδ : 0 ≤ δ) :
    0 ≤ e.drift c k δ := by
  have hround := roundoff_pos
  have hslip := Term.listSlip_nonneg c e.terms
  unfold drift
  positivity

/-- The drift is that of the operations and of the powers, and a rounding of what is reached. -/
theorem drift_le (c : Catalog) (k : ℕ) (δ : ℝ) (h : e.IsFinite) :
    e.drift c k δ ≤ shares c e.terms * ((k + 3) * roundoff + δ) + roundoff * e.reach c := by
  have hslip : ∀ ts : List Term, (∀ t ∈ ts, t.IsFinite) →
      listSlip c ts ≤ roundoff * listReach c ts := by
    intro ts hts
    rw [listSlip, listReach, ← List.sum_map_mul_left]
    exact List.sum_le_sum fun t ht ↦ Term.slip_le c (hts t ht)
  exact add_le_add_right (hslip e.terms h) _

/-- One more operation adds to the drift. -/
theorem drift_le_succ (c : Catalog) (e : Expression) (k : ℕ) (δ : ℝ) :
    e.drift c k δ ≤ e.drift c (k + 1) δ := by
  have hround := roundoff_pos
  refine add_le_add_left (mul_le_mul_of_nonneg_left ?_ (Nat.cast_nonneg _)) _
  push_cast
  linarith

/-- The drift grows with the number of operations. -/
theorem drift_mono (c : Catalog) (e : Expression) (δ : ℝ) {j k : ℕ} (h : j ≤ k) :
    e.drift c j δ ≤ e.drift c k δ := by
  induction k, h using Nat.le_induction with
  | base => exact le_rfl
  | succ k _ ih => exact ih.trans (e.drift_le_succ c k δ)

/-- Each share drifts by one more rounding in the next operation. -/
theorem drift_succ (c : Catalog) (e : Expression) (k : ℕ) (δ : ℝ) :
    e.drift c (k + 1) δ =
      shares c e.terms * ((k + 3) * roundoff + δ + roundoff) + listSlip c e.terms := by
  rw [drift]
  push_cast
  ring

/-- The drift of a composed expression is the sum of those of its operands, counted with the
same number of operations. This is what lets a bound on the result bound the operands. -/
theorem drift_of_perm {c : Catalog} (h : g.terms.Perm (e.terms ++ f.terms)) (k : ℕ) (δ : ℝ) :
    g.drift c k δ = e.drift c k δ + f.drift c k δ := by
  rw [drift, shares_of_perm h, listSlip_of_perm h, Nat.cast_add, add_mul, add_add_add_comm]
  rfl

section Operations

variable {c : Catalog} {x y : Float} {k : ℕ} {δ : ℝ}

/-- An expression without shares has nothing that could be off. -/
theorem eq_zero_of_shares (h : shares c e.terms = 0) :
    e.logScale c = 0 ∧ listSlip c e.terms = 0 :=
  ⟨logScale_of_shares_eq_zero h, Term.listSlip_of_shares_eq_zero h⟩

/-- Multiplying two scales takes one more operation.

A rounding is added for each share and not just for the product. An expression without shares is
exactly of scale one, and multiplying by it rounds nothing. -/
theorem hasLog_mul (hx : HasLog x (e.logScale c) (e.drift c k δ))
    (hy : HasLog y (f.logScale c) (f.drift c k δ))
    (hrange : |e.logScale c| + |f.logScale c| + (e.drift c k δ + f.drift c k δ) ≤ 708)
    (h : g.terms.Perm (e.terms ++ f.terms)) :
    HasLog (x * y) (e.logScale c + f.logScale c) (g.drift c (k + 1) δ) := by
  rw [drift_succ, shares_of_perm h, listSlip_of_perm h]
  refine HasLog.mul_shares hx hy eq_zero_of_shares eq_zero_of_shares ?_
  exact (add_le_add_left (abs_add_le _ _) _).trans hrange

/-- Dividing them takes one more, too. -/
theorem hasLog_div (hx : HasLog x (e.logScale c) (e.drift c k δ))
    (hy : HasLog y (f.logScale c) (f.drift c k δ))
    (hrange : |e.logScale c| + |f.logScale c| + (e.drift c k δ + f.drift c k δ) ≤ 708)
    (h : g.terms.Perm (e.terms ++ f.terms)) :
    HasLog (x / y) (e.logScale c - f.logScale c) (g.drift c (k + 1) δ) := by
  rw [drift_succ, shares_of_perm h, listSlip_of_perm h]
  refine HasLog.div_shares hx hy eq_zero_of_shares eq_zero_of_shares ?_
  exact (add_le_add_left (abs_sub _ _) _).trans hrange

/-- An inverse divides one by the scale. -/
theorem hasLog_inv (hx : HasLog x (e.logScale c) (e.drift c k δ))
    (hrange : |e.logScale c| + e.drift c k δ ≤ 708) :
    HasLog (1.0 / x) (-e.logScale c) (e.drift c (k + 1) δ) := by
  have hone : HasLog 1.0 0 ((0 : ℕ) * ((k + 3) * roundoff + δ) + 0) := by
    rw [Nat.cast_zero, zero_mul, add_zero]
    exact HasLog.one
  rw [drift_succ, ← zero_sub, ← Nat.zero_add (shares c e.terms), ← zero_add (listSlip c e.terms)]
  -- one has no shares, so that only those of the scale drift
  refine hone.div_shares hx (fun _ ↦ ⟨rfl, rfl⟩) eq_zero_of_shares ?_
  rwa [zero_sub, abs_neg, Nat.cast_zero, zero_mul, add_zero, zero_add]

end Operations

end Expression

/-! ### Scales that track their texts -/

namespace Measure

open Term (shares)

variable {m n p : Measure} {e f g : Expression} {k : ℕ} {δ : ℝ}

/-- All powers that the text asks for are accurate up to an error. -/
def PowersWithin (δ : ℝ) (m : Measure) : Prop :=
  ∀ e, Expression.ofString m.text = .ok e → ∀ t ∈ e.terms, t.PowerWithin standard δ

/-- The scale has the logarithm of the text, up to the drift of `k` operations, if the text is
one of units and stays within the range of doubles.

This is the invariant of runs. It says nothing of texts beyond that range, and does not lose
anything by it: the operands of a text in the range are in the range, as reach and drift are
sums over terms. -/
def Tracks (δ : ℝ) (k : ℕ) (m : Measure) : Prop :=
  ∀ e, Expression.ofString m.text = .ok e → (∀ t ∈ e.terms, t.IsMeasured standard) →
    e.reach standard ≤ maxReach → e.drift standard k δ ≤ 1 →
      HasLog m.scale (e.logScale standard) (e.drift standard k δ)

/-- A scale that tracks its text after some operations does after more. -/
theorem Tracks.succ (h : m.Tracks δ k) : m.Tracks δ (k + 1) := fun e he hterms hreach hdrift ↦
  have hle := e.drift_le_succ standard k δ
  (h e he hterms hreach (hle.trans hdrift)).mono hle

/-- Measures with different histories are compared after the longer one. -/
theorem Tracks.mono {j : ℕ} (h : m.Tracks δ k) (hle : k ≤ j) : m.Tracks δ j := by
  induction j, hle using Nat.le_induction with
  | base => exact h
  | succ j _ ih => exact ih.succ

/-- What was resolved tracks its text. -/
theorem tracks_of_ofString {s : String} (hδ : 0 ≤ δ) (h : ofString (Text.trimmed s) = .ok m)
    (hpowers : m.PowersWithin δ) : m.Tracks δ 0 := by
  intro e he hterms hreach hdrift
  obtain ⟨hm, htext⟩ := ofString_eq_ok_iff.1 h
  rw [htext] at hm
  obtain ⟨r, hr, hlog⟩ := Expression.exists_resolve_hasLog hδ he
    (fun t ht ↦ ⟨hterms t ht, hpowers e he t ht⟩) hreach hdrift
  obtain rfl : r = m.resolution := Except.ok.inj (hr.symm.trans hm)
  exact hlog

/-- Operands whose terms make up those of a result track their texts when the result stays within
the range. -/
theorem Tracks.operands (hm : m.Tracks δ k) (hn : n.Tracks δ k) (hδ : 0 ≤ δ)
    (he : Expression.ofString m.text = .ok e) (hf : Expression.ofString n.text = .ok f)
    (hperm : g.terms.Perm (e.terms ++ f.terms)) (hterms : ∀ t ∈ g.terms, t.IsMeasured standard)
    (hreach : g.reach standard ≤ maxReach) (hdrift : g.drift standard (k + 1) δ ≤ 1) :
    HasLog m.scale (e.logScale standard) (e.drift standard k δ) ∧
      HasLog n.scale (f.logScale standard) (f.drift standard k δ) ∧
      |e.logScale standard| + |f.logScale standard| +
        (e.drift standard k δ + f.drift standard k δ) ≤ 708 := by
  have hmax : maxReach = 700 := rfl
  have hdrift := (g.drift_le_succ standard k δ).trans hdrift
  rw [Expression.drift_of_perm hperm] at hdrift
  rw [Expression.reach_of_perm hperm] at hreach
  have hedrift := e.drift_nonneg standard k hδ
  have hfdrift := f.drift_nonneg standard k hδ
  have hereach : 0 ≤ e.reach standard := Term.listReach_nonneg standard e.terms
  have hfreach : 0 ≤ f.reach standard := Term.listReach_nonneg standard f.terms
  have hmem : ∀ t, t ∈ e.terms ∨ t ∈ f.terms → t.IsMeasured standard := fun t ht ↦
    hterms t (hperm.mem_iff.2 (List.mem_append.2 ht))
  refine ⟨hm e he (fun t ht ↦ hmem t (.inl ht)) (by linarith) (by linarith),
    hn f hf (fun t ht ↦ hmem t (.inr ht)) (by linarith) (by linarith), ?_⟩
  linarith [e.abs_logScale_le standard, f.abs_logScale_le standard]

/-- A product tracks its text after one more operation. -/
theorem Tracks.product (hm : m.Tracks δ k) (hn : n.Tracks δ k) (hδ : 0 ≤ δ)
    (hp : m.product n = .ok p) : p.Tracks δ (k + 1) := by
  intro g hg hterms hreach hdrift
  obtain ⟨e, f, he, hf, hread⟩ := ofString_of_product hp
  obtain ⟨_, _, _, _, rfl⟩ := product_eq_ok_iff.1 hp
  -- the text reads as the product itself, without words for its exponents
  obtain ⟨rfl, -⟩ := Expression.eq_of_ofString_reread hread hg fun t ht ↦ (hterms t ht).isUnit
  have hperm := Expression.terms_product_perm e f
  obtain ⟨hmlog, hnlog, hrange⟩ := hm.operands hn hδ he hf hperm hterms hreach hdrift
  rw [Expression.logScale_product]
  exact Expression.hasLog_mul hmlog hnlog hrange hperm

/-- So does a quotient. -/
theorem Tracks.quotient (hm : m.Tracks δ k) (hn : n.Tracks δ k) (hδ : 0 ≤ δ)
    (hp : m.quotient n = .ok p) : p.Tracks δ (k + 1) := by
  intro g hg hterms hreach hdrift
  obtain ⟨e, f, he, hf, hread⟩ := ofString_of_quotient hp
  obtain ⟨_, _, r, _, _, hr, rfl⟩ := quotient_eq_ok_iff.1 hp
  obtain ⟨-, rfl⟩ := combine_eq_ok_iff.1 hr
  obtain ⟨rfl, -⟩ := Expression.eq_of_ofString_reread hread hg fun t ht ↦ (hterms t ht).isUnit
  have hperm := Expression.terms_quotient_perm e f
  obtain ⟨hmlog, hnlog, hrange⟩ := hm.operands hn hδ he hf hperm hterms hreach hdrift
  rw [Expression.logScale_quotient]
  exact Expression.hasLog_div hmlog hnlog hrange hperm

/-- So does an inverse, which has the reach of what is inverted and the same drift. -/
theorem Tracks.inverted (hm : m.Tracks δ k) (hn : m.inverted = .ok n) : n.Tracks δ (k + 1) := by
  intro g hg hterms hreach hdrift
  obtain ⟨e, he, hread⟩ := ofString_of_inverted hn
  obtain ⟨_, r, _, hr, rfl⟩ := inverted_eq_ok_iff.1 hn
  obtain ⟨-, rfl⟩ := combine_eq_ok_iff.1 hr
  obtain ⟨rfl, hfinite⟩ := Expression.eq_of_ofString_reread hread hg fun t ht ↦
    (hterms t ht).isUnit
  have hfinite := Expression.isFinite_of_inverted hfinite
  rw [Expression.reach_inverted standard hfinite] at hreach
  rw [Expression.drift_inverted] at hdrift ⊢
  have hmax : maxReach = 700 := rfl
  have hdrift := (e.drift_le_succ standard k δ).trans hdrift
  have hlog := hm e he (Expression.isMeasured_of_inverted hterms) hreach hdrift
  rw [Expression.logScale_inverted standard hfinite]
  exact Expression.hasLog_inv hlog (by linarith [e.abs_logScale_le standard])

/-! ### Two measures of one text -/

/-- Two measures of one text, and what the text resolves to, have one scale up to an error. The
factor from one to the other, by which values are not multiplied, is one up to twice that. -/
structure HaveScale (m n : Measure) (ℓ ε : ℝ) : Prop where
  left : HasLog m.scale ℓ ε
  right : HasLog n.scale ℓ ε
  resolved : ∃ r, standard.resolve m.text = .ok r ∧ HasLog r.scale ℓ ε
  factor : HasLog (n.scale / m.scale) 0 (2 * ε + roundoff)
  mul_factor : n.scale = m.scale → ∀ x, x * (n.scale / m.scale) = x

/-- Scales that track one text have one scale. -/
theorem Tracks.haveScale (hm : m.Tracks δ k) (hn : n.Tracks δ k) (hδ : 0 ≤ δ)
    (hpowers : m.PowersWithin δ) (htext : m.text = n.text) (he : Expression.ofString m.text = .ok e)
    (hterms : ∀ t ∈ e.terms, t.IsMeasured standard) (hreach : e.reach standard ≤ maxReach)
    (hdrift : e.drift standard k δ ≤ 1) :
    HaveScale m n (e.logScale standard) (e.drift standard k δ) := by
  have hmlog := hm e he hterms hreach hdrift
  have hnlog := hn e (htext ▸ he) hterms hreach hdrift
  have hzero := e.drift_mono standard δ (Nat.zero_le k)
  refine ⟨hmlog, hnlog, ?_, ?_, fun heq x ↦ ?_⟩
  · -- the text is resolved without any operation, and drifts less
    obtain ⟨r, hr, hlog⟩ := Expression.exists_resolve_hasLog hδ he
      (fun t ht ↦ ⟨hterms t ht, hpowers e he t ht⟩) hreach (hzero.trans hdrift)
    exact ⟨r, hr, hlog.mono hzero⟩
  · have hfactor := hnlog.div hmlog (by rw [sub_self, abs_zero]; linarith)
    rw [sub_self] at hfactor
    exact hfactor.mono (by linarith)
  · obtain ⟨p, hp, hpos, -⟩ := hmlog
    rw [heq, Number.div_self_eq_one hp hpos.ne', Number.mul_one_eq_self]

/-! ### Runs -/

/-- What a command yields tracks its text after one more operation. -/
theorem tracks_of_yields {c : Command} (hδ : 0 ≤ δ) (hpowers : m.PowersWithin δ)
    (h : c.Yields (Tracks δ k) m) : m.Tracks δ (k + 1) := by
  cases h with
  | kept hm => exact hm.succ
  | supplied _ hm => exact (tracks_of_ofString hδ hm hpowers).mono (Nat.zero_le _)
  | reread _ hm => exact (tracks_of_ofString hδ hm hpowers).mono (Nat.zero_le _)
  | product hm hn hp => exact hm.product hn hδ hp
  | quotient hm hn hp => exact hm.quotient hn hδ hp
  | inverted hm hn => exact hm.inverted hn

/-- **Scales track their texts** in every run. The number of commands counts the operations,
although most of the commands have nothing to do with this measure. -/
theorem tracks_of_mem_run {cs : List Command} (hδ : 0 ≤ δ)
    (hcs : ∀ q ∈ Command.run cs, ∀ m, q.measure = some m → m.PowersWithin δ) {q : Quantity}
    (hq : q ∈ Command.run cs) (hm : q.measure = some m) : m.Tracks δ cs.length := by
  refine Command.forall_mem_run_length (Q := fun k q ↦ ∀ m, q.measure = some m → m.Tracks δ k)
    (fun k q h m hm ↦ (h m hm).succ) (fun pre c post hpre hold r hresult m hm ↦ ?_) q hq m hm
  have hr : r ∈ Command.run cs := hpre ▸ Command.mem_run_of_result hresult
  exact tracks_of_yields hδ (hcs r hr m hm) (Command.yields_of_result hold hresult hm)

end Measure

namespace Quantity

variable {q r : Quantity} {m n : Measure} {cs ds : List Command}

/-- **The unit text determines the scale up to rounding.** Two quantities of any runs that have
units of equal text have scales of one if all units in the text are of scale one, as has what the
text resolves to, whatever powers it asks for.

Otherwise, if the text stays within the range of doubles, and all powers in the two runs are
accurate up to an error, the scales are those of the text up to the drift of the runs, as is the
scale that the text resolves to. Values in such units are taken as they are, and their products and
quotients keep the left unit. -/
theorem scale_of_mem_run (hq : q ∈ Command.run cs) (hr : r ∈ Command.run ds)
    (hm : q.measure = some m) (hn : r.measure = some n) (htext : m.text = n.text) :
    ∃ e, Expression.ofString m.text = .ok e ∧
      ((∀ t ∈ e.terms, standard.isCoherent t.symbol) →
        m.scale = 1.0 ∧ n.scale = 1.0 ∧ ∃ s, standard.resolve m.text = .ok s ∧ s.scale = 1.0) ∧
      (∀ δ, 0 ≤ δ → (∀ q ∈ Command.run cs, ∀ m, q.measure = some m → m.PowersWithin δ) →
        (∀ q ∈ Command.run ds, ∀ m, q.measure = some m → m.PowersWithin δ) →
          (∀ t ∈ e.terms, t.IsMeasured standard) → e.reach standard ≤ maxReach →
            e.drift standard (max cs.length ds.length) δ ≤ 1 →
              Measure.HaveScale m n (e.logScale standard)
                (e.drift standard (max cs.length ds.length) δ)) ∧
      q.align r = .ok (q.value, r.value) ∧
      productMeasure q.measure r.measure = .ok q.measure ∧
      quotientMeasure q.measure r.measure = .ok q.measure := by
  obtain ⟨e, he, -⟩ := isUnitOrWord_of_mem_run hq hm
  refine ⟨e, he, fun hcoherent ↦ ?_, fun δ hδ hcs hds hterms hreach hdrift ↦ ?_, ?_, ?_, ?_⟩
  · exact ⟨Measure.isCoherent_of_mem_run hq hm e he hcoherent,
      Measure.isCoherent_of_mem_run hr hn e (htext ▸ he) hcoherent,
      Catalog.exists_resolve_of_isCoherent he hcoherent⟩
  · -- the run with fewer commands may count as many as the other
    have hmtracks := (Measure.tracks_of_mem_run hδ hcs hq hm).mono (le_max_left _ ds.length)
    have hntracks := (Measure.tracks_of_mem_run hδ hds hr hn).mono (le_max_right cs.length _)
    exact hmtracks.haveScale hntracks hδ (hcs q hq m hm) htext he hterms hreach hdrift
  · simp only [align, hm, hn, htext, if_true]
  · simp only [productMeasure, hm, hn, htext, if_true]
  · simp only [quotientMeasure, hm, hn, htext, if_true]

/-- No power is asked for but of units of scale one. -/
def asksForPowersOfOne (q : Quantity) : Bool :=
  q.measure.all fun m ↦ (Expression.ofString m.text).toOption.all fun e ↦
    e.terms.all fun t ↦ t.exponent.isNone || standard.isCoherent t.symbol

/-- Then all powers that are asked for are exact. -/
theorem powersWithin_of_asksForPowersOfOne (h : q.asksForPowersOfOne) (hm : q.measure = some m) :
    m.PowersWithin 0 := by
  intro e he t ht
  simp only [asksForPowersOfOne, hm, Option.all_some, he, Except.toOption, List.all_eq_true,
    Bool.or_eq_true] at h
  rcases h t ht with hnone | hcoherent
  · intro x hx
    simp [Option.isNone_iff_eq_none.1 hnone] at hx
  · exact Term.powerWithin_of_isCoherent le_rfl hcoherent

/-- An acceleration times a time and a length, once computed and once typed in. -/
theorem scale_of_mem_run_acceleration :
    ∃ cs, ∃ q ∈ Command.run cs, ∃ r ∈ Command.run cs, ∃ m n, q.measure = some m ∧
      r.measure = some n ∧ m.text = "ft*min*in/s**2" ∧ n.text = "ft*min*in/s**2" ∧
      ∃ ℓ, Measure.HaveScale m n ℓ (21 * roundoff) ∧ q.align r = .ok (q.value, r.value) := by
  obtain ⟨cs, hcs⟩ : ∃ cs : List Command, cs =
    [.withUnit 6.0 "ft/s**2", .withUnit 2.0 "min*in", .apply .multiply 0 1,
      .withUnit 1.0 "ft*min*in/s**2"] := ⟨_, rfl⟩
  have hoperands : (Command.run cs)[2]?.any fun q ↦ (Command.run cs)[3]?.any fun r ↦
      q.measure.any (·.text = "ft*min*in/s**2") && r.measure.any (·.text = "ft*min*in/s**2") := by
    rw [hcs]
    decide +kernel
  have hones : (Command.run cs).all asksForPowersOfOne := by
    rw [hcs]
    decide +kernel
  simp only [Option.any_eq_true, Bool.and_eq_true, decide_eq_true_eq] at hoperands
  obtain ⟨q, hq, r, hr, ⟨m, hm, hmtext⟩, n, hn, hntext⟩ := hoperands
  have hq := List.mem_of_getElem? hq
  have hr := List.mem_of_getElem? hr
  have hpowers : ∀ q ∈ Command.run cs, ∀ m, q.measure = some m → m.PowersWithin 0 :=
    fun q hq m hm ↦ powersWithin_of_asksForPowersOfOne (List.all_eq_true.1 hones q hq) hm
  obtain ⟨e, he, -, hscale, halign, -⟩ :=
    scale_of_mem_run hq hr hm hn (hmtext.trans hntext.symm)
  have hscale := hscale 0 le_rfl hpowers hpowers
  have hread : Expression.ofString "ft*min*in/s**2" =
      .ok ⟨[⟨"ft", none⟩, ⟨"min", none⟩, ⟨"in", none⟩],
        [⟨"s", some (Decimal.toFloat ⟨false, 2, 0⟩)⟩]⟩ := by decide +kernel
  obtain rfl := Except.ok.inj (hread.symm.trans (hmtext ▸ he))
  have hcoherent : standard.isCoherent "s" := by decide +kernel
  have hdrift : Expression.drift standard ⟨[⟨"ft", none⟩, ⟨"min", none⟩, ⟨"in", none⟩],
      [⟨"s", some (Decimal.toFloat ⟨false, 2, 0⟩)⟩]⟩ (max cs.length cs.length) 0 =
        21 * roundoff := by
    have hshares : Term.shares standard [⟨"ft", none⟩, ⟨"min", none⟩, ⟨"in", none⟩,
        ⟨"s", some (Decimal.toFloat ⟨false, 2, 0⟩)⟩] = 3 := by decide +kernel
    have hslip : Term.listSlip standard [⟨"ft", none⟩, ⟨"min", none⟩, ⟨"in", none⟩,
        ⟨"s", some (Decimal.toFloat ⟨false, 2, 0⟩)⟩] = 0 :=
      Term.listSlip_eq_zero (by simp [hcoherent])
    rw [Expression.drift, Expression.terms]
    simp only [List.cons_append, List.nil_append, hshares, hslip, hcs, List.length_cons,
      List.length_nil, max_self]
    norm_num
    ring
  rw [hdrift] at hscale
  -- left are that the terms are measured, that they stay in the range, and that the drift is
  -- small
  refine ⟨cs, q, hq, r, hr, m, n, hm, hn, hmtext, hntext, _, hscale ?_ ?_ ?_, halign⟩
  · have hunit : ∀ s ∈ ["ft", "min", "in"], ∃ unit, standard.resolveUnit s = .ok unit := by
      have hall : ["ft", "min", "in"].all fun s ↦ (standard.resolveUnit s).isOk := by decide +kernel
      exact fun s hs ↦ exists_ok_of_isOk (List.all_eq_true.1 hall s hs)
    simp only [Expression.terms, List.cons_append, List.nil_append, List.forall_mem_cons]
    exact ⟨Term.isMeasured_standard_iff.2 ⟨hunit "ft" (by simp), .inl (by simp [Term.IsFinite])⟩,
      Term.isMeasured_standard_iff.2 ⟨hunit "min" (by simp), .inl (by simp [Term.IsFinite])⟩,
      Term.isMeasured_standard_iff.2 ⟨hunit "in" (by simp), .inl (by simp [Term.IsFinite])⟩,
      Term.isMeasured_of_isCoherent hcoherent, by simp⟩
  · simp only [Expression.reach, Expression.terms, List.cons_append, List.nil_append,
      Term.listReach, List.map_cons, List.map_nil, List.sum_cons, List.sum_nil, Term.reach,
      Term.realPower, Catalog.logScale_of_isCoherent hcoherent, abs_one, abs_zero, mul_zero,
      maxReach]
    linarith [Catalog.abs_logScale_standard_le "ft", Catalog.abs_logScale_standard_le "min",
      Catalog.abs_logScale_standard_le "in"]
  · rw [roundoff]
    norm_num

/-- Two quantities of a run have equal unit texts, and scales that are related as given. -/
def haveOneText (cs : List Command) (i j : ℕ) (related : Float → Float → Bool) : Bool :=
  (Command.run cs)[i]?.any fun q ↦ (Command.run cs)[j]?.any fun r ↦
    q.measure.any fun m ↦ r.measure.any fun n ↦ m.text = n.text && related m.scale n.scale

/-- What has been evaluated, as a statement about the quantities of the run. -/
theorem exists_of_haveOneText {i j : ℕ} {related : Float → Float → Bool}
    (h : haveOneText cs i j related) : ∃ q ∈ Command.run cs, ∃ r ∈ Command.run cs, ∃ m n,
      q.measure = some m ∧ r.measure = some n ∧ m.text = n.text ∧ related m.scale n.scale := by
  simp only [haveOneText, Option.any_eq_true, Bool.and_eq_true, decide_eq_true_eq] at h
  obtain ⟨q, hq, r, hr, m, hm, n, hn, htext, hrelated⟩ := h
  exact ⟨q, List.mem_of_getElem? hq, r, List.mem_of_getElem? hr, m, n, hm, hn, htext, hrelated⟩

/-- **Equal texts with different scales.** Three factors are rounded differently when they are
grouped differently, and a product may overflow in one grouping and not in another. And what keeps
the unit when the texts are equal is not the product of the units. -/
theorem exists_scale_ne_of_text_eq :
    (∃ cs : List Command, cs = [.withUnit 1.0 "ft", .withUnit 1.0 "min*in", .apply .multiply 0 1,
        .withUnit 1.0 "ft*min*in"] ∧
      ∃ q ∈ Command.run cs, ∃ r ∈ Command.run cs, ∃ m n, q.measure = some m ∧
        r.measure = some n ∧ m.text = n.text ∧ m.scale ≠ n.scale) ∧
    (∃ cs : List Command, cs = [.withUnit 1.0 ("*".intercalate (List.replicate 13 "Tm")),
        .withUnit 1.0 ("*".intercalate (List.replicate 13 "Tm" ++ ["pm"])),
        .apply .multiply 0 1,
        .withUnit 1.0 ("*".intercalate (List.replicate 26 "Tm" ++ ["pm"]))] ∧
      ∃ q ∈ Command.run cs, ∃ r ∈ Command.run cs, ∃ m n, q.measure = some m ∧
        r.measure = some n ∧ m.text = n.text ∧ m.scale.isFinite ∧ n.scale.isInf) ∧
    ∃ m p, Measure.ofString "ft" = .ok m ∧ productMeasure (some m) (some m) = .ok (some m) ∧
      m.product m = .ok p ∧ p.text = "ft*ft" ∧ p.scale ≠ m.scale := by
  refine ⟨⟨_, rfl, ?_⟩, ⟨_, rfl, ?_⟩, ?_⟩
  · have h : haveOneText [.withUnit 1.0 "ft", .withUnit 1.0 "min*in", .apply .multiply 0 1,
        .withUnit 1.0 "ft*min*in"] 2 3 fun x y ↦ x ≠ y := by decide +kernel
    simpa using exists_of_haveOneText h
  · have h : haveOneText [.withUnit 1.0 ("*".intercalate (List.replicate 13 "Tm")),
        .withUnit 1.0 ("*".intercalate (List.replicate 13 "Tm" ++ ["pm"])),
        .apply .multiply 0 1,
        .withUnit 1.0 ("*".intercalate (List.replicate 26 "Tm" ++ ["pm"]))]
        2 3 fun x y ↦ x.isFinite && y.isInf := by decide +kernel
    simpa using exists_of_haveOneText h
  · have h : (Measure.ofString "ft").toOption.any fun m ↦ (m.product m).toOption.any fun p ↦
        p.text = "ft*ft" && p.scale ≠ m.scale := by decide +kernel
    simp only [Option.any_eq_true, Bool.and_eq_true, decide_eq_true_eq] at h
    obtain ⟨m, hm, p, hp, htext, hscale⟩ := h
    exact ⟨m, p, toOption_eq_some_iff.1 hm, by simp [productMeasure], toOption_eq_some_iff.1 hp,
      htext, hscale⟩

end Quantity

end DimensionalAnalysis
