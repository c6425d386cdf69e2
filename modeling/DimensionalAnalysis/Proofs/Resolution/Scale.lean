import DimensionalAnalysis.Proofs.Catalog.Standard
import DimensionalAnalysis.Proofs.Number.Relative
import DimensionalAnalysis.Proofs.Resolution.Terms

/-!
# The scale of an expression

Read as terms, an expression has a scale in the sense of real numbers: the product of the scales of
its symbols, each to the power of its exponent. What is stated here is its logarithm
(`Expression.logScale`). The resolver computes with doubles, from the left, and rounds at each step.

How far it gets from the scale is counted by terms. A term whose symbol is of scale one is
**coherent**, and does not change what it is multiplied to. Every other term costs two products and
a power, so that the error grows with the number of such terms (`exists_resolve_hasLog`). The error
is meant for numbers that have all their bits; the **reach** of an expression bounds the logarithms
of everything that the resolver comes across on its way, and has to be small (`maxReach`).

Two things make a power inaccurate, and are kept apart. How accurate the power itself is, is up to
the platform, and is an assumption here (`Term.PowerWithin`). The power that is asked for is the
exponent less one, since the unit is in the product already, and as a double it may have been
rounded. What this costs is known from the exponent (`Term.slip`), and is nothing for integers.
-/

namespace DimensionalAnalysis

open Number (rational? HasLog roundoff roundoff_pos)

/-- How far logarithms may reach, so that there is room for errors up to the range of doubles. -/
noncomputable def maxReach : ℝ :=
  700

/-! ### Scales of symbols -/

namespace Catalog

/-- The logarithm of the scale of a symbol. -/
noncomputable def logScale (c : Catalog) (symbol : String) : ℝ :=
  match c.resolveUnit symbol with
  | .ok unit => Real.log ((rational? unit.scale).getD 1)
  | .error _ => 0

/-- The symbol is a unit of scale one. -/
def isCoherent (c : Catalog) (symbol : String) : Bool :=
  (c.resolveUnit symbol).toOption.any fun unit ↦ unit.scale = 1.0

variable {c : Catalog} {symbol : String} {unit : Resolution}

/-- For a unit that resolves, to be coherent is to have scale one. -/
theorem isCoherent_iff (h : c.resolveUnit symbol = .ok unit) :
    c.isCoherent symbol ↔ unit.scale = 1.0 := by
  simp [isCoherent, h, Except.toOption]

/-- A coherent symbol resolves. -/
theorem exists_resolveUnit_of_isCoherent (h : c.isCoherent symbol) :
    ∃ unit, c.resolveUnit symbol = .ok unit := by
  cases hunit : c.resolveUnit symbol with
  | ok unit => exact ⟨unit, rfl⟩
  | error f => simp [isCoherent, hunit, Except.toOption] at h

/-- A unit of positive scale has the logarithm of its symbol. -/
theorem hasLog_scale {q : ℚ} (h : c.resolveUnit symbol = .ok unit)
    (hq : rational? unit.scale = some q) (hpos : 0 < q) :
    HasLog unit.scale (c.logScale symbol) 0 :=
  ⟨q, hq, hpos, by simp [logScale, h, hq]⟩

/-- A coherent symbol has logarithm zero. -/
theorem logScale_of_isCoherent (h : c.isCoherent symbol) : c.logScale symbol = 0 := by
  obtain ⟨unit, hunit⟩ := exists_resolveUnit_of_isCoherent h
  simp [logScale, hunit, (isCoherent_iff hunit).1 h, Number.rational?_one]

/-- In the standard catalog all units have positive scales, of moderate size. -/
theorem hasLog_standard (h : standard.resolveUnit symbol = .ok unit) :
    HasLog unit.scale (standard.logScale symbol) 0 := by
  obtain ⟨q, hq, hpos, -⟩ := exists_log_of_resolveUnit h
  exact hasLog_scale h hq hpos

/-- No scale of the standard catalog is far from one, whether the symbol resolves or not. -/
theorem abs_logScale_standard_le (symbol : String) : |standard.logScale symbol| ≤ 80 := by
  rw [logScale]
  split
  · rename_i unit h
    obtain ⟨q, hq, -, hle⟩ := exists_log_of_resolveUnit h
    rwa [hq, Option.getD_some]
  · simp

end Catalog

/-! ### Scales of terms -/

namespace Term

/-- The exponent as a real number, one where there is none. -/
noncomputable def realPower (t : Term) : ℝ :=
  match t.exponent with
  | none => 1
  | some x => ((rational? x).getD 1 : ℚ)

/-- The logarithm of the scale of the symbol to the power of the exponent. -/
noncomputable def logScale (c : Catalog) (t : Term) : ℝ :=
  t.realPower * c.logScale t.symbol

/-- The symbol is multiplied by at first, and then by its power less one. -/
noncomputable def reach (c : Catalog) (t : Term) : ℝ :=
  (|t.realPower| + 1) * |c.logScale t.symbol|

/-- The symbol is a unit of positive scale, and its exponent is a number or does not matter. -/
structure IsMeasured (c : Catalog) (t : Term) : Prop where
  unit : ∃ unit, c.resolveUnit t.symbol = .ok unit ∧ HasLog unit.scale (c.logScale t.symbol) 0
  power : (∀ x ∈ t.exponent, (rational? x).isSome) ∨ c.isCoherent t.symbol

/-- The platform raises the scale of the symbol to the power that it is asked for, up to an error of
the logarithm. This power is the double next to the exponent less one. Nothing is asked of powers
that leave the range of doubles. -/
def PowerWithin (c : Catalog) (δ : ℝ) (t : Term) : Prop :=
  ∀ x ∈ t.exponent, ∀ y, rational? (x - 1.0) = some y → t.reach c ≤ maxReach →
    ∀ unit, c.resolveUnit t.symbol = .ok unit →
      HasLog (Number.power unit.scale (x - 1.0)) (y * c.logScale t.symbol) δ

/-- How far the power that is asked for is from the exponent less one. -/
noncomputable def powerError (t : Term) : ℝ :=
  match t.exponent with
  | none => 0
  | some x => |((rational? (x - 1.0)).getD 0 : ℝ) - (t.realPower - 1)|

/-- What this adds to the error of the logarithm, for the term and for its reciprocal: an expression
that was turned over has the scale of the one, and the text of the other. -/
noncomputable def slip (c : Catalog) (t : Term) : ℝ :=
  (t.powerError + t.reciprocal.powerError) * |c.logScale t.symbol|

/-- How many of the terms are not coherent. -/
def shares (c : Catalog) (ts : List Term) : ℕ :=
  ts.countP fun t ↦ !c.isCoherent t.symbol

/-- The logarithm of the scale of all terms. -/
noncomputable def listLogScale (c : Catalog) (ts : List Term) : ℝ :=
  (ts.map (logScale c)).sum

/-- The reach of all terms. -/
noncomputable def listReach (c : Catalog) (ts : List Term) : ℝ :=
  (ts.map (reach c)).sum

/-- The slips of all terms. -/
noncomputable def listSlip (c : Catalog) (ts : List Term) : ℝ :=
  (ts.map (slip c)).sum

variable {c : Catalog} {t : Term} {ts us : List Term} {δ : ℝ}

/-- Reaches are not negative. -/
theorem reach_nonneg (c : Catalog) (t : Term) : 0 ≤ t.reach c := by
  unfold reach
  positivity

/-- Errors are not negative. -/
theorem powerError_nonneg (t : Term) : 0 ≤ t.powerError := by
  rw [powerError]
  split
  · exact le_rfl
  · exact abs_nonneg _

/-- If the exponent less one is a double, then this power is asked for. -/
theorem powerError_of_representable
    (h : ∀ x ∈ t.exponent, ∃ p, rational? x = some p ∧ Number.Representable (p - 1)) :
    t.powerError = 0 := by
  rw [powerError]
  split
  · rfl
  · rename_i x hx
    obtain ⟨p, hp, hrep⟩ := h x hx
    rw [Number.rational?_sub hp Number.rational?_one hrep, realPower, hx]
    simp [hp]

/-- Without an exponent no power is asked for, and by the reciprocal one less than minus one. -/
theorem slip_of_plain (c : Catalog) (h : t.exponent = none) : t.slip c = 0 := by
  have hself : t.powerError = 0 := powerError_of_representable (by simp [h])
  have hreciprocal : t.reciprocal.powerError = 0 := by
    refine powerError_of_representable fun x hx ↦ ?_
    obtain rfl : -1.0 = x := by simpa [reciprocal, h] using hx
    have htwo := Number.representable_intCast_of_le (n := -2) (by norm_num)
    exact ⟨-1, Number.rational?_negOne, by norm_num at htwo ⊢; exact htwo⟩
  rw [slip, hself, hreciprocal, add_zero, zero_mul]

theorem slip_nonneg (c : Catalog) (t : Term) : 0 ≤ t.slip c :=
  mul_nonneg (add_nonneg t.powerError_nonneg t.reciprocal.powerError_nonneg) (abs_nonneg _)

/-- The scale of a term is within its reach. -/
theorem abs_logScale_le (c : Catalog) (t : Term) : |t.logScale c| ≤ t.reach c := by
  rw [logScale, abs_mul, reach]
  exact mul_le_mul_of_nonneg_right (le_add_of_nonneg_right zero_le_one) (abs_nonneg _)

theorem listReach_nonneg (c : Catalog) (ts : List Term) : 0 ≤ listReach c ts :=
  List.sum_nonneg fun x hx ↦ by
    obtain ⟨t, -, rfl⟩ := List.mem_map.1 hx
    exact t.reach_nonneg c

theorem listLogScale_cons (c : Catalog) (t : Term) (ts : List Term) :
    listLogScale c (t :: ts) = t.logScale c + listLogScale c ts := by
  rw [listLogScale, List.map_cons, List.sum_cons, listLogScale]

theorem listReach_cons (c : Catalog) (t : Term) (ts : List Term) :
    listReach c (t :: ts) = t.reach c + listReach c ts := by
  rw [listReach, List.map_cons, List.sum_cons, listReach]

theorem listSlip_cons (c : Catalog) (t : Term) (ts : List Term) :
    listSlip c (t :: ts) = t.slip c + listSlip c ts := by
  rw [listSlip, List.map_cons, List.sum_cons, listSlip]

/-- The scale of the terms is within their reach. -/
theorem abs_listLogScale_le (c : Catalog) (ts : List Term) :
    |listLogScale c ts| ≤ listReach c ts := by
  induction ts with
  | nil => simp [listLogScale, listReach]
  | cons t ts ih =>
    rw [listLogScale_cons, listReach_cons]
    exact (abs_add_le _ _).trans (add_le_add (t.abs_logScale_le c) ih)

theorem listLogScale_append (c : Catalog) (ts us : List Term) :
    listLogScale c (ts ++ us) = listLogScale c ts + listLogScale c us := by
  rw [listLogScale, List.map_append, List.sum_append]
  rfl

theorem listReach_append (c : Catalog) (ts us : List Term) :
    listReach c (ts ++ us) = listReach c ts + listReach c us := by
  rw [listReach, List.map_append, List.sum_append]
  rfl

theorem listSlip_nonneg (c : Catalog) (ts : List Term) : 0 ≤ listSlip c ts :=
  List.sum_nonneg fun x hx ↦ by
    obtain ⟨t, -, rfl⟩ := List.mem_map.1 hx
    exact t.slip_nonneg c

theorem listSlip_append (c : Catalog) (ts us : List Term) :
    listSlip c (ts ++ us) = listSlip c ts + listSlip c us := by
  rw [listSlip, List.map_append, List.sum_append]
  rfl

/-- Terms of both lists are counted. -/
theorem shares_append (c : Catalog) (ts us : List Term) :
    shares c (ts ++ us) = shares c ts + shares c us :=
  List.countP_append

/-- A coherent term does not change the scale. -/
theorem logScale_of_isCoherent (h : c.isCoherent t.symbol) : t.logScale c = 0 := by
  rw [logScale, Catalog.logScale_of_isCoherent h, mul_zero]

/-- A coherent term has nothing to slip on. -/
theorem slip_of_isCoherent (h : c.isCoherent t.symbol) : t.slip c = 0 := by
  rw [slip, Catalog.logScale_of_isCoherent h, abs_zero, mul_zero]

/-- Coherent terms add nothing to a sum in which none of them counts. -/
theorem sum_eq_zero_of_shares {f : Term → ℝ} (hf : ∀ t, c.isCoherent t.symbol → f t = 0)
    (h : shares c ts = 0) : (ts.map f).sum = 0 := by
  refine List.sum_eq_zero fun x hx ↦ ?_
  obtain ⟨t, ht, rfl⟩ := List.mem_map.1 hx
  exact hf t (by simpa using List.countP_eq_zero.1 h t ht)

/-- Where powers are asked for only of units of scale one, nothing slips. -/
theorem listSlip_eq_zero (h : ∀ t ∈ ts, t.exponent = none ∨ c.isCoherent t.symbol) :
    listSlip c ts = 0 :=
  List.sum_eq_zero fun x hx ↦ by
    obtain ⟨t, ht, rfl⟩ := List.mem_map.1 hx
    exact (h t ht).elim (slip_of_plain c) slip_of_isCoherent

theorem listSlip_of_shares_eq_zero (h : shares c ts = 0) : listSlip c ts = 0 :=
  sum_eq_zero_of_shares (fun _ ↦ slip_of_isCoherent) h

theorem listLogScale_of_shares_eq_zero (h : shares c ts = 0) : listLogScale c ts = 0 :=
  sum_eq_zero_of_shares (fun _ ↦ logScale_of_isCoherent) h

end Term

/-! ### Resolving terms -/

section Terms

open Term (shares listLogScale listReach listSlip)

variable {c : Catalog} {t : Term} {ts : List Term} {acc unit : Resolution} {ℓ ε δ : ℝ}

/-- A coherent term leaves the scale as it is. -/
theorem scale_addTerm_of_isCoherent (hunit : unit.scale = 1.0) (acc : Resolution) (t : Term) :
    (acc.addTerm unit t).scale = acc.scale := by
  rw [Resolution.addTerm]
  cases t.exponent with
  | none => simp only [Resolution.times, hunit, Number.mul_one_eq_self]
  | some x =>
    simp only [Resolution.raise, Resolution.times, hunit, Number.power_one, Number.mul_one_eq_self]

/-- **Every other term adds its logarithm**, and to the error two products, a power and its
slip.

The unit is multiplied in first and its power less one afterwards, each with a rounding. The
hypotheses leave room for the error on top of the reach, so that neither product leaves the
range. -/
theorem hasLog_addTerm (hunit : c.resolveUnit t.symbol = .ok unit)
    (hscale : HasLog unit.scale (c.logScale t.symbol) 0)
    (hfinite : ∀ x ∈ t.exponent, (rational? x).isSome) (hpower : t.PowerWithin c δ) (hδ : 0 ≤ δ)
    (hacc : HasLog acc.scale ℓ ε) (hreach : |ℓ| + t.reach c ≤ maxReach)
    (hε : ε + (roundoff + δ + t.slip c) ≤ 8) :
    HasLog (acc.addTerm unit t).scale (ℓ + t.logScale c)
      (ε + (2 * roundoff + δ) + t.slip c) := by
  have hmax : maxReach = 700 := rfl
  have hround := roundoff_pos
  have hslip := t.slip_nonneg c
  have hself : |c.logScale t.symbol| ≤ t.reach c := by
    rw [Term.reach, add_one_mul]
    exact le_add_of_nonneg_left (by positivity)
  have hfirst : HasLog (acc.scale * unit.scale) (ℓ + c.logScale t.symbol) (ε + roundoff) := by
    refine (hacc.mul hscale ?_).mono (by rw [add_zero])
    linarith [abs_add_le ℓ (c.logScale t.symbol)]
  rw [Resolution.addTerm]
  cases hx : t.exponent with
  | none =>
    rw [Term.logScale, Term.realPower, hx, one_mul]
    exact hfirst.mono (by linarith)
  | some x =>
    obtain ⟨p, hp⟩ := Option.isSome_iff_exists.1 (hfinite x hx)
    obtain ⟨y, hy⟩ := Number.exists_rational?_sub_one hp
    -- the power is accurate for what it is asked, and this is off by the slip at most
    have hasked := hpower x hx y hy (by linarith [abs_nonneg ℓ]) unit hunit
    have herror : |(y : ℝ) * c.logScale t.symbol - (t.realPower - 1) * c.logScale t.symbol| ≤
        t.slip c := by
      have hpower : t.powerError = |(y : ℝ) - (t.realPower - 1)| := by
        simp only [Term.powerError, hx, hy, Option.getD_some]
      rw [← sub_mul, abs_mul, ← hpower]
      exact mul_le_mul_of_nonneg_right (le_add_of_nonneg_right t.reciprocal.powerError_nonneg)
        (abs_nonneg _)
    have hpow := hasked.shift herror
    have hlog : ℓ + c.logScale t.symbol + (t.realPower - 1) * c.logScale t.symbol =
        ℓ + t.logScale c := by
      rw [Term.logScale]
      ring
    have hrange : |ℓ + t.logScale c| + (ε + roundoff + (δ + t.slip c)) ≤ 708 := by
      linarith [abs_add_le ℓ (t.logScale c), t.abs_logScale_le c]
    have hproduct := hfirst.mul hpow (hlog ▸ hrange)
    rw [hlog] at hproduct
    exact hproduct.mono (by linarith)

/-- Terms add their logarithms, and those that are not coherent add to the error. The error of
the start and the cost of all terms share one budget, as the reach does. -/
theorem exists_resolveTerms_hasLog (hδ : 0 ≤ δ)
    (hts : ∀ t ∈ ts, t.IsMeasured c ∧ t.PowerWithin c δ) (hacc : HasLog acc.scale ℓ ε)
    (hreach : |ℓ| + listReach c ts ≤ maxReach)
    (hε : ε + (shares c ts * (2 * roundoff + δ) + listSlip c ts) ≤ 8) :
    ∃ r, resolveTerms c.resolveUnit acc ts = .ok r ∧
      HasLog r.scale (ℓ + listLogScale c ts)
        (ε + (shares c ts * (2 * roundoff + δ) + listSlip c ts)) := by
  induction ts generalizing acc ℓ ε with
  | nil => exact ⟨acc, rfl, by simpa [listLogScale, listSlip, shares] using hacc⟩
  | cons t ts ih =>
    obtain ⟨hmeasured, hpower⟩ := hts t List.mem_cons_self
    obtain ⟨unit, hunit, hscale⟩ := hmeasured.unit
    have hround := roundoff_pos
    have hcost : 0 ≤ shares c ts * (2 * roundoff + δ) := by positivity
    rw [resolveTerms, hunit, ok_bind, Term.listLogScale_cons, ← add_assoc]
    rw [Term.listReach_cons] at hreach
    rw [Term.listSlip_cons] at hε ⊢
    have htail := Term.listReach_nonneg c ts
    have htailslip := Term.listSlip_nonneg c ts
    have hreach' : |ℓ + t.logScale c| + listReach c ts ≤ maxReach := by
      linarith [abs_add_le ℓ (t.logScale c), t.abs_logScale_le c]
    have hts' := fun t ht ↦ hts t (List.mem_cons_of_mem _ ht)
    by_cases hcoherent : c.isCoherent t.symbol
    · have hshares : shares c (t :: ts) = shares c ts := by simp [shares, hcoherent]
      rw [hshares, Term.slip_of_isCoherent hcoherent, zero_add] at hε ⊢
      refine ih hts' ?_ hreach' hε
      rw [scale_addTerm_of_isCoherent ((Catalog.isCoherent_iff hunit).1 hcoherent),
        Term.logScale_of_isCoherent hcoherent, add_zero]
      exact hacc
    · have hshares : (shares c (t :: ts) : ℝ) = shares c ts + 1 := by simp [shares, hcoherent]
      -- this term pays for its own part of the budget, and the others for the rest
      have hsum : ε + ((shares c ts + 1) * (2 * roundoff + δ) + (t.slip c + listSlip c ts)) =
          ε + (2 * roundoff + δ) + t.slip c +
            (shares c ts * (2 * roundoff + δ) + listSlip c ts) := by ring
      rw [hshares, hsum] at hε ⊢
      have hterm := hasLog_addTerm hunit hscale (hmeasured.power.resolve_right hcoherent) hpower hδ
        hacc (by linarith) (by linarith)
      exact ih hts' hterm hreach' hε

/-- The terms on one side of the line start from unity, which has no error. -/
theorem exists_resolveTerms_unity_hasLog (hδ : 0 ≤ δ)
    (hts : ∀ t ∈ ts, t.IsMeasured c ∧ t.PowerWithin c δ) (hreach : listReach c ts ≤ maxReach)
    (hε : shares c ts * (2 * roundoff + δ) + listSlip c ts ≤ 8) :
    ∃ r, resolveTerms c.resolveUnit .unity ts = .ok r ∧
      HasLog r.scale (listLogScale c ts) (shares c ts * (2 * roundoff + δ) + listSlip c ts) := by
  have hunity : HasLog Resolution.unity.scale 0 0 := HasLog.one
  obtain ⟨r, hr, hlog⟩ := exists_resolveTerms_hasLog hδ hts hunity
    (by rwa [abs_zero, zero_add]) (by rwa [zero_add])
  rw [zero_add, zero_add] at hlog
  exact ⟨r, hr, hlog⟩

end Terms

/-! ### Resolving expressions -/

namespace Expression

open Term (shares listLogScale listReach listSlip)

variable {c : Catalog} {e : Expression} {s : String} {δ : ℝ}

/-- The logarithm of the scale of an expression. -/
noncomputable def logScale (c : Catalog) (e : Expression) : ℝ :=
  listLogScale c e.numerator - listLogScale c e.denominator

/-- A bound on the logarithms of all scales on the way to that of the expression. -/
noncomputable def reach (c : Catalog) (e : Expression) : ℝ :=
  listReach c e.terms

/-- The error of the scale after `k` operations on expressions, for powers of accuracy `δ`. There is
none if all terms are coherent. -/
noncomputable def drift (c : Catalog) (e : Expression) (k : ℕ) (δ : ℝ) : ℝ :=
  shares c e.terms * ((k + 3) * roundoff + δ) + listSlip c e.terms

/-- The scale of an expression is within its reach. -/
theorem abs_logScale_le (c : Catalog) (e : Expression) : |e.logScale c| ≤ e.reach c := by
  rw [reach, terms, Term.listReach_append]
  exact (abs_sub _ _).trans (add_le_add (Term.abs_listLogScale_le c _)
    (Term.abs_listLogScale_le c _))

/-- Without any share the scale is one. -/
theorem logScale_of_shares_eq_zero (h : shares c e.terms = 0) : e.logScale c = 0 := by
  rw [terms, Term.shares_append, Nat.add_eq_zero_iff] at h
  rw [logScale, Term.listLogScale_of_shares_eq_zero h.1, Term.listLogScale_of_shares_eq_zero h.2,
    sub_zero]

/-- **The resolver finds the scale of an expression**, up to an error for each term that is not
coherent.

Each side costs two roundings and a power for each of its terms. The division costs one
rounding, which is charged to every term once more, so that the error stays a sum over terms. It
is charged to none if there are none, as one divided by one is one. -/
theorem exists_resolve_hasLog (hδ : 0 ≤ δ) (he : ofString s = .ok e)
    (hterms : ∀ t ∈ e.terms, t.IsMeasured c ∧ t.PowerWithin c δ) (hreach : e.reach c ≤ maxReach)
    (hdrift : e.drift c 0 δ ≤ 1) :
    ∃ r, c.resolve s = .ok r ∧ HasLog r.scale (e.logScale c) (e.drift c 0 δ) := by
  obtain ⟨ρ, hρ⟩ : ∃ ρ, ρ = 2 * roundoff + δ := ⟨_, rfl⟩
  have hmax : maxReach = 700 := rfl
  have hround := roundoff_pos
  have hρ' : 0 ≤ ρ := by linarith
  have hcost : e.drift c 0 δ =
      ((shares c e.numerator + shares c e.denominator : ℕ) : ℝ) * (ρ + roundoff) +
        (listSlip c e.numerator + listSlip c e.denominator) := by
    rw [drift, terms, Term.shares_append, Term.listSlip_append, hρ]
    push_cast
    ring
  have hlog := e.abs_logScale_le c
  rw [logScale] at hlog ⊢
  rw [hcost] at hdrift ⊢
  rw [reach, terms, Term.listReach_append] at hreach hlog
  have hnum := Term.listReach_nonneg c e.numerator
  have hden := Term.listReach_nonneg c e.denominator
  have hnumslip := Term.listSlip_nonneg c e.numerator
  have hdenslip := Term.listSlip_nonneg c e.denominator
  have hnumcost : 0 ≤ shares c e.numerator * ρ := by positivity
  have hdencost : 0 ≤ shares c e.denominator * ρ := by positivity
  -- before the division neither side has the roundoff of the division yet
  have hsum : shares c e.numerator * ρ + listSlip c e.numerator +
      (shares c e.denominator * ρ + listSlip c e.denominator) ≤ 1 := by
    have hextra : 0 ≤ ((shares c e.numerator + shares c e.denominator : ℕ) : ℝ) * roundoff := by
      positivity
    push_cast at hdrift hextra
    linarith
  obtain ⟨n, hn, hnlog⟩ := exists_resolveTerms_unity_hasLog hδ
    (fun t ht ↦ hterms t (List.mem_append_left _ ht)) (by linarith) (by rw [← hρ]; linarith)
  obtain ⟨d, hd, hdlog⟩ := exists_resolveTerms_unity_hasLog hδ
    (fun t ht ↦ hterms t (List.mem_append_right _ ht)) (by linarith) (by rw [← hρ]; linarith)
  rw [← hρ] at hnlog hdlog
  have hresolve := (resolveText_eq_ok_iff_of_ofString he).2
    ⟨n, d, hn, hd, combine_eq_ok_iff.2 ⟨hdlog.beq_zero, rfl⟩⟩
  have hnone : ∀ {ts}, shares c ts = 0 → listLogScale c ts = 0 ∧ listSlip c ts = 0 := fun h ↦
    ⟨Term.listLogScale_of_shares_eq_zero h, Term.listSlip_of_shares_eq_zero h⟩
  exact ⟨_, hresolve, hnlog.div_shares hdlog hnone hnone (by linarith)⟩

end Expression

end DimensionalAnalysis
