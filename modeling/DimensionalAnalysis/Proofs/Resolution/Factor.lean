import DimensionalAnalysis.Proofs.Number.Order
import DimensionalAnalysis.Proofs.Resolution.Equivalence
import DimensionalAnalysis.Proofs.Resolution.Scale

/-!
# Conversion factors

A conversion factor is the quotient of two scales. What makes one **usable** is that it is a
positive number, so that values can be converted there and back. Three divisions lie behind it:
one in either expression, between what is above and what is below its line, and the last one.

The first two are guarded, and a scale of zero below a line is reported under the name of its
expression (`Catalog.resolve_of_denominatorScale?`). Nothing is checked of products and powers,
which may overflow and underflow, nor of the quotient. A factor is usable exactly if it is
rounded from a quotient of two numbers that doubles can hold (`Number.isUsable_div_iff`): half
the least positive double is rounded to zero, and what is beyond the greatest one by half a step
is an infinity. An infinity by itself yields an infinity, a NaN or a zero, and so no factor that
would pass for one.

For texts there is a bound on logarithms that rules all of this out (`Catalog.InReach`).
-/

namespace DimensionalAnalysis

/-! ### Positive quotients -/

namespace Number

open Float.Model (Format UnpackedFloat)
open Float.Model.UnpackedFloat

variable {x y : Float} {p q : ℚ}

/-- The double is a positive number. -/
def IsUsable (x : Float) : Prop :=
  x.isFinite ∧ 0.0 < x

/-- To be usable is to be a positive number. -/
theorem isUsable_iff : IsUsable x ↔ ∃ p, rational? x = some p ∧ 0 < p := by
  constructor
  · rintro ⟨hfinite, hpos⟩
    obtain ⟨p, hp⟩ := exists_rational?_of_isFinite hfinite
    exact ⟨p, hp, (lt_iff rational?_zero hp).1 hpos⟩
  · rintro ⟨p, hp, hpos⟩
    refine ⟨?_, (lt_iff rational?_zero hp).2 hpos⟩
    rw [← isSome_rational?, hp]
    rfl

/-- A quotient is zero at most if the dividend is no number, or the divisor is none other than
zero. Infinities and NaN are gone through by cases, in which core does not divide at all. -/
theorem eq_zero_of_valueOf_div {u w : UnpackedFloat} {r : ℚ}
    (h : valueOf u = none ∨ ∀ q, valueOf w = some q → q = 0)
    (hr : valueOf (Float.Model.pack (UnpackedFloat.div Format.binary64 u w)).unpack = some r) :
    r = 0 := by
  have hquotient : IsCanonical (UnpackedFloat.div Format.binary64 u w) ∧
      ∀ r, valueOf (UnpackedFloat.div Format.binary64 u w) = some r → r = 0 := by
    cases u with
    | notANumber => exact ⟨trivial, by simp [UnpackedFloat.div, valueOf]⟩
    | infinity s => cases w <;> exact ⟨trivial, by simp [UnpackedFloat.div, valueOf]⟩
    | zero s => cases w <;> exact ⟨trivial, by simp [UnpackedFloat.div, valueOf, eq_comm]⟩
    | finite s m e hm =>
      cases w with
      | notANumber => exact ⟨trivial, by simp [UnpackedFloat.div, valueOf]⟩
      | infinity t => exact ⟨trivial, by simp [UnpackedFloat.div, valueOf, eq_comm]⟩
      | zero t => exact ⟨trivial, by simp [UnpackedFloat.div, valueOf]⟩
      | finite t n f hn =>
        -- two numbers, the divisor other than zero
        obtain h | h := h
        · simp [valueOf] at h
        · exact absurd (h _ rfl) (signFactor_mul_ne_zero hn)
  rw [unpack_pack hquotient.1] at hr
  exact hquotient.2 r hr

/-- **A quotient is a positive number exactly if it is one of two numbers, and neither
underflows nor overflows.** For a divisor of zero there is no quotient of numbers (here it
counts as zero), and it is an infinity or a NaN. -/
theorem isUsable_div_iff :
    IsUsable (x / y) ↔ ∃ p q, rational? x = some p ∧ rational? y = some q ∧
      2 ^ (-1075 : ℤ) < p / q ∧ p / q < 2 ^ (1024 : ℤ) - 2 ^ (970 : ℤ) := by
  rw [isUsable_iff]
  constructor
  · rintro ⟨r, hr, hpos⟩
    have hlost : ¬(rational? x = none ∨ ∀ q, rational? y = some q → q = 0) := fun h ↦
      hpos.ne' (eq_zero_of_valueOf_div h hr)
    push Not at hlost
    obtain ⟨hx, q, hq, hne⟩ := hlost
    obtain ⟨p, hp⟩ := Option.ne_none_iff_exists'.1 hx
    exact ⟨p, q, hp, hq, (nearest_div hp hq hne).exists_pos_iff.1 ⟨r, hr, hpos⟩⟩
  · rintro ⟨p, q, hp, hq, hrange⟩
    have hne : q ≠ 0 := by
      rintro rfl
      rw [div_zero] at hrange
      exact absurd hrange.1 (not_lt.2 (two_zpow_pos _).le)
    exact (nearest_div hp hq hne).exists_pos_iff.2 hrange

/-- A positive number with a logarithm is usable. -/
theorem HasLog.isUsable {ℓ ε : ℝ} (h : HasLog x ℓ ε) : IsUsable x := by
  obtain ⟨q, hq, hpos, -⟩ := h
  exact isUsable_iff.2 ⟨q, hq, hpos⟩

end Number

namespace Catalog

open Number (rational? IsUsable roundoff)

/-! ### Divisions inside expressions -/

section Division

variable {c : Catalog} {expression : String} {r : Resolution} {x : Float}

/-- The scale below the line of an expression, if both sides resolve. -/
def denominatorScale? (c : Catalog) (expression : String) : Option Float :=
  match c.resolveTokens (Split.ofString expression).numerator,
    c.resolveTokens (Split.ofString expression).denominator with
  | .ok _, .ok d => some d.scale
  | _, _ => none

/-- An expression that resolves has divided by a scale other than zero. -/
theorem exists_denominatorScale? (h : c.resolve expression = .ok r) :
    ∃ x, c.denominatorScale? expression = some x ∧ (x == 0.0) = false := by
  obtain ⟨n, d, hn, hd, hr⟩ := resolveText_eq_ok_iff.1 h
  refine ⟨d.scale, ?_, (combine_eq_ok_iff.1 hr).1⟩
  simp only [denominatorScale?, resolveTokens, hn, hd]

/-- An expression of scale zero below the line is blamed for it. -/
theorem resolve_of_denominatorScale? (h : c.denominatorScale? expression = some x)
    (hzero : x == 0.0) : c.resolve expression = .error (.zeroScale expression) := by
  unfold denominatorScale? at h
  split at h
  · rename_i n d hn hd
    obtain rfl := Option.some.inj h
    rw [resolveTokens] at hn hd
    simp only [resolve, resolveText, hn, hd, ok_bind, Resolution.combine, hzero, if_true]
    rfl
  · simp at h

end Division

/-! ### The range of doubles -/

/-- On the way to the scale of the expression nothing leaves the range of doubles. Its terms are
units with numbers for exponents, and powers are accurate to `δ`. -/
structure InReach (c : Catalog) (δ : ℝ) (e : Expression) : Prop where
  terms : ∀ t ∈ e.terms, t.IsMeasured c ∧ t.PowerWithin c δ
  reach_le : e.reach c ≤ maxReach
  drift_le : e.drift c 0 δ ≤ 1

/-- Expressions in reach whose scales are not too far apart have a usable factor. -/
theorem isUsable_of_inReach {c : Catalog} {source target : String} {e e' : Expression}
    {s t : Resolution} {δ : ℝ} (hδ : 0 ≤ δ) (hs : c.resolve source = .ok s)
    (ht : c.resolve target = .ok t) (he : Expression.ofString source = .ok e)
    (he' : Expression.ofString target = .ok e') (hsource : c.InReach δ e)
    (htarget : c.InReach δ e') (hratio : |e.logScale c - e'.logScale c| ≤ maxReach) :
    IsUsable (s.scale / t.scale) := by
  obtain ⟨s', hs', hslog⟩ := Expression.exists_resolve_hasLog hδ he hsource.terms hsource.reach_le
    hsource.drift_le
  obtain ⟨t', ht', htlog⟩ := Expression.exists_resolve_hasLog hδ he' htarget.terms
    htarget.reach_le htarget.drift_le
  obtain rfl : s = s' := Except.ok.inj (hs.symm.trans hs')
  obtain rfl : t = t' := Except.ok.inj (ht.symm.trans ht')
  refine (hslog.div htlog ?_).isUsable
  have hmax : maxReach = 700 := rfl
  linarith [hsource.drift_le, htarget.drift_le]

/-- Units without exponents reach no further than their scales. -/
theorem reach_le_of_plain {e : Expression} (h : ∀ t ∈ e.terms, t.exponent = none) :
    e.reach standard ≤ 160 * e.terms.length := by
  have hterm : ∀ x ∈ e.terms.map (Term.reach standard), x ≤ 160 := by
    intro x hx
    obtain ⟨t, ht, rfl⟩ := List.mem_map.1 hx
    rw [Term.reach, Term.realPower, h t ht, abs_one]
    linarith [abs_logScale_standard_le t.symbol]
  have hsum := List.sum_le_card_nsmul _ 160 hterm
  rw [List.length_map, nsmul_eq_mul, mul_comm] at hsum
  exact hsum

/-- A few units without exponents are in reach. -/
theorem inReach_of_plain {e : Expression}
    (hunit : ∀ t ∈ e.terms, ∃ unit, standard.resolveUnit t.symbol = .ok unit)
    (hplain : ∀ t ∈ e.terms, t.exponent = none) (hlength : e.terms.length ≤ 4) :
    standard.InReach 0 e where
  terms t ht := by
    obtain ⟨unit, hscale⟩ := hunit t ht
    have hnone := hplain t ht
    refine ⟨⟨⟨unit, hscale, hasLog_standard hscale⟩, .inl ?_⟩, ?_⟩ <;>
    · intro x hx
      simp [hnone] at hx
  reach_le := by
    have hmax : maxReach = 700 := rfl
    have hlength : (e.terms.length : ℝ) ≤ 4 := by exact_mod_cast hlength
    linarith [reach_le_of_plain hplain]
  drift_le := by
    have hshares : (Term.shares standard e.terms : ℝ) ≤ 4 := by
      exact_mod_cast List.countP_le_length.trans hlength
    rw [Expression.drift, Term.listSlip_eq_zero fun t ht ↦ .inl (hplain t ht), roundoff]
    norm_num
    linarith

/-! ### The main result -/

/-- What a factor is, and when there is one. -/
theorem conversionFactor_eq_ok_iff {c : Catalog} {source target : String} {f : Float} :
    c.conversionFactor source target = .ok f ↔ ∃ s t, c.resolve source = .ok s ∧
      c.resolve target = .ok t ∧ s.signature == t.signature ∧ f = s.scale / t.scale := by
  simp only [conversionFactor, bind_eq_ok_iff]
  constructor
  · rintro ⟨s, hs, t, ht, h⟩
    split at h
    · rename_i hsame
      exact ⟨s, t, hs, ht, hsame, (Except.ok.inj h).symm⟩
    · simp at h
  · rintro ⟨s, t, hs, ht, hsame, rfl⟩
    exact ⟨s, hs, t, ht, by rw [if_pos hsame]; rfl⟩

/-- **When a conversion factor is usable.** A factor is the quotient of the scales of two
expressions that resolve, and inside them nothing was divided by zero: a scale of zero below a line
is reported. The factor is a positive number exactly if both scales are numbers whose quotient
neither underflows nor overflows, which leaves out targets of scale zero. It is one if the texts
stay in reach. -/
theorem conversionFactor_usable (source target : String) :
    (∀ f, standard.conversionFactor source target = .ok f → ∃ s t,
      standard.resolve source = .ok s ∧ standard.resolve target = .ok t ∧
      f = s.scale / t.scale ∧
      (∀ expression ∈ [source, target], ∃ x,
        standard.denominatorScale? expression = some x ∧ (x == 0.0) = false) ∧
      (IsUsable f ↔ ∃ p q, rational? s.scale = some p ∧ rational? t.scale = some q ∧
        2 ^ (-1075 : ℤ) < p / q ∧ p / q < 2 ^ (1024 : ℤ) - 2 ^ (970 : ℤ)) ∧
      ∀ e e' δ, Expression.ofString source = .ok e → Expression.ofString target = .ok e' →
        0 ≤ δ → standard.InReach δ e → standard.InReach δ e' →
        |e.logScale standard - e'.logScale standard| ≤ maxReach → IsUsable f) ∧
    (∀ x, standard.denominatorScale? source = some x → x == 0.0 →
      standard.conversionFactor source target = .error (.zeroScale source)) ∧
    ∀ s x, standard.resolve source = .ok s → standard.denominatorScale? target = some x →
      x == 0.0 → standard.conversionFactor source target = .error (.zeroScale target) := by
  refine ⟨fun f hf ↦ ?_, fun x hx hzero ↦ ?_, fun s x hs hx hzero ↦ ?_⟩
  · obtain ⟨s, t, hs, ht, -, rfl⟩ := conversionFactor_eq_ok_iff.1 hf
    refine ⟨s, t, hs, ht, rfl, ?_, Number.isUsable_div_iff, ?_⟩
    · simp only [List.forall_mem_cons]
      exact ⟨exists_denominatorScale? hs, exists_denominatorScale? ht, by simp⟩
    · intro e e' δ he he' hδ hsource htarget hratio
      exact isUsable_of_inReach hδ hs ht he he' hsource htarget hratio
  · rw [conversionFactor, resolve_of_denominatorScale? hx hzero, error_bind]
  · rw [conversionFactor, hs, ok_bind, resolve_of_denominatorScale? hx hzero, error_bind]

/-- A speed in miles converts by a usable factor, and what is divided by a mass that underflows
converts by none. -/
theorem conversionFactor_usable_mile :
    (∃ f, standard.conversionFactor "miles/hr" "m/s" = .ok f ∧ IsUsable f) ∧
    ∃ source, source = "m/" ++ "*".intercalate (List.replicate 27 "pg") ∧
      standard.conversionFactor source "m/kg**27" = .error (.zeroScale source) := by
  constructor
  · obtain ⟨f, hf⟩ := exists_ok_of_isOk (x := standard.conversionFactor "miles/hr" "m/s")
      (by decide +kernel)
    obtain ⟨s, t, -, -, -, -, -, husable⟩ := (conversionFactor_usable "miles/hr" "m/s").1 f hf
    have hsource : Expression.ofString "miles/hr" = .ok ⟨[⟨"miles", none⟩], [⟨"hr", none⟩]⟩ := by
      decide +kernel
    have htarget : Expression.ofString "m/s" = .ok ⟨[⟨"m", none⟩], [⟨"s", none⟩]⟩ := by
      decide +kernel
    have hunit : ∀ symbol ∈ ["miles", "hr", "m", "s"], ∃ unit,
        standard.resolveUnit symbol = .ok unit := by
      have hall : ["miles", "hr", "m", "s"].all fun s ↦ (standard.resolveUnit s).isOk := by
        decide +kernel
      exact fun s hs ↦ exists_ok_of_isOk (List.all_eq_true.1 hall s hs)
    simp only [List.forall_mem_cons] at hunit
    obtain ⟨hmiles, hhr, hm, hs, -⟩ := hunit
    refine ⟨f, hf, husable _ _ 0 hsource htarget le_rfl ?_ ?_ ?_⟩
    · exact inReach_of_plain (by simpa [Expression.terms] using ⟨hmiles, hhr⟩)
        (by simp [Expression.terms]) (by decide)
    · exact inReach_of_plain (by simpa [Expression.terms] using ⟨hm, hs⟩)
        (by simp [Expression.terms]) (by decide)
    · have hmax : maxReach = 700 := rfl
      have hleft := reach_le_of_plain (e := ⟨[⟨"miles", none⟩], [⟨"hr", none⟩]⟩)
        (by simp [Expression.terms])
      have hright := reach_le_of_plain (e := ⟨[⟨"m", none⟩], [⟨"s", none⟩]⟩)
        (by simp [Expression.terms])
      norm_num [Expression.terms] at hleft hright
      linarith [abs_sub (Expression.logScale standard ⟨[⟨"miles", none⟩], [⟨"hr", none⟩]⟩)
        (Expression.logScale standard ⟨[⟨"m", none⟩], [⟨"s", none⟩]⟩),
        Expression.abs_logScale_le standard ⟨[⟨"miles", none⟩], [⟨"hr", none⟩]⟩,
        Expression.abs_logScale_le standard ⟨[⟨"m", none⟩], [⟨"s", none⟩]⟩]
  · have hzero : (standard.denominatorScale?
        ("m/" ++ "*".intercalate (List.replicate 27 "pg"))).any (· == 0.0) := by decide +kernel
    obtain ⟨x, hx, hzero⟩ := Option.any_eq_true _ _ |>.1 hzero
    exact ⟨_, rfl, (conversionFactor_usable _ _).2.1 x hx hzero⟩

/-- Factors that are none: an infinity, a NaN and a zero. -/
theorem not_conversionFactor_usable :
    ∃ huge tiny, huge = "*".intercalate (List.replicate 26 "Tm") ∧
      tiny = "*".intercalate (List.replicate 27 "pg") ∧
      standard.conversionFactor huge "m**26" = .ok (1.0 / 0.0) ∧
      (∃ f, standard.conversionFactor huge huge = .ok f ∧ f.isNaN) ∧
      standard.conversionFactor tiny "kg**27" = .ok 0.0 := by
  refine ⟨_, _, rfl, rfl, by decide +kernel, ?_, by decide +kernel⟩
  have hnan : (standard.conversionFactor ("*".intercalate (List.replicate 26 "Tm"))
      ("*".intercalate (List.replicate 26 "Tm"))).toOption.any Float.isNaN := by decide +kernel
  simpa only [Option.any_eq_true, toOption_eq_some_iff] using hnan

end Catalog

end DimensionalAnalysis
