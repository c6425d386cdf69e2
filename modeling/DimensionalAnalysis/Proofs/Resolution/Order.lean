import DimensionalAnalysis.Proofs.Catalog.Standard
import DimensionalAnalysis.Proofs.Expression.Text
import DimensionalAnalysis.Proofs.Resolution.Terms
import DimensionalAnalysis.Resolution.Conversion

/-!
# The order of an expression

Read as terms, an expression has an **order** at each dimension: the sum of the orders of its
symbols, each times its exponent, above the line minus below it. The resolver computes with
doubles and never builds terms. As long as everything is an integer and small enough, the
signature it gives is the order exactly (`resolve_order`).

What has to be small is the sum of `(|exponent| + 1)` times the largest entry of the symbol,
since the resolver adds a symbol once and then its power less one.

The bound is on the text and not on the outcome, which may be small because large entries
cancel. On the way each partial sum is an integer within the bound, and so a double, and no
addition rounds (`rational?_get_addTerm`, `rational?_get_resolveTerms`).
-/

namespace DimensionalAnalysis

open Number (rational? IsInteger toInt Representable representable_intCast)

/-! ### Exponents as integers -/

namespace Term

/-- The exponent, one where there is none. -/
def power (t : Term) : ℤ :=
  (t.exponent.map toInt).getD 1

/-- The exponent is an integer. -/
def IsIntegral (t : Term) : Prop :=
  ∀ x ∈ t.exponent, IsInteger x

/-- How often the symbol enters sums at most. -/
def weight (t : Term) : ℤ :=
  |t.power| + 1

/-- A symbol does not enter a negative number of times. -/
theorem weight_nonneg (t : Term) : 0 ≤ t.weight :=
  add_nonneg (abs_nonneg _) zero_le_one

end Term

namespace Expression

/-- All exponents are integers. -/
def IsIntegral (e : Expression) : Prop :=
  ∀ t ∈ e.terms, t.IsIntegral

end Expression

/-! ### Orders -/

namespace Catalog

/-- The order of a symbol alone, at a dimension. -/
def symbolOrder (c : Catalog) (symbol : String) (d : Dimension) : ℤ :=
  match c.resolveTokens [symbol] with
  | .ok r => toInt (r.signature.get d)
  | .error _ => 0

/-- The largest order of a symbol, in magnitude. -/
def largestEntry (c : Catalog) (symbol : String) : ℤ :=
  (Dimension.all.map fun d ↦ |c.symbolOrder symbol d|).foldr max 0

/-- A symbol alone has integers for entries. -/
def IsIntegralSymbol (c : Catalog) (symbol : String) : Prop :=
  ∀ r, c.resolveTokens [symbol] = .ok r → ∀ d, IsInteger (r.signature.get d)

end Catalog

/-- The order of terms at a dimension. -/
def Term.listOrder (c : Catalog) (ts : List Term) (d : Dimension) : ℤ :=
  (ts.map fun t ↦ t.power * c.symbolOrder t.symbol d).sum

/-- The order of an expression at a dimension: that of the terms above the line, minus that of
the terms below it. -/
def Expression.order (c : Catalog) (e : Expression) (d : Dimension) : ℤ :=
  Term.listOrder c e.numerator d - Term.listOrder c e.denominator d

/-- Unity has no order at any dimension. -/
theorem Resolution.rational?_get_unity (d : Dimension) :
    rational? (unity.signature.get d) = some ((0 : ℤ) : ℚ) := by
  rw [unity, Signature.get_empty, Number.rational?_zero, Int.cast_zero]

/-! ### One term -/

section Term

variable {acc unit : Resolution} {t : Term} {d : Dimension} {a o : ℤ}

/-- The power less one of a unit. An exponent of any size does for an entry that is zero. -/
theorem rational?_get_scaled_sub_one {s : Signature} {x : Float} {k : ℤ}
    (hs : rational? (s.get d) = some (o : ℚ)) (hx : rational? x = some (k : ℚ))
    (hlt : (|k| + 1) * |o| < 2 ^ 53) :
    rational? ((s.scaled (x - 1.0)).get d) = some ((o * (k - 1) : ℤ) : ℚ) := by
  -- an exponent that is too large to be exact less one may still meet an entry of zero
  by_cases ho : o = 0
  · obtain ⟨y, hy⟩ := Number.exists_rational?_sub_one hx
    rw [ho, Int.cast_zero] at hs
    have hzero := Signature.rational?_get_scaled hs hy
      (by rw [zero_mul]; exact Number.representable_zero)
    rwa [ho, zero_mul, Int.cast_zero, ← zero_mul y]
  · have hpos : 1 ≤ |o| := Int.one_le_abs ho
    have hk : |k - 1| ≤ |k| + 1 := by
      simpa using abs_sub k 1
    have hexp := Number.rational?_sub_one_int hx (by nlinarith)
    refine Signature.rational?_get_scaled_int hs hexp ?_
    rw [abs_mul]
    nlinarith

/-- A term adds its power times the entry of its symbol. -/
theorem rational?_get_addTerm (ht : t.IsIntegral)
    (ha : rational? (acc.signature.get d) = some (a : ℚ))
    (ho : rational? (unit.signature.get d) = some (o : ℚ))
    (hlt : |a| + t.weight * |o| < 2 ^ 53) :
    rational? ((acc.addTerm unit t).signature.get d) = some ((a + t.power * o : ℤ) : ℚ) := by
  have hsum : |a + o| ≤ |a| + |o| := abs_add_le a o
  rw [Term.weight] at hlt
  rw [Resolution.addTerm]
  cases hx : t.exponent with
  | none =>
    have hpower : t.power = 1 := by rw [Term.power, hx]; rfl
    rw [hpower, abs_one] at hlt
    rw [hpower, one_mul]
    exact Signature.rational?_get_add_int ha ho (by nlinarith [abs_nonneg o])
  | some x =>
    have hpower : rational? x = some (t.power : ℚ) := by
      rw [Term.power, hx]
      exact (ht x hx).rational?_eq
    generalize t.power = k at hlt hpower ⊢
    -- the unit is added once, and then its power less one
    have hscaled := rational?_get_scaled_sub_one ho hpower (by linarith [abs_nonneg a])
    have htimes := Signature.rational?_get_add_int ha ho (by nlinarith [abs_nonneg k, abs_nonneg o])
    have htotal : a + o + o * (k - 1) = a + k * o := by ring
    rw [← htotal]
    refine Signature.rational?_get_add_int htimes hscaled ?_
    rw [htotal]
    calc |a + k * o| ≤ |a| + |k| * |o| := by simpa [abs_mul] using abs_add_le a (k * o)
      _ < 2 ^ 53 := by nlinarith [abs_nonneg o]

end Term

/-! ### Lists of terms -/

/-- Terms add up exactly while the sum of their weighted entries is small. The start value and
the terms still to come share one bound, from which each term takes its part. -/
theorem rational?_get_resolveTerms (order : String → ℤ)
    {single : String → Except Fault Resolution} {ts : List Term} {acc r : Resolution}
    {d : Dimension} {a : ℤ}
    (hts : ∀ t ∈ ts, t.IsIntegral)
    (horder : ∀ t ∈ ts, ∀ unit, single t.symbol = .ok unit →
      rational? (unit.signature.get d) = some (order t.symbol : ℚ))
    (ha : rational? (acc.signature.get d) = some (a : ℚ))
    (hlt : |a| + (ts.map fun t ↦ t.weight * |order t.symbol|).sum < 2 ^ 53)
    (h : resolveTerms single acc ts = .ok r) :
    rational? (r.signature.get d) =
      some ((a + (ts.map fun t ↦ t.power * order t.symbol).sum : ℤ) : ℚ) := by
  induction ts generalizing acc a with
  | nil =>
    obtain rfl : acc = r := by simpa [resolveTerms] using h
    simpa using ha
  | cons t ts ih =>
    rw [resolveTerms, bind_eq_ok_iff] at h
    obtain ⟨unit, hunit, h⟩ := h
    simp only [List.map_cons, List.sum_cons] at hlt ⊢
    have hrest : 0 ≤ (ts.map fun t ↦ t.weight * |order t.symbol|).sum :=
      List.sum_nonneg fun x hx ↦ by
        obtain ⟨u, -, rfl⟩ := List.mem_map.1 hx
        exact mul_nonneg u.weight_nonneg (abs_nonneg _)
    have hstep := rational?_get_addTerm (hts t List.mem_cons_self) ha
      (horder t List.mem_cons_self unit hunit) (by linarith)
    rw [← add_assoc]
    refine ih (fun t ht ↦ hts t (List.mem_cons_of_mem _ ht))
      (fun t ht ↦ horder t (List.mem_cons_of_mem _ ht)) hstep ?_ h
    have habs : |a + t.power * order t.symbol| ≤ |a| + t.weight * |order t.symbol| := by
      have := abs_add_le a (t.power * order t.symbol)
      rw [abs_mul] at this
      rw [Term.weight]
      nlinarith [abs_nonneg (order t.symbol)]
    linarith

/-! ### Symbols -/

namespace Catalog

variable {c : Catalog} {s : String} {e : Expression} {r : Resolution}

/-- A symbol alone is multiplied to unity. -/
theorem resolveTokens_singleton (hs : namesUnit s) :
    c.resolveTokens [s] = c.resolveUnit s >>= fun unit ↦ .ok (Resolution.unity.times unit) := by
  rw [resolveTokens, resolveList_unit hs]
  rfl

/-- What a symbol resolves to has the order of the symbol, if that is an integer. -/
theorem rational?_get_resolveUnit (hs : namesUnit s) (hint : c.IsIntegralSymbol s)
    (h : c.resolveUnit s = .ok r) (d : Dimension) :
    rational? (r.signature.get d) = some (c.symbolOrder s d : ℚ) := by
  have hsingleton : c.resolveTokens [s] = .ok (Resolution.unity.times r) := by
    rw [resolveTokens_singleton hs, h, ok_bind]
  have hvalue := (hint _ hsingleton d).rational?_eq
  rw [symbolOrder, hsingleton, ← Signature.rational?_get_empty_add]
  exact hvalue

/-- No entry of a symbol is larger than its largest one. -/
theorem abs_symbolOrder_le (c : Catalog) (s : String) (d : Dimension) :
    |c.symbolOrder s d| ≤ c.largestEntry s := by
  have hle : ∀ {l : List ℤ} {n : ℤ}, n ∈ l → n ≤ l.foldr max 0 := by
    intro l n hn
    induction l with
    | nil => simp at hn
    | cons m l ih =>
      rcases List.mem_cons.1 hn with rfl | hn
      · exact le_max_left _ _
      · exact (ih hn).trans (le_max_right _ _)
  exact hle (List.mem_map.2 ⟨d, Dimension.mem_all d, rfl⟩)

/-- A bound for all dimensions at once. -/
theorem sum_weight_mul_abs_le (c : Catalog) (ts : List Term) (d : Dimension) :
    (ts.map fun t ↦ t.weight * |c.symbolOrder t.symbol d|).sum ≤
      (ts.map fun t ↦ t.weight * c.largestEntry t.symbol).sum :=
  List.sum_le_sum fun t _ ↦
    mul_le_mul_of_nonneg_left (c.abs_symbolOrder_le t.symbol d) t.weight_nonneg

/-- The order of terms is within the sum that bounds what the resolver adds up. -/
theorem abs_listOrder_le (c : Catalog) (ts : List Term) (d : Dimension) :
    |Term.listOrder c ts d| ≤ (ts.map fun t ↦ t.weight * c.largestEntry t.symbol).sum := by
  refine le_trans ?_ (sum_weight_mul_abs_le c ts d)
  rw [Term.listOrder]
  induction ts with
  | nil => simp
  | cons t ts ih =>
    simp only [List.map_cons, List.sum_cons]
    refine (abs_add_le _ _).trans (add_le_add ?_ ih)
    rw [abs_mul, Term.weight]
    nlinarith [abs_nonneg (c.symbolOrder t.symbol d)]

/-! ### Expressions -/

/-- The signature of an expression that resolves is its order, if that is an integer and
small. -/
theorem rational?_get_resolve (h : c.resolve s = .ok r) (he : Expression.ofString s = .ok e)
    (hint : e.IsIntegral) (hsymbols : ∀ t ∈ e.terms, c.IsIntegralSymbol t.symbol)
    (hlt : (e.terms.map fun t ↦ t.weight * c.largestEntry t.symbol).sum < 2 ^ 52)
    (d : Dimension) : rational? (r.signature.get d) = some (e.order c d : ℚ) := by
  obtain ⟨e', n, m, he', -, hn, hm, hr⟩ := exists_ofString_of_resolveText h
  obtain rfl : e' = e := by simpa [he'] using he
  rw [Expression.terms, List.map_append, List.sum_append] at hlt
  have hside : ∀ {ts : List Term} {acc : Resolution}, (∀ t ∈ ts, t ∈ e'.terms) →
      (ts.map fun t ↦ t.weight * c.largestEntry t.symbol).sum < 2 ^ 52 →
      resolveTerms c.resolveUnit .unity ts = .ok acc →
      rational? (acc.signature.get d) = some (Term.listOrder c ts d : ℚ) := by
    intro ts acc hts hlt hacc
    have hle := sum_weight_mul_abs_le c ts d
    have hsum := rational?_get_resolveTerms (c.symbolOrder · d)
      (fun t ht ↦ hint t (hts t ht))
      (fun t ht unit hunit ↦ rational?_get_resolveUnit
        (Expression.mem_terms_of_ofString he' (hts t ht)).1 (hsymbols t (hts t ht)) hunit d)
      (Resolution.rational?_get_unity d) (by rw [abs_zero, zero_add]; linarith) hacc
    rwa [zero_add] at hsum
  -- each side has the whole bound to itself, since the other one needs no less than nothing
  have hnonneg : ∀ ts : List Term, 0 ≤ (ts.map fun t ↦ t.weight * c.largestEntry t.symbol).sum :=
    fun ts ↦ (abs_nonneg _).trans (abs_listOrder_le c ts d)
  have hnum := hside (fun t ht ↦ List.mem_append_left _ ht)
    (by linarith [hnonneg e'.denominator]) hn
  have hden := hside (fun t ht ↦ List.mem_append_right _ ht)
    (by linarith [hnonneg e'.numerator]) hm
  obtain ⟨-, rfl⟩ := combine_eq_ok_iff.1 hr
  refine Signature.rational?_get_sub_int hnum hden ?_
  have hle := abs_sub (Term.listOrder c e'.numerator d) (Term.listOrder c e'.denominator d)
  have hleft := abs_listOrder_le c e'.numerator d
  have hright := abs_listOrder_le c e'.denominator d
  linarith

/-! ### The standard catalog -/

/-- A symbol alone has small integers for entries, in the standard catalog. -/
theorem exists_entry_of_resolveTokens (hs : namesUnit s)
    (h : standard.resolveTokens [s] = .ok r) (d : Dimension) :
    ∃ n : ℤ, |n| ≤ 3 ∧ rational? (r.signature.get d) = some (n : ℚ) := by
  rw [resolveTokens_singleton hs, bind_eq_ok_iff] at h
  obtain ⟨unit, hunit, h⟩ := h
  obtain rfl := Except.ok.inj h
  obtain ⟨n, hn, hvalue⟩ := exists_entry_of_resolveUnit hunit d
  exact ⟨n, hn, (Signature.rational?_get_empty_add _ d).trans hvalue⟩

/-- All symbols of the standard catalog have integers for entries. -/
theorem isIntegralSymbol_standard (hs : namesUnit s) : standard.IsIntegralSymbol s := by
  intro r h d
  obtain ⟨n, -, hn⟩ := exists_entry_of_resolveTokens hs h d
  exact ⟨n, hn⟩

/-- No entry of a symbol of the standard catalog is larger than three. -/
theorem largestEntry_standard_le (hs : namesUnit s) : standard.largestEntry s ≤ 3 := by
  have hle : ∀ {l : List ℤ}, (∀ n ∈ l, n ≤ 3) → l.foldr max 0 ≤ 3 := by
    intro l hl
    induction l with
    | nil => simp
    | cons n l ih =>
      exact max_le (hl n List.mem_cons_self) (ih fun n hn ↦ hl n (List.mem_cons_of_mem _ hn))
  refine hle fun n hn ↦ ?_
  obtain ⟨d, -, rfl⟩ := List.mem_map.1 hn
  rw [symbolOrder]
  split
  · rename_i r hr
    obtain ⟨n, hn, hvalue⟩ := exists_entry_of_resolveTokens hs hr d
    rwa [Number.toInt_of_rational? hvalue]
  · simp

/-! ### The main result -/

/-- As an exponent, a whole number counts as often as it says, unless nothing is counted. -/
theorem toInt_mul_symbolOrder {u : String} {n : ℕ} (hlt : 2 * n * c.largestEntry u < 2 ^ 52)
    (hn : 0 < n) :
    (|toInt (Decimal.toFloat ⟨false, n, 0⟩)| + 1) * c.largestEntry u ≤ 2 * n * c.largestEntry u ∧
      ∀ d, toInt (Decimal.toFloat ⟨false, n, 0⟩) * c.symbolOrder u d = n * c.symbolOrder u d := by
  have hnonneg : 0 ≤ c.largestEntry u :=
    (abs_nonneg _).trans (c.abs_symbolOrder_le u .length)
  have hn' : (1 : ℤ) ≤ n := by exact_mod_cast hn
  rcases hnonneg.eq_or_lt with hzero | hpos
  · refine ⟨by rw [← hzero, mul_zero, mul_zero], fun d ↦ ?_⟩
    have hd := c.abs_symbolOrder_le u d
    rw [← hzero, abs_nonpos_iff] at hd
    rw [hd, mul_zero, mul_zero]
  · have hsmall : n < 2 ^ 53 := by
      have : (n : ℤ) < 2 ^ 53 := by nlinarith
      exact_mod_cast this
    have hvalue : toInt (Decimal.toFloat ⟨false, n, 0⟩) = n :=
      Number.toInt_of_rational? (by simpa using (Decimal.rational?_toFloat_whole hsmall).1)
    refine ⟨?_, fun d ↦ by rw [hvalue]⟩
    rw [hvalue, Nat.abs_cast]
    nlinarith

/-- One term written several times resolves to its order, that often. -/
theorem exists_resolve_replicate {t : Term} {unit : Resolution} {n : ℕ}
    (he : Expression.ofString s = .ok ⟨List.replicate n t, []⟩)
    (hunit : c.resolveUnit t.symbol = .ok unit) (ht : t.IsIntegral)
    (hsymbol : c.IsIntegralSymbol t.symbol)
    (hlt : n * (t.weight * c.largestEntry t.symbol) < 2 ^ 52) :
    ∃ r, c.resolve s = .ok r ∧ ∀ d,
      rational? (r.signature.get d) =
        some ((n * (t.power * c.symbolOrder t.symbol d) : ℤ) : ℚ) := by
  have hterm : ∀ u ∈ (⟨List.replicate n t, []⟩ : Expression).terms, u = t := by
    intro u hu
    exact List.eq_of_mem_replicate (by simpa [Expression.terms] using hu)
  obtain ⟨r, hr⟩ := exists_resolveText_ok c.resolveUnit he
    (fun u hu ↦ ⟨unit, by rw [List.eq_of_mem_replicate hu, hunit]⟩)
  refine ⟨r, hr, fun d ↦ ?_⟩
  have hvalue := rational?_get_resolve hr he (fun u hu ↦ hterm u hu ▸ ht)
    (fun u hu ↦ hterm u hu ▸ hsymbol) (by simpa [Expression.terms] using hlt) d
  rw [hvalue]
  simp [Expression.order, Term.listOrder]

/-- A unit to a power and the unit written that often have the same order. -/
theorem order_power {u : String} {n : ℕ} (hn : 0 < n)
    (hu : Expression.ofString u = .ok ⟨[⟨u, none⟩], []⟩)
    (ho : ∃ o, c.resolveTokens [u] = .ok o) (hint : c.IsIntegralSymbol u)
    (hexp : ∀ x, exponent? (toString n) = some x → IsInteger x)
    (hlt : 2 * n * c.largestEntry u < 2 ^ 52) :
    ∃ r t, c.resolve (u ++ "**" ++ toString n) = .ok r ∧
      c.resolve ("*".intercalate (List.replicate n u)) = .ok t ∧
      ∀ d, rational? (r.signature.get d) = some ((n * c.symbolOrder u d : ℤ) : ℚ) ∧
        rational? (t.signature.get d) = some ((n * c.symbolOrder u d : ℤ) : ℚ) := by
  have hsymbol : IsSymbol u :=
    Expression.isReadable_of_ofString hu ⟨u, none⟩ List.mem_cons_self
  obtain ⟨unit, hunit⟩ : ∃ unit, c.resolveUnit u = .ok unit := by
    obtain ⟨o, ho⟩ := ho
    rw [resolveTokens_singleton hsymbol.namesUnit, bind_eq_ok_iff] at ho
    obtain ⟨unit, hunit, -⟩ := ho
    exact ⟨unit, hunit⟩
  obtain ⟨hweight, horder⟩ := toInt_mul_symbolOrder hlt hn
  have hxint := hexp _ (Number.exponent?_toString n)
  -- the power is one term with an exponent, the product many terms without
  have hpower := Expression.ofString_power_nat hsymbol n
  generalize Decimal.toFloat ⟨false, n, 0⟩ = x at hweight horder hxint hpower
  obtain ⟨r, hr, hrvalue⟩ := exists_resolve_replicate (n := 1) (t := ⟨u, some x⟩) hpower hunit
    (by simpa [Term.IsIntegral] using hxint) hint
    (by simpa [Term.weight, Term.power] using hweight.trans_lt hlt)
  obtain ⟨t, ht, htvalue⟩ := exists_resolve_replicate (Expression.ofString_replicate hsymbol n)
    hunit (by simp [Term.IsIntegral]) hint (by
      simp only [Term.weight, Term.power, Option.map_none, Option.getD_none, abs_one]
      linarith)
  refine ⟨r, t, hr, ht, fun d ↦ ⟨?_, ?_⟩⟩
  · rw [hrvalue, ← horder d, Nat.cast_one, one_mul]
    rfl
  · rw [htvalue]
    simp [Term.power]

/-- **Resolving is exact on integers.** An expression that resolves reads as terms whose symbols
resolve alone. If exponents and entries are integers, and the weighted sum of entries is below
`2 ^ 52`, its signature is its order. In particular a unit to the power `n` and the unit written
`n` times have the same order, which is `n` times that of the unit. -/
theorem resolve_order (c : Catalog) :
    (∀ s r, c.resolve s = .ok r → ∃ e, Expression.ofString s = .ok e ∧
      (∀ t ∈ e.terms, ∃ o, c.resolveTokens [t.symbol] = .ok o) ∧
      (e.IsIntegral → (∀ t ∈ e.terms, c.IsIntegralSymbol t.symbol) →
        (e.terms.map fun t ↦ t.weight * c.largestEntry t.symbol).sum < 2 ^ 52 →
        ∀ d, rational? (r.signature.get d) = some (e.order c d : ℚ))) ∧
    (∀ (u : String) (n : ℕ), 0 < n → Expression.ofString u = .ok ⟨[⟨u, none⟩], []⟩ →
      (∃ o, c.resolveTokens [u] = .ok o) → c.IsIntegralSymbol u →
      (∀ x, exponent? (toString n) = some x → IsInteger x) →
      2 * n * c.largestEntry u < 2 ^ 52 →
      ∃ r t, c.resolve (u ++ "**" ++ toString n) = .ok r ∧
        c.resolve ("*".intercalate (List.replicate n u)) = .ok t ∧
        ∀ d, rational? (r.signature.get d) = some ((n * c.symbolOrder u d : ℤ) : ℚ) ∧
          rational? (t.signature.get d) = some ((n * c.symbolOrder u d : ℤ) : ℚ)) := by
  refine ⟨fun s r h ↦ ?_, fun u n hn hu ho hint hexp hlt ↦ order_power hn hu ho hint hexp hlt⟩
  obtain ⟨e, n, d, he, hunits, -⟩ := exists_ofString_of_resolveText h
  refine ⟨e, he, fun t ht ↦ ?_, rational?_get_resolve h he⟩
  obtain ⟨unit, hunit⟩ := hunits t ht
  have hsymbol := (Expression.mem_terms_of_ofString he ht).1
  exact ⟨_, by rw [resolveTokens_singleton hsymbol, hunit, ok_bind]⟩

/-- Both readings in the standard catalog: an expression with a compound, an exponent and a
denominator, and a compound to a power. -/
theorem resolve_order_joule_and_newton :
    (∃ r e, standard.resolve "J*m**2/s" = .ok r ∧ Expression.ofString "J*m**2/s" = .ok e ∧
      ∀ d, rational? (r.signature.get d) = some (e.order standard d : ℚ)) ∧
    ∃ r t, standard.resolve ("N" ++ "**" ++ toString 3) = .ok r ∧
      standard.resolve ("*".intercalate (List.replicate 3 "N")) = .ok t ∧
      ∀ d, rational? (r.signature.get d) = some (((3 : ℕ) * standard.symbolOrder "N" d : ℤ) : ℚ) ∧
        rational? (t.signature.get d) = some (((3 : ℕ) * standard.symbolOrder "N" d : ℤ) : ℚ) := by
  have hwhole : ∀ n < 4, rational? (Decimal.toFloat ⟨false, n, 0⟩) = some ((n : ℤ) : ℚ) :=
    fun n hn ↦ by simpa using (Decimal.rational?_toFloat_whole (show n < 2 ^ 53 by omega)).1
  constructor
  · obtain ⟨r, hr⟩ : ∃ r, standard.resolve "J*m**2/s" = .ok r :=
      exists_ok_of_isOk (by decide +kernel)
    obtain ⟨e, he, -, horder⟩ := (resolve_order standard).1 _ r hr
    have hterms : Expression.ofString "J*m**2/s" =
        .ok ⟨[⟨"J", none⟩, ⟨"m", some (Decimal.toFloat ⟨false, 2, 0⟩)⟩], [⟨"s", none⟩]⟩ := by
      decide +kernel
    obtain rfl := Except.ok.inj (hterms.symm.trans he)
    refine ⟨r, _, hr, he, horder ?_ ?_ ?_⟩
    · simp only [Expression.IsIntegral, Expression.terms, List.cons_append, List.nil_append,
        List.forall_mem_cons]
      simpa [Term.IsIntegral] using ⟨2, hwhole 2 (by norm_num)⟩
    · exact fun t ht ↦ isIntegralSymbol_standard (Expression.mem_terms_of_ofString he ht).1
    · have hJ := largestEntry_standard_le (s := "J") (by decide)
      have hm := largestEntry_standard_le (s := "m") (by decide)
      have hs := largestEntry_standard_le (s := "s") (by decide)
      simp [Expression.terms, Term.weight, Term.power,
        Number.toInt_of_rational? (hwhole 2 (by norm_num))]
      linarith
  · refine (resolve_order standard).2 "N" 3 (by norm_num) (by decide +kernel)
      (exists_ok_of_isOk (by decide +kernel)) (isIntegralSymbol_standard (by decide)) ?_ ?_
    · intro x hx
      rw [Number.exponent?_toString, Option.some.injEq] at hx
      exact ⟨3, hx ▸ hwhole 3 (by norm_num)⟩
    · have hN := largestEntry_standard_le (s := "N") (by decide)
      rw [Nat.cast_ofNat]
      linarith

end Catalog

end DimensionalAnalysis
