import DimensionalAnalysis.Proofs.Catalog.Offences
import DimensionalAnalysis.Proofs.Quantity.Rereading
import DimensionalAnalysis.Proofs.Resolution.Equivalence
import DimensionalAnalysis.Proofs.Resolution.Scale

/-!
# Coherent units

Units are coherent when no factor other than one comes in where they are multiplied, divided and
raised to powers. A scale of one stays one in all of these, whatever the exponents are, also those
that are infinite, because every power of one is one. So expressions of coherent symbols are of
scale one (`scale_of_resolveText`), and cannot fail by a scale of zero.

A compound symbol is coherent if its own factor is one and its definition is an expression of
coherent symbols. That a list of symbols is closed in this way can be read off the tables of a
catalog (`Catalog.isCoherentSystem`), without resolving anything. The unprefixed symbols of SI units
are such a list in the standard catalog.
-/

namespace DimensionalAnalysis

/-! ### Scales of one -/

section Text

variable {single : String → Except Fault Resolution} {s : String} {e : Expression}
  {acc r : Resolution} {f : Fault}

/-- Terms of scale one leave the scale as it is. -/
theorem scale_of_resolveTerms {ts : List Term}
    (hone : ∀ t ∈ ts, ∀ unit, single t.symbol = .ok unit → unit.scale = 1.0)
    (h : resolveTerms single acc ts = .ok r) : r.scale = acc.scale := by
  induction ts generalizing acc with
  | nil => exact congrArg Resolution.scale (Except.ok.inj h).symm
  | cons t ts ih =>
    obtain ⟨unit, hunit, h⟩ := bind_eq_ok_iff.1 h
    have hscale := hone t List.mem_cons_self unit hunit
    rw [ih (fun t ht ↦ hone t (List.mem_cons_of_mem _ ht)) h,
      scale_addTerm_of_isCoherent hscale]

/-- One divided by one is one. -/
theorem one_div_one : (1.0 : Float) / 1.0 = 1.0 :=
  Number.div_self_eq_one Number.rational?_one one_ne_zero

/-- An expression of symbols of scale one is of scale one. Its exponents do not matter, and no
accuracy is asked of the powers: a power is taken of nothing but one. -/
theorem scale_of_resolveText (he : Expression.ofString s = .ok e)
    (hone : ∀ t ∈ e.terms, ∀ unit, single t.symbol = .ok unit → unit.scale = 1.0)
    (h : resolveText single s = .ok r) : r.scale = 1.0 := by
  obtain ⟨n, d, hn, hd, hr⟩ := (resolveText_eq_ok_iff_of_ofString he).1 h
  have hnscale := scale_of_resolveTerms (fun t ht ↦ hone t (List.mem_append_left _ ht)) hn
  have hdscale := scale_of_resolveTerms (fun t ht ↦ hone t (List.mem_append_right _ ht)) hd
  rw [(combine_eq_ok_iff.1 hr).2, hnscale, hdscale]
  exact one_div_one

/-- It does resolve, since one is not zero: the only fault that is left once the symbols have
resolved is a scale of zero below the line. -/
theorem Catalog.exists_resolve_of_isCoherent {c : Catalog} (he : Expression.ofString s = .ok e)
    (hcoherent : ∀ t ∈ e.terms, c.isCoherent t.symbol) :
    ∃ r, c.resolve s = .ok r ∧ r.scale = 1.0 := by
  have hone : ∀ t ∈ e.terms, ∀ unit, c.resolveUnit t.symbol = .ok unit → unit.scale = 1.0 :=
    fun t ht _ hunit ↦ (isCoherent_iff hunit).1 (hcoherent t ht)
  have hunit : ∀ t ∈ e.terms, ∃ unit, c.resolveUnit t.symbol = .ok unit :=
    fun t ht ↦ exists_resolveUnit_of_isCoherent (hcoherent t ht)
  obtain ⟨n, hn⟩ := exists_resolveTerms_ok .unity fun t ht ↦ hunit t (List.mem_append_left _ ht)
  obtain ⟨d, hd⟩ := exists_resolveTerms_ok .unity fun t ht ↦ hunit t (List.mem_append_right _ ht)
  have hdscale := scale_of_resolveTerms (fun t ht ↦ hone t (List.mem_append_right _ ht)) hd
  have hne : (d.scale == 0.0) = false := by
    rw [hdscale]
    decide
  have hr := (resolveText_eq_ok_iff_of_ofString he).2
    ⟨n, d, hn, hd, combine_eq_ok_iff.2 ⟨hne, rfl⟩⟩
  exact ⟨_, hr, scale_of_resolveText he hone hr⟩

/-- It fails by a stray number or not at all. A stray number is an exponent without a unit in
front of it, and comes before anything that has to do with scales. -/
theorem strayNumber_of_resolveText_error
    (hone : ∀ token ∈ (Split.ofString s).allTokens, namesUnit token →
      ∃ unit, single token = .ok unit ∧ unit.scale = 1.0)
    (h : resolveText single s = .error f) : ∃ token, f = .strayNumber token := by
  have hlist : ∀ tokens ⊆ (Split.ofString s).allTokens,
      resolveList single none .unity tokens = .error f → ∃ token, f = .strayNumber token := by
    intro tokens hsub h
    rcases fault_of_resolveList_error h with hstray | ⟨token, hmem, hf⟩
    · exact hstray
    · simp only [reduceCtorEq, false_or] at hmem
      obtain ⟨unit, hunit, -⟩ := hone token (hsub hmem.1) hmem.2
      simp [hunit] at hf
  simp only [resolveText, bind_eq_error_iff, mapError_eq_error_iff] at h
  rcases h with h | ⟨n, -, h | ⟨d, hd, f', h, -⟩⟩
  · exact hlist _ (List.subset_append_left _ _) h
  · exact hlist _ (List.subset_append_right _ _) h
  · -- the scale below the line would be zero, and it is one
    obtain ⟨ts, hts⟩ := exists_ofTokens_of_resolveList hd
    rw [resolveList_eq_resolveTerms hts] at hd
    have hscale : d.scale = 1.0 := by
      refine scale_of_resolveTerms (fun t ht unit hunit ↦ ?_) hd
      obtain ⟨⟨hmem, hnames⟩, -⟩ := Term.mem_of_ofTokens hts ht
      obtain ⟨unit', hunit', hone⟩ := hone t.symbol (List.mem_append_right _ hmem) hnames
      obtain rfl := Except.ok.inj (hunit'.symm.trans hunit)
      exact hone
    -- this is where a scale of zero would have to come from
    have hzero := (combine_eq_error_iff.1 h).1
    rw [hscale] at hzero
    exact absurd hzero (by decide)

end Text

/-! ### Coherent systems -/

namespace Catalog

variable {c : Catalog} {symbols : List String} {s t : String} {r : Resolution}

/-- Every symbol is of factor one, and those that are compound are defined by symbols of the
same list.

This looks at the rows of the tables only. No definition is opened, and so it is quick to decide
for a whole list. -/
def isCoherentSystem (c : Catalog) (symbols : List String) : Bool :=
  symbols.all fun symbol ↦ match c.compoundUnit? symbol with
    | some (u, k) => u.scale * k = 1.0 &&
        (Split.ofString u.definition).allTokens.all fun token ↦ !namesUnit token || token ∈ symbols
    | none => (c.baseUnit? symbol).all fun (u, k) ↦ u.scale * k = 1.0

/-- The factor of a base unit in the list. -/
theorem mul_eq_one_of_baseUnit? {u : BaseUnit} {k : Float} (hc : c.isCoherentSystem symbols)
    (hs : s ∈ symbols) (hcompound : c.compoundUnit? s = none)
    (hu : c.baseUnit? s = some (u, k)) : u.scale * k = 1.0 := by
  simpa [hcompound, hu] using List.all_eq_true.1 hc s hs

/-- The factor of a compound unit in the list, and the symbols that define it. -/
theorem mul_eq_one_of_compoundUnit? {u : CompoundUnit} {k : Float}
    (hc : c.isCoherentSystem symbols) (hs : s ∈ symbols)
    (hu : c.compoundUnit? s = some (u, k)) :
    u.scale * k = 1.0 ∧
      ∀ token ∈ (Split.ofString u.definition).allTokens, namesUnit token → token ∈ symbols := by
  have hrow := List.all_eq_true.1 hc s hs
  simp only [hu, Bool.and_eq_true, decide_eq_true_eq, List.all_eq_true, Bool.or_eq_true,
    Bool.not_eq_true'] at hrow
  exact ⟨hrow.1, fun token htoken hnames ↦
    (hrow.2 token htoken).resolve_left (by simp [hnames])⟩

/-- **The symbols of a coherent system are of scale one**, as far as they resolve. A compound
symbol opens its definition, whose symbols are in the list again, with less room for further
definitions. -/
theorem scale_of_resolveToken (hc : c.isCoherentSystem symbols) {room : ℕ} {opened : List String}
    (hs : s ∈ symbols) (h : c.resolveToken room opened s = .ok r) : r.scale = 1.0 := by
  have hbase : ∀ {s r}, s ∈ symbols → c.compoundUnit? s = none → c.resolveBase s = .ok r →
      r.scale = 1.0 := by
    intro s r hs hcompound h
    rw [resolveBase] at h
    split at h
    · rename_i u k hu
      obtain rfl := Except.ok.inj h
      exact mul_eq_one_of_baseUnit? hc hs hcompound hu
    · simp at h
  -- on the room that is left for definitions: it decreases with each definition that is opened
  induction room generalizing opened s r with
  | zero =>
    cases hu : c.compoundUnit? s with
    | none => exact hbase hs hu (resolveToken_base hu ▸ h)
    | some u => simp [resolveToken_noRoom hu] at h
  | succ room ih =>
    cases hu : c.compoundUnit? s with
    | none => exact hbase hs hu (resolveToken_base hu ▸ h)
    | some uk =>
      obtain ⟨u, k⟩ := uk
      by_cases hopen : u.symbol ∈ opened
      · simp [resolveToken_open hu hopen] at h
      · rw [resolveToken_compound hu hopen, bind_eq_ok_iff] at h
        obtain ⟨t, ht, h⟩ := h
        obtain rfl := Except.ok.inj h
        obtain ⟨hone, htokens⟩ := mul_eq_one_of_compoundUnit? hc hs hu
        obtain ⟨e, _, _, he, -⟩ := exists_ofString_of_resolveText ht
        have hscale : t.scale = 1.0 := by
          refine scale_of_resolveText he (fun term hterm unit hunit ↦ ih ?_ hunit) ht
          obtain ⟨hnames, hmem, -⟩ := Expression.mem_terms_of_ofString he hterm
          exact htokens term.symbol hmem hnames
        rw [hone, Number.mul_one_eq_self, hscale]

/-! ### The standard catalog -/

/-- The unprefixed symbols of SI units. -/
def coherentSymbols : List String :=
  ["m", "s", "kg", "C", "K", "mol", "A", "J", "N", "W", "Pa", "V", "Hz"]

/-- They are a coherent system of the standard catalog. -/
theorem isCoherentSystem_standard : standard.isCoherentSystem coherentSymbols := by
  decide +kernel

/-- Each of them resolves, to scale one. -/
theorem exists_resolveUnit_of_mem_coherentSymbols (hs : s ∈ coherentSymbols) :
    ∃ r, standard.resolveUnit s = .ok r ∧ r.scale = 1.0 := by
  have hnames : ∀ s ∈ coherentSymbols, standard.names s := by decide +kernel
  obtain ⟨r, hr⟩ := isSound_standard.exists_resolveUnit (hnames s hs)
  exact ⟨r, hr, scale_of_resolveToken isCoherentSystem_standard hs hr⟩

/-- Each of them is a coherent symbol. -/
theorem isCoherent_of_mem_coherentSymbols (hs : s ∈ coherentSymbols) : standard.isCoherent s := by
  obtain ⟨r, hr, hone⟩ := exists_resolveUnit_of_mem_coherentSymbols hs
  exact (isCoherent_iff hr).2 hone

end Catalog

namespace Expression

variable {s : String} {e : Expression}

/-- The tokens of the text that stand for units are unprefixed symbols of SI units. -/
def IsCoherentText (s : String) : Prop :=
  ∀ token ∈ (Split.ofString s).allTokens, namesUnit token → token ∈ Catalog.coherentSymbols

/-- A text is read token by token. -/
instance : DecidablePred IsCoherentText := fun s ↦
  inferInstanceAs (Decidable (∀ token ∈ (Split.ofString s).allTokens, _))

/-- Blanks around the text do not matter. -/
theorem IsCoherentText.trimmed (h : IsCoherentText s) : IsCoherentText (Text.trimmed s) := by
  rwa [IsCoherentText, Split.ofString_trimmed]

/-- The terms of such a text are of coherent symbols. -/
theorem IsCoherentText.isCoherent (h : IsCoherentText s) (he : ofString s = .ok e) :
    ∀ t ∈ e.terms, Catalog.standard.isCoherent t.symbol := by
  intro t ht
  obtain ⟨hnames, hmem, -⟩ := mem_terms_of_ofString he ht
  exact Catalog.isCoherent_of_mem_coherentSymbols (h t.symbol hmem hnames)

/-- Inverting an expression does not bring in symbols, nor does it lose any. -/
theorem isCoherent_of_inverted (h : ∀ t ∈ e.inverted.terms, Catalog.standard.isCoherent t.symbol) :
    ∀ t ∈ e.terms, Catalog.standard.isCoherent t.symbol := by
  intro t ht
  rcases terms_inverted_cases e with heq | hperm
  · exact symbol_reciprocal t ▸ h _ (heq ▸ List.mem_map_of_mem ht)
  · exact h t (hperm.mem_iff.2 ht)

end Expression

/-- It resolves to scale one, if no exponent stands where there is no unit before it. -/
theorem Catalog.resolve_of_isCoherentText {s : String} (h : Expression.IsCoherentText s) :
    (∃ token, standard.resolve s = .error (.strayNumber token)) ∨
      ∃ r, standard.resolve s = .ok r ∧ r.scale = 1.0 := by
  have hone : ∀ token ∈ (Split.ofString s).allTokens, namesUnit token →
      ∃ unit, standard.resolveUnit token = .ok unit ∧ unit.scale = 1.0 :=
    fun token htoken hnames ↦ exists_resolveUnit_of_mem_coherentSymbols (h token htoken hnames)
  cases hr : standard.resolve s with
  | error f =>
    obtain ⟨token, rfl⟩ := strayNumber_of_resolveText_error hone hr
    exact .inl ⟨token, rfl⟩
  | ok r =>
    obtain ⟨e, _, _, he, -⟩ := exists_ofString_of_resolveText hr
    have hscale := scale_of_resolveText he
      (fun t ht unit hunit ↦ (isCoherent_iff hunit).1 (h.isCoherent he t ht)) hr
    exact .inr ⟨r, rfl, hscale⟩

/-! ### Measures in coherent units -/

namespace Measure

open Catalog (standard)

variable {m n p : Measure} {s : String}

/-- The scale is one if the text is an expression of symbols of scale one. -/
def IsCoherent (m : Measure) : Prop :=
  ∀ e, Expression.ofString m.text = .ok e → (∀ t ∈ e.terms, standard.isCoherent t.symbol) →
    m.scale = 1.0

/-- The measure of an expression is coherent. -/
theorem isCoherent_of_ofString (h : ofString s = .ok m) : m.IsCoherent := by
  intro e he hterms
  obtain ⟨hr, rfl⟩ := ofString_eq_ok_iff.1 h
  refine scale_of_resolveText he (fun t ht unit hunit ↦ ?_) hr
  exact (Catalog.isCoherent_iff hunit).1 (hterms t ht)

/-- Measures that are composed of measures of scale one are of scale one.

The text of a product may be read with fewer terms than its factors have, since exponents are
joined. That no symbol is lost where one of them is not coherent is what
`Expression.eq_of_ofString_reread` is for. -/
theorem IsCoherent.product (hm : m.IsCoherent) (hn : n.IsCoherent) (hp : m.product n = .ok p) :
    p.IsCoherent := by
  intro g hg hterms
  obtain ⟨e, f, he, hf, hread⟩ := ofString_of_product hp
  obtain ⟨_, _, _, _, rfl⟩ := product_eq_ok_iff.1 hp
  obtain ⟨rfl, -⟩ := Expression.eq_of_ofString_reread hread hg
    fun t ht ↦ Catalog.exists_resolveUnit_of_isCoherent (hterms t ht)
  have hmone := hm e he fun t ht ↦ hterms t (Expression.mem_terms_product.2 (.inl ht))
  have hnone := hn f hf fun t ht ↦ hterms t (Expression.mem_terms_product.2 (.inr ht))
  change m.scale * n.scale = 1.0
  rw [hmone, hnone, Number.mul_one_eq_self]

/-- Dividing one by one gives one. -/
theorem IsCoherent.quotient (hm : m.IsCoherent) (hn : n.IsCoherent) (hp : m.quotient n = .ok p) :
    p.IsCoherent := by
  intro g hg hterms
  obtain ⟨e, f, he, hf, hread⟩ := ofString_of_quotient hp
  obtain ⟨_, _, r, _, _, hr, rfl⟩ := quotient_eq_ok_iff.1 hp
  obtain ⟨-, rfl⟩ := combine_eq_ok_iff.1 hr
  obtain ⟨rfl, -⟩ := Expression.eq_of_ofString_reread hread hg
    fun t ht ↦ Catalog.exists_resolveUnit_of_isCoherent (hterms t ht)
  have hmone := hm e he fun t ht ↦ hterms t (Expression.mem_terms_quotient.2 (.inl ht))
  have hnone := hn f hf fun t ht ↦ hterms t (Expression.mem_terms_quotient.2 (.inr ht))
  change m.scale / n.scale = 1.0
  rw [hmone, hnone, one_div_one]

/-- So does inverting it. -/
theorem IsCoherent.inverted (hm : m.IsCoherent) (hn : m.inverted = .ok n) : n.IsCoherent := by
  intro g hg hterms
  obtain ⟨e, he, hread⟩ := ofString_of_inverted hn
  obtain ⟨_, r, _, hr, rfl⟩ := inverted_eq_ok_iff.1 hn
  obtain ⟨-, rfl⟩ := combine_eq_ok_iff.1 hr
  obtain ⟨rfl, -⟩ := Expression.eq_of_ofString_reread hread hg
    fun t ht ↦ Catalog.exists_resolveUnit_of_isCoherent (hterms t ht)
  have hone := hm e he (Expression.isCoherent_of_inverted hterms)
  change 1.0 / m.scale = 1.0
  rw [hone, one_div_one]

/-- **Coherence is kept in every run**, also for exponents that no bound on powers covers. -/
theorem isCoherent_of_mem_run {cs : List Command} {q : Quantity} (hq : q ∈ Command.run cs)
    (hm : q.measure = some m) : m.IsCoherent := by
  refine Command.forall_measure_run (fun c _ m h ↦ ?_) q hq m hm
  cases h with
  | kept hm => exact hm
  | supplied _ hm => exact isCoherent_of_ofString hm
  | reread _ hm => exact isCoherent_of_ofString hm
  | product hm hn hp => exact hm.product hn hp
  | quotient hm hn hp => exact hm.quotient hn hp
  | inverted hm hn => exact hm.inverted hn

end Measure

/-! ### Quantities in coherent units -/

namespace Quantity

open Catalog (standard)
open Expression (IsCoherentText)

variable {q : Quantity} {s t : String}

/-- Without a unit, or with one of scale one, the value is the SI value. -/
theorem siValue_of_scale (h : ∀ m ∈ q.measure, m.scale = 1.0) : q.siValue = q.value := by
  rw [siValue, scale?]
  cases hm : q.measure with
  | none => exact Number.mul_one_eq_self q.value
  | some m =>
    show q.value * m.scale = q.value
    rw [h m hm, Number.mul_one_eq_self]

/-- In a run the text of a unit need not be the expression that it was set from, and its scale
need not be the one that the text resolves to. For coherent units it is, all the same. -/
theorem siValue_of_mem_run (hs : IsCoherentText s) {cs : List Command} (hq : q ∈ Command.run cs)
    (hunit : q.unit? = some s) : q.siValue = q.value := by
  refine siValue_of_scale fun m hm ↦ ?_
  obtain ⟨n, hn, rfl⟩ := Option.map_eq_some_iff.1 hunit
  obtain rfl := Option.some.inj (hn.symm.trans hm)
  obtain ⟨e, he, -⟩ := isUnitOrWord_of_mem_run hq hm
  exact Measure.isCoherent_of_mem_run hq hm e he (hs.isCoherent he)

/-- A quantity that is made with a coherent unit has the value that it was made with. -/
theorem siValue_of_withUnit (hs : IsCoherentText s) {v : Float} (h : withUnit v s = .ok q) :
    q.value = v ∧ q.siValue = v := by
  have hvalue : q.value = v := value_of_setUnit h
  refine ⟨hvalue, hvalue ▸ siValue_of_scale fun m hm ↦ ?_⟩
  obtain ⟨hm, -⟩ := Measure.ofString_eq_ok_iff.1 (ofString_of_setUnit h hm)
  rcases Catalog.resolve_of_isCoherentText hs.trimmed with ⟨token, hr⟩ | ⟨r, hr, hone⟩
  · simp [hr] at hm
  · rw [Measure.scale, ← Except.ok.inj (hr.symm.trans hm), hone]

/-- **The standard catalog is coherent.** An expression of unprefixed symbols of SI units and any
exponents resolves to scale one, if it has no stray exponent. Two such expressions convert by the
factor one where they have one signature, and values in such units are those in SI units, for every
number and in every run. -/
theorem scale_of_isCoherentText (hs : IsCoherentText s) (ht : IsCoherentText t) :
    ((∃ token, standard.resolve s = .error (.strayNumber token)) ∨
      ∃ r, standard.resolve s = .ok r ∧ r.scale = 1.0) ∧
    (standard.sameDimension s t = .ok true → standard.conversionFactor s t = .ok 1.0) ∧
    (∀ v q, withUnit v s = .ok q → q.value = v ∧ q.siValue = v) ∧
    ∀ cs, ∀ q ∈ Command.run cs, q.unit? = some s → q.siValue = q.value := by
  have hs' := Catalog.resolve_of_isCoherentText hs
  refine ⟨hs', fun hsame ↦ ?_, fun v q ↦ siValue_of_withUnit hs, fun cs q ↦ siValue_of_mem_run hs⟩
  rcases hs' with ⟨token, hr⟩ | ⟨r, hr, hrone⟩
  · simp [Catalog.sameDimension, hr] at hsame
  rcases Catalog.resolve_of_isCoherentText ht with ⟨token, hu⟩ | ⟨u, hu, huone⟩
  · simp [Catalog.sameDimension, hr, hu] at hsame
  rw [Catalog.sameDimension_eq standard hr hu, Except.ok.injEq] at hsame
  rw [Catalog.conversionFactor_eq standard hr hu, if_pos hsame, hrone, huone, one_div_one]

/-- A pressure times a volume, as an energy. -/
theorem scale_of_isCoherentText_energy :
    IsCoherentText "Pa*m**3" ∧ IsCoherentText "J" ∧
      (∃ r, standard.resolve "Pa*m**3" = .ok r ∧ r.scale = 1.0) ∧
      standard.conversionFactor "Pa*m**3" "J" = .ok 1.0 ∧
      (∃ q, withUnit 2.5 "Pa*m**3" = .ok q ∧ q.siValue = 2.5) ∧
      ∃ cs, ∃ q ∈ Command.run cs, q.unit? = some "Pa*m**3" ∧ q.siValue = q.value := by
  have hproduct : IsCoherentText "Pa*m**3" := by decide +kernel
  have henergy : IsCoherentText "J" := by decide +kernel
  have hresolves : (standard.resolve "Pa*m**3").isOk := by decide +kernel
  have hsame : standard.sameDimension "Pa*m**3" "J" = .ok true := by decide +kernel
  obtain ⟨q, hq⟩ := exists_ok_of_isOk (x := withUnit 2.5 "Pa*m**3") (by decide +kernel)
  obtain ⟨cs, hcs⟩ : ∃ cs : List Command,
    cs = [.withUnit 2.5 "m**3", .withUnit 2.0 "Pa", .apply .multiply 1 0] := ⟨_, rfl⟩
  have hrun : (Command.run cs)[2]?.any (·.unit? = some "Pa*m**3") := by
    rw [hcs]
    decide +kernel
  obtain ⟨p, hp, hunit⟩ := Option.any_eq_true .. |>.1 hrun
  have hp := List.mem_of_getElem? hp
  have hunit := of_decide_eq_true hunit
  obtain ⟨⟨token, herror⟩ | hscale, hfactor, hset, hall⟩ := scale_of_isCoherentText hproduct henergy
  · rw [herror] at hresolves
    exact absurd hresolves Bool.false_ne_true
  · exact ⟨hproduct, henergy, hscale, hfactor hsame, ⟨q, hq, (hset 2.5 q hq).2⟩, cs, p, hp, hunit,
      hall cs p hp hunit⟩

end Quantity

end DimensionalAnalysis
