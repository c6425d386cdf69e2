import DimensionalAnalysis.Proofs.Quantity.Assignment
import DimensionalAnalysis.Proofs.Quantity.Faults

/-!
# Unit texts that resolve again

A unit that is set is resolved there and then. The unit of a product, a quotient or an inverse is
not: its text is put together from terms, and its resolution from resolutions. Such a text always
reads, but it need not resolve. There are two ways for that.

* Scales below the line multiply, and may come out as zero where those of the operands did not.
* An exponent may be infinite, and is then written as a word. The word is read as one more symbol
  (`Term.reread`), which is no unit.

There are no others (`Quantity.resolve_of_mem_run`), and the second needs an exponent beyond the
largest double to begin with. A quantity is read back from its own text exactly if its unit text
resolves again and its value is finite.

What is known of the terms of all texts in a run is what holds of the terms that are supplied and
passes to reciprocals and to terms read back (`Measure.hasTerms_of_mem_run`).
-/

namespace DimensionalAnalysis

/-- The words for the doubles that are not numbers. -/
def Number.words : List String :=
  ["NaN", "inf", "-inf"]

/-! ### The terms of the texts in a run -/

namespace Expression

/-- Arithmetic makes no terms but reciprocals. -/
theorem isClosed_terms {T : Term → Prop} (hreciprocal : ∀ t, T t → T t.reciprocal)
    (hreread : ∀ t, T t → ∀ u ∈ t.reread, T u) : IsClosed fun e ↦ ∀ t ∈ e.terms, T t where
  product he hf t ht := (mem_terms_product.1 ht).elim (he t) (hf t)
  quotient he hf t ht := (mem_terms_quotient.1 ht).elim (he t) (hf t)
  inverted he t ht := by
    rcases mem_terms_inverted ht with ht | ⟨u, hu, rfl⟩
    · exact he t ht
    · exact hreciprocal u (he u hu)
  reread he t ht := by
    obtain ⟨u, hu, ht⟩ := mem_terms_reread.1 ht
    exact hreread u (he u hu) t ht

end Expression

namespace Measure

/-- The text reads, and all of its terms have the property. -/
def HasTerms (T : Term → Prop) (m : Measure) : Prop :=
  m.Reads fun e ↦ ∀ t ∈ e.terms, T t

/-- What holds of the terms that are supplied and passes to reciprocals and to terms that are read
back holds of the terms of every unit text. -/
theorem hasTerms_of_mem_run (T : Term → Prop) (hreciprocal : ∀ t, T t → T t.reciprocal)
    (hreread : ∀ t, T t → ∀ u ∈ t.reread, T u) {cs : List Command}
    (hsupplied : ∀ c ∈ cs, ∀ m s e, c.expression? = some s → ofString (Text.trimmed s) = .ok m →
      Expression.ofString s = .ok e → ∀ t ∈ e.terms, T t)
    {q : Quantity} (hq : q ∈ Command.run cs) {m : Measure} (hm : q.measure = some m) :
    m.HasTerms T :=
  Command.forall_measure_run (fun c hc m ↦
    reads_of_yields (Expression.isClosed_terms hreciprocal hreread) (hsupplied c hc m)) q hq m hm

end Measure

/-! ### Terms that are units or words -/

namespace Term

open Catalog (standard)

variable {t : Term}

/-- The symbol is a unit of the standard catalog. -/
def IsUnit (t : Term) : Prop :=
  ∃ unit, standard.resolveUnit t.symbol = .ok unit

/-- The exponent, if there is one, is a number. -/
def IsFinite (t : Term) : Prop :=
  ∀ x ∈ t.exponent, (Number.rational? x).isSome

/-- The symbol is a unit or a word. -/
def IsUnitOrWord (t : Term) : Prop :=
  t.IsUnit ∨ t.symbol ∈ Number.words

/-- A reciprocal has the symbol that the term has. -/
theorem IsUnit.reciprocal (h : t.IsUnit) : t.reciprocal.IsUnit := by
  rwa [IsUnit, Expression.symbol_reciprocal]

/-- The reciprocal of a number is a number. No double is so large that its negative is not one.
-/
theorem IsFinite.reciprocal (h : t.IsFinite) : t.reciprocal.IsFinite := by
  intro y hy
  rw [Term.reciprocal] at hy
  cases hx : t.exponent with
  | none =>
    simp only [hx, Option.mem_some_iff] at hy
    rw [← hy, Number.rational?_negOne]
    rfl
  | some x =>
    simp only [hx] at hy
    split at hy
    · simp at hy
    · -- a number, and its negative is written
      obtain ⟨q, hq⟩ := Option.isSome_iff_exists.1 (h x hx)
      rw [← Option.mem_some_iff.1 hy, Number.rational?_neg hq]
      rfl

/-- Words stay where they are, too. -/
theorem IsUnitOrWord.reciprocal (h : t.IsUnitOrWord) : t.reciprocal.IsUnitOrWord :=
  h.imp IsUnit.reciprocal fun hword ↦ by rwa [Expression.symbol_reciprocal]

/-- A term that is read back as two has a word for the second. -/
theorem IsUnitOrWord.reread (h : t.IsUnitOrWord) : ∀ u ∈ t.reread, u.IsUnitOrWord := by
  intro u hu
  rw [Term.reread] at hu
  split at hu
  · rwa [List.mem_singleton.1 hu]
  · rename_i x hx
    split at hu
    · rwa [List.mem_singleton.1 hu]
    · rename_i hfinite
      simp only [List.mem_cons, List.not_mem_nil, or_false] at hu
      rcases hu with rfl | rfl
      · exact h
      · rcases Number.rational?_cases x with ⟨q, hq, -⟩ | ⟨-, hword⟩
        · simp [hq] at hfinite
        · exact .inr hword

/-- A word is no unit. -/
theorem resolveUnit_word {w : String} (h : w ∈ Number.words) :
    standard.resolveUnit w = .error (.unknownUnit w) := by
  have hall : ∀ w ∈ Number.words, standard.resolveUnit w = .error (.unknownUnit w) := by
    decide +kernel
  exact hall w h

/-- A unit is no word. -/
theorem IsUnit.not_word (h : t.IsUnit) : t.symbol ∉ Number.words := by
  rintro hword
  obtain ⟨unit, hunit⟩ := h
  simp [resolveUnit_word hword] at hunit

end Term

namespace Expression

variable {e g : Expression}

/-- If all that is read back are units, then there was no word among the exponents. -/
theorem isFinite_of_reread (h : ∀ t ∈ e.reread.terms, t.IsUnit) : e.IsFinite := by
  intro t ht x hx
  by_contra hnone
  -- otherwise the exponent is written as a word and read back as a term of its own
  have hreread : ⟨Number.text x, none⟩ ∈ t.reread := by
    rw [Term.reread, Option.mem_def.1 hx]
    simp [hnone]
  refine Term.IsUnit.not_word (h _ (mem_terms_reread.2 ⟨t, ht, hreread⟩)) ?_
  rcases Number.rational?_cases x with ⟨q, hq, -⟩ | ⟨-, hword⟩
  · simp [hq] at hnone
  · exact hword

/-- A composed text of units reads as what it was composed from.

This is how facts about the exact expression pass to a text that was written and read again: no
exponent has turned into a word, and so each has been read as the double that was written. -/
theorem eq_of_ofString_reread {s : String} (hread : ofString s = .ok g.reread)
    (he : ofString s = .ok e) (hterms : ∀ t ∈ e.terms, t.IsUnit) : e = g ∧ g.IsFinite := by
  obtain rfl := Except.ok.inj (hread.symm.trans he)
  have hfinite := isFinite_of_reread hterms
  exact ⟨reread_of_isFinite hfinite, hfinite⟩

end Expression

/-! ### Resolving an expression of units and words -/

namespace Catalog

variable {s : String} {e : Expression}

/-- Units and words resolve unless there is a word among them, or the scale below the line is
zero. -/
theorem exists_resolve_standard_iff (he : Expression.ofString s = .ok e)
    (h : ∀ t ∈ e.terms, t.IsUnitOrWord) :
    (∃ r, standard.resolve s = .ok r) ↔ (∀ t ∈ e.terms, t.symbol ∉ Number.words) ∧
      ∀ d, standard.resolveTokens (Split.ofString s).denominator = .ok d →
        (d.scale == 0.0) = false := by
  constructor
  · rintro ⟨r, hr⟩
    obtain ⟨e', _, _, he', hunits, -⟩ := exists_ofString_of_resolveText hr
    obtain rfl : e' = e := Except.ok.inj (he'.symm.trans he)
    refine ⟨fun t ht ↦ Term.IsUnit.not_word (hunits t ht), fun d hd ↦ ?_⟩
    obtain ⟨n, d', -, hd', hcombine⟩ := resolveText_eq_ok_iff.1 hr
    obtain rfl : d' = d := Except.ok.inj (hd'.symm.trans hd)
    exact (combine_eq_ok_iff.1 hcombine).1
  · rintro ⟨hwords, hscale⟩
    have hunits : ∀ t ∈ e.terms, t.IsUnit := fun t ht ↦ (h t ht).resolve_right (hwords t ht)
    obtain ⟨hnum, hden⟩ := Expression.ofString_eq_ok_iff.1 he
    obtain ⟨n, hn⟩ := exists_resolveTerms_ok .unity
      fun t ht ↦ hunits t (List.mem_append_left _ ht)
    obtain ⟨d, hd⟩ := exists_resolveTerms_ok .unity
      fun t ht ↦ hunits t (List.mem_append_right _ ht)
    -- what is known of terms carries over to the tokens of either side
    rw [← resolveList_eq_resolveTerms hnum] at hn
    rw [← resolveList_eq_resolveTerms hden] at hd
    exact ⟨_, resolveText_eq_ok_iff.2 ⟨n, d, hn, hd, combine_eq_ok_iff.2 ⟨hscale d hd, rfl⟩⟩⟩

/-- And if they do not resolve, the fault names the whole text or one of the words. -/
theorem fault_of_resolve_standard_error (he : Expression.ofString s = .ok e)
    (h : ∀ t ∈ e.terms, t.IsUnitOrWord) {f : Fault} (hf : standard.resolve s = .error f) :
    f = .zeroScale s ∨ ∃ w ∈ Number.words, f = .unknownUnit w := by
  rcases fault_of_resolveText_error_of_ofString he hf with rfl | ⟨t, ht, hsymbol⟩
  · exact .inl rfl
  · rcases h t ht with ⟨unit, hunit⟩ | hword
    · simp [hunit] at hsymbol
    · refine .inr ⟨t.symbol, hword, ?_⟩
      rw [Term.resolveUnit_word hword] at hsymbol
      exact (Except.error.inj hsymbol).symm

end Catalog

/-! ### Quantities -/

namespace Quantity

open Catalog (standard)

variable {q : Quantity} {s : String}

/-- An expression that resolves and has a symbol is set as it is, without the blanks around it. -/
theorem setUnit_of_resolve {e : Expression} {r : Resolution} (he : Expression.ofString s = .ok e)
    (hne : e.isEmpty = false) (hr : standard.resolve s = .ok r) :
    q.setUnit s = .ok ⟨q.value, some ⟨Text.trimmed s, r⟩⟩ := by
  have htrimmed : standard.resolve (Text.trimmed s) = .ok r := resolveText_trimmed_eq_ok_iff.2 hr
  rw [setUnit_eq, he, ok_bind, htrimmed, ok_bind, hne]
  rfl

/-- A unit can be set if its expression resolves. -/
theorem exists_setUnit_iff :
    (∃ r, q.setUnit s = .ok r) ↔ ∃ r, standard.resolve s = .ok r := by
  simp only [setUnit_eq, bind_eq_ok_iff]
  constructor
  · rintro ⟨p, e, -, r, hr, -⟩
    exact ⟨r, resolveText_trimmed_eq_ok_iff.1 hr⟩
  · rintro ⟨r, hr⟩
    obtain ⟨e, _, _, he, -⟩ := exists_ofString_of_resolveText hr
    exact ⟨_, e, he, r, resolveText_trimmed_eq_ok_iff.2 hr, rfl⟩

/-- A quantity with a unit can be read back if its value is finite and the unit text resolves. -/
theorem exists_reload_iff (format : Json.LawfulFormat) {m : Measure} (hm : q.measure = some m) :
    (∃ r, q.reload format = .ok r) ↔
      q.value.isFinite ∧ ∃ r, standard.resolve m.text = .ok r := by
  have hunit : q.unit? = some m.text := by rw [unit?, hm, Option.map_some]
  simp only [reload_eq_ok_iff, hunit, ofParts, exists_and_left, withUnit, exists_setUnit_iff]

end Quantity

namespace Expression

/-- Every exponent token of the text is a number. -/
def HasFiniteExponents (s : String) : Prop :=
  ∀ token ∈ (Split.ofString s).allTokens, ∀ x, exponent? token = some x →
    (Number.rational? x).isSome

end Expression

namespace Quantity

open Catalog (standard)

variable {q : Quantity} {cs : List Command} {m : Measure}

/-- The symbols of an expression that was resolved are units. -/
theorem isUnit_of_ofString {s : String} {e : Expression}
    (hm : Measure.ofString (Text.trimmed s) = .ok m) (he : Expression.ofString s = .ok e) :
    ∀ t ∈ e.terms, t.IsUnit := by
  obtain ⟨e', _, _, he', hunits, -⟩ := exists_ofString_of_resolveText
    (resolveText_trimmed_eq_ok_iff.1 (Measure.ofString_eq_ok_iff.1 hm).1)
  obtain rfl : e' = e := Except.ok.inj (he'.symm.trans he)
  exact hunits

/-- Every unit text in a run is one of units and words. -/
theorem isUnitOrWord_of_mem_run (hq : q ∈ Command.run cs) (hm : q.measure = some m) :
    m.HasTerms Term.IsUnitOrWord :=
  Measure.hasTerms_of_mem_run Term.IsUnitOrWord (fun _ ↦ Term.IsUnitOrWord.reciprocal)
    (fun _ ↦ Term.IsUnitOrWord.reread)
    (fun _ _ _ _ _ _ hm he t ht ↦ .inl (isUnit_of_ofString hm he t ht)) hq hm

/-- If all exponents that are supplied are numbers, it is one of units. -/
theorem isUnit_of_mem_run
    (hcs : ∀ c ∈ cs, ∀ s, c.expression? = some s → Expression.HasFiniteExponents s)
    (hq : q ∈ Command.run cs) (hm : q.measure = some m) :
    m.HasTerms fun t ↦ t.IsUnit ∧ t.IsFinite := by
  refine Measure.hasTerms_of_mem_run (fun t ↦ t.IsUnit ∧ t.IsFinite)
    (fun t h ↦ ⟨h.1.reciprocal, h.2.reciprocal⟩) (fun t h u hu ↦ ?_)
    (fun c hc _ s _ hs hm he t ht ↦ ⟨isUnit_of_ofString hm he t ht, fun x hx ↦ ?_⟩) hq hm
  · -- a term of a number for its exponent is read back as itself
    rw [Term.reread_of_finite h.2, List.mem_singleton] at hu
    rwa [hu]
  · obtain ⟨-, -, hexponent⟩ := Expression.mem_terms_of_ofString he ht
    obtain ⟨token, htoken, hvalue⟩ := hexponent x hx
    exact hcs c hc s hs token htoken x hvalue

/-- **When unit texts resolve again.** The unit text of a quantity in a run reads, and resolves
unless a word is among its symbols or the scale below its line is zero; these are its faults.
Words need an exponent to be supplied that is no number. A quantity with a unit is read back
from its own text exactly if the unit text resolves and the value is finite.

The scale below the line is that of the text, resolved from the left, and not the one that is
stored with the unit. -/
theorem resolve_of_mem_run (hq : q ∈ Command.run cs) (hm : q.measure = some m) :
    ∃ e, Expression.ofString m.text = .ok e ∧
      ((∃ r, standard.resolve m.text = .ok r) ↔ (∀ t ∈ e.terms, t.symbol ∉ Number.words) ∧
        ∀ d, standard.resolveTokens (Split.ofString m.text).denominator = .ok d →
          (d.scale == 0.0) = false) ∧
      (∀ f, standard.resolve m.text = .error f →
        f = .zeroScale m.text ∨ ∃ w ∈ Number.words, f = .unknownUnit w) ∧
      ((∀ c ∈ cs, ∀ s, c.expression? = some s → Expression.HasFiniteExponents s) →
        ∀ t ∈ e.terms, t.symbol ∉ Number.words) ∧
      ∀ format : Json.LawfulFormat, (∃ r, q.reload format = .ok r) ↔
        q.value.isFinite ∧ ∃ r, standard.resolve m.text = .ok r := by
  obtain ⟨e, he, hterms⟩ := isUnitOrWord_of_mem_run hq hm
  refine ⟨e, he, Catalog.exists_resolve_standard_iff he hterms,
    fun _ ↦ Catalog.fault_of_resolve_standard_error he hterms, fun hcs t ht ↦ ?_,
    fun format ↦ exists_reload_iff format hm⟩
  obtain ⟨e', he', hunits⟩ := isUnit_of_mem_run hcs hq hm
  obtain rfl : e' = e := Except.ok.inj (he'.symm.trans he)
  exact (hunits t ht).1.not_word

/-- A quotient of two units that are set: it resolves, and is read back. -/
theorem resolve_of_mem_run_speed :
    ∃ cs, ∃ q ∈ Command.run cs, ∃ m, q.measure = some m ∧ m.text = "m/s" ∧
      (∃ r, standard.resolve m.text = .ok r) ∧
      ∀ format : Json.LawfulFormat, ∃ r, q.reload format = .ok r := by
  obtain ⟨cs, hcs⟩ : ∃ cs : List Command, cs =
    [.withUnit 6.0 "m", .withUnit 2.0 "s", .apply .divide 0 1] := ⟨_, rfl⟩
  have hlast : (Command.run cs)[2]?.any fun q ↦ q.measure.any (·.text = "m/s") &&
      q.value.isFinite := by
    rw [hcs]
    decide +kernel
  simp only [Option.any_eq_true, Bool.and_eq_true, decide_eq_true_eq] at hlast
  obtain ⟨q, hq, ⟨m, hm, htext⟩, hfinite⟩ := hlast
  have hq := List.mem_of_getElem? hq
  obtain ⟨e, he, hresolve, -, -, hreload⟩ := resolve_of_mem_run hq hm
  have hterms : Expression.ofString "m/s" = .ok ⟨[⟨"m", none⟩], [⟨"s", none⟩]⟩ := by
    decide +kernel
  obtain rfl := Except.ok.inj (hterms.symm.trans (htext ▸ he))
  have hscale : (standard.resolveTokens (Split.ofString "m/s").denominator).toOption.all
      fun d ↦ !(d.scale == 0.0) := by decide +kernel
  have hok := hresolve.2 ⟨by decide +kernel, fun d hd ↦ ?_⟩
  · exact ⟨cs, q, hq, m, hm, htext, hok, fun format ↦ (hreload format).2 ⟨hfinite, hok⟩⟩
  · rw [← htext, hd] at hscale
    simpa [Except.toOption] using hscale

/-- A power of the metre beyond the largest double resolves, and its inverse is written with a
word. -/
theorem exists_resolve_infinite_power :
    ∃ s e r, Expression.ofString s = .ok e ∧ e.isEmpty = false ∧ standard.resolve s = .ok r ∧
      (r.scale == 0.0) = false ∧ e.inverted.text = "m**-inf" := by
  obtain ⟨n, hn⟩ : ∃ n : ℕ, n = 10 ^ 309 := ⟨_, rfl⟩
  obtain ⟨x, hx⟩ : ∃ x, x = Decimal.toFloat ⟨false, n, 0⟩ := ⟨_, rfl⟩
  have hmetre : Expression.ofString "m" = .ok ⟨[⟨"m", none⟩], []⟩ := by decide +kernel
  have hsymbol : IsSymbol "m" :=
    Expression.isReadable_of_ofString hmetre ⟨"m", none⟩ List.mem_cons_self
  have he : Expression.ofString ("m" ++ "**" ++ toString n) = .ok ⟨[⟨"m", some x⟩], []⟩ := by
    rw [hx]
    exact Expression.ofString_power_nat hsymbol n
  have hterms : (resolveTerms standard.resolveUnit .unity [⟨"m", some x⟩]).toOption.any
      fun r ↦ !((r.scale / 1.0) == 0.0) := by
    rw [hx, hn]
    decide +kernel
  have htext : (Expression.inverted ⟨[⟨"m", some x⟩], []⟩).text = "m**-inf" := by
    rw [hx, hn]
    decide +kernel
  simp only [Option.any_eq_true, toOption_eq_some_iff, Bool.not_eq_true'] at hterms
  obtain ⟨r, hr, hscale⟩ := hterms
  have hone : (Resolution.unity.scale == 0.0) = false := by decide +kernel
  exact ⟨_, _, _, he, rfl, (resolveText_eq_ok_iff_of_ofString he).2
    ⟨r, .unity, hr, rfl, combine_eq_ok_iff.2 ⟨hone, rfl⟩⟩, hscale, htext⟩

/-- A word gets into a run: a power beyond the largest double is set and turned over. -/
theorem exists_word_of_mem_run :
    ∃ cs, ∃ q ∈ Command.run cs, ∃ m, q.measure = some m ∧
      standard.resolve m.text = .error (.unknownUnit "-inf") := by
  obtain ⟨s, e, t, he, hne, ht, hscale, htext⟩ := exists_resolve_infinite_power
  have hset : withUnit 1.0 s = .ok ⟨1.0, some ⟨Text.trimmed s, t⟩⟩ := by
    rw [withUnit, setUnit_of_resolve he hne ht, untyped]
  obtain ⟨m, hm, hmtext⟩ : ∃ m, Measure.inverted ⟨Text.trimmed s, t⟩ = .ok m ∧
      m.text = "m**-inf" :=
    ⟨_, Measure.inverted_eq_ok_iff.2 ⟨_, _, (Expression.ofString_trimmed s).trans he,
      combine_eq_ok_iff.2 ⟨hscale, rfl⟩, rfl⟩, htext⟩
  -- the run is not evaluated, since its text has three hundred digits
  have hinvert : (Command.invert 0).result (Command.run [.withUnit 1.0 s]) =
      some ⟨1.0 / 1.0, some m⟩ := by
    simp [Command.run, Command.step, Command.result, hset, invert, hm, Except.toOption]
  have hmem : (⟨1.0 / 1.0, some m⟩ : Quantity) ∈
      Command.run ([.withUnit 1.0 s] ++ .invert 0 :: []) := Command.mem_run_of_result hinvert
  refine ⟨_, _, hmem, m, rfl, ?_⟩
  rw [hmtext]
  decide +kernel

/-- Two unit texts in runs that do not resolve. The product of two units with eleven picograms
below the line has a scale of zero there, and an inverse may have a word among its symbols. -/
theorem not_resolve_of_mem_run :
    (∃ q ∈ Command.run [.withUnit 1.0 ("m/" ++ "*".intercalate (List.replicate 11 "pg")),
        .withUnit 1.0 ("s/" ++ "*".intercalate (List.replicate 11 "pg")), .apply .multiply 0 1],
      ∃ m, q.measure = some m ∧
        standard.resolve m.text = .error (.zeroScale m.text) ∧
        ∀ (format : Json.LawfulFormat) r, q.reload format ≠ .ok r) ∧
    ∃ cs, ∃ q ∈ Command.run cs, ∃ m, q.measure = some m ∧
      standard.resolve m.text = .error (.unknownUnit "-inf") ∧
      ∀ (format : Json.LawfulFormat) r, q.reload format ≠ .ok r := by
  have hreload : ∀ {q : Quantity} {m : Measure} {f : Fault}, q.measure = some m →
      standard.resolve m.text = .error f →
      ∀ (format : Json.LawfulFormat) r, q.reload format ≠ .ok r := by
    intro q m f hm hf format r hr
    obtain ⟨-, t, ht⟩ := (exists_reload_iff format hm).1 ⟨r, hr⟩
    simp [hf] at ht
  constructor
  · obtain ⟨cs, hcs⟩ : ∃ cs : List Command, cs =
      [.withUnit 1.0 ("m/" ++ "*".intercalate (List.replicate 11 "pg")),
        .withUnit 1.0 ("s/" ++ "*".intercalate (List.replicate 11 "pg")),
        .apply .multiply 0 1] := ⟨_, rfl⟩
    rw [← hcs]
    have hlast : (Command.run cs)[2]?.any fun q ↦ q.measure.any fun m ↦
        standard.resolve m.text = .error (.zeroScale m.text) := by
      rw [hcs]
      decide +kernel
    simp only [Option.any_eq_true, decide_eq_true_eq] at hlast
    obtain ⟨q, hq, m, hm, hresolve⟩ := hlast
    exact ⟨q, List.mem_of_getElem? hq, m, hm, hresolve, hreload hm hresolve⟩
  · obtain ⟨cs, q, hq, m, hm, hresolve⟩ := exists_word_of_mem_run
    exact ⟨cs, q, hq, m, hm, hresolve, hreload hm hresolve⟩

end Quantity

end DimensionalAnalysis
