import DimensionalAnalysis.Proofs.Resolution.TokenList

/-!
# Resolving terms

The resolver walks over flat tokens, and looks at the token before an exponent again when it
meets the exponent. Reading terms puts a symbol and its exponent together first. The two agree:
tokens that resolve are tokens that read (`exists_ofTokens_of_resolveList`), and they resolve as
their terms do, one after another (`resolveList_eq_resolveTerms`).

Hence an expression that reads and whose symbols resolve can only fail by the scale of its
denominator (`resolveText_of_ofString`).

Terms are the better view for all that follows. A fold over terms looks at one term at a time
and remembers nothing, so that signatures and scales of whole expressions come by a plain
induction.
-/

namespace DimensionalAnalysis

/-- The product with a term, given what its symbol resolves to: the unit itself, and then the
power that its exponent asks for. -/
def Resolution.addTerm (acc unit : Resolution) (t : Term) : Resolution :=
  match t.exponent with
  | none => acc.times unit
  | some x => (acc.times unit).raise unit x

/-- Resolves terms one after another into `acc`. -/
def resolveTerms (single : String → Except Fault Resolution) (acc : Resolution) :
    List Term → Except Fault Resolution
  | [] => .ok acc
  | t :: ts => do
    let unit ← single t.symbol
    resolveTerms single (acc.addTerm unit t) ts

section Fold

variable {single : String → Except Fault Resolution} {acc r : Resolution} {tokens : List String}

/-- What stands in front of a list matters to an exponent only. -/
theorem resolveList_previous (previous : Option String)
    (h : ∀ next ∈ tokens.head?, exponent? next = none) :
    resolveList single previous acc tokens = resolveList single none acc tokens := by
  rcases tokens with - | ⟨next, tokens⟩
  · rfl
  · rcases token_cases next with rfl | ⟨x, hx⟩ | hnext
    · rw [resolveList_empty, resolveList_empty]
    · simp [h next rfl] at hx
    · rw [resolveList_unit hnext, resolveList_unit hnext]

/-- Tokens that resolve also read as terms. -/
theorem exists_ofTokens_of_resolveList (h : resolveList single none acc tokens = .ok r) :
    ∃ ts, Term.ofTokens tokens = .ok ts := by
  induction tokens using Term.tokens_induction generalizing acc with
  | nil => exact ⟨[], Term.ofTokens_nil⟩
  | empty tokens ih =>
    rw [Term.ofTokens_empty]
    exact ih (resolveList_empty ▸ h)
  | stray token tokens x hx => simp [resolveList_stray hx] at h
  | exponent token next tokens x htoken hx ih =>
    rw [resolveList_unit htoken, bind_eq_ok_iff] at h
    obtain ⟨unit, -, h⟩ := h
    rw [resolveList_exponent hx, bind_eq_ok_iff] at h
    obtain ⟨unit, -, h⟩ := h
    obtain ⟨ts, hts⟩ := ih h
    exact ⟨⟨token, some x⟩ :: ts, by rw [Term.ofTokens_exponent htoken hx, hts]; rfl⟩
  | unit token tokens htoken hnext ih =>
    rw [resolveList_unit htoken, bind_eq_ok_iff] at h
    obtain ⟨unit, -, h⟩ := h
    obtain ⟨ts, hts⟩ := ih (resolveList_previous _ hnext ▸ h)
    exact ⟨⟨token, none⟩ :: ts, by rw [Term.ofTokens_unit htoken hnext, hts]; rfl⟩

/-- **Tokens resolve as the terms that are read from them.** -/
theorem resolveList_eq_resolveTerms {ts : List Term} (h : Term.ofTokens tokens = .ok ts) :
    resolveList single none acc tokens = resolveTerms single acc ts := by
  induction tokens using Term.tokens_induction generalizing acc ts with
  | nil =>
    obtain rfl : [] = ts := by simpa using h
    rfl
  | empty tokens ih =>
    rw [resolveList_empty]
    exact ih (Term.ofTokens_empty ▸ h)
  | stray token tokens x hx => simp [Term.ofTokens_stray hx] at h
  | exponent token next tokens x htoken hx ih =>
    rw [Term.ofTokens_exponent htoken hx, map_eq_ok_iff] at h
    obtain ⟨rest, hrest, rfl⟩ := h
    rw [resolveList_unit htoken, resolveTerms]
    -- the symbol is resolved once for itself and once for its exponent
    cases hunit : single token with
    | error f => rfl
    | ok unit =>
      rw [ok_bind, ok_bind, resolveList_exponent hx, hunit, ok_bind]
      exact ih hrest
  | unit token tokens htoken hnext ih =>
    rw [Term.ofTokens_unit htoken hnext, map_eq_ok_iff] at h
    obtain ⟨rest, hrest, rfl⟩ := h
    rw [resolveList_unit htoken, resolveTerms]
    cases hunit : single token with
    | error f => rfl
    | ok unit =>
      rw [ok_bind, ok_bind, resolveList_previous _ hnext]
      exact ih hrest

/-- Terms resolve whose symbols do. -/
theorem exists_resolveTerms_ok (acc : Resolution) {ts : List Term}
    (h : ∀ t ∈ ts, ∃ unit, single t.symbol = .ok unit) :
    ∃ r, resolveTerms single acc ts = .ok r := by
  induction ts generalizing acc with
  | nil => exact ⟨acc, rfl⟩
  | cons t ts ih =>
    obtain ⟨unit, hunit⟩ := h t List.mem_cons_self
    rw [resolveTerms, hunit, ok_bind]
    exact ih _ fun t ht ↦ h t (List.mem_cons_of_mem _ ht)

/-- Terms fail as one of their symbols does. -/
theorem fault_of_resolveTerms_error {ts : List Term} {f : Fault}
    (h : resolveTerms single acc ts = .error f) : ∃ t ∈ ts, single t.symbol = .error f := by
  induction ts generalizing acc with
  | nil => simp [resolveTerms] at h
  | cons t ts ih =>
    rw [resolveTerms, bind_eq_error_iff] at h
    rcases h with h | ⟨unit, -, h⟩
    · exact ⟨t, List.mem_cons_self, h⟩
    · obtain ⟨u, hu, hf⟩ := ih h
      exact ⟨u, List.mem_cons_of_mem _ hu, hf⟩

end Fold

/-! ### Expressions -/

section Text

variable {single : String → Except Fault Resolution} {expression : String} {e : Expression}
  {r : Resolution}

/-- An expression that reads resolves as its terms do. -/
theorem resolveText_eq_ok_iff_of_ofString (he : Expression.ofString expression = .ok e) :
    resolveText single expression = .ok r ↔ ∃ n d,
      resolveTerms single .unity e.numerator = .ok n ∧
        resolveTerms single .unity e.denominator = .ok d ∧ n.combine d = .ok r := by
  obtain ⟨hnum, hden⟩ := Expression.ofString_eq_ok_iff.1 he
  rw [resolveText_eq_ok_iff, resolveList_eq_resolveTerms hnum, resolveList_eq_resolveTerms hden]

/-- An expression that resolves reads as terms, all of whose symbols resolve, and it resolves as
these terms do. -/
theorem exists_ofString_of_resolveText (h : resolveText single expression = .ok r) :
    ∃ e n d, Expression.ofString expression = .ok e ∧
      (∀ t ∈ e.terms, ∃ unit, single t.symbol = .ok unit) ∧
      resolveTerms single .unity e.numerator = .ok n ∧
      resolveTerms single .unity e.denominator = .ok d ∧ n.combine d = .ok r := by
  obtain ⟨n, d, hn, hd, -⟩ := resolveText_eq_ok_iff.1 h
  obtain ⟨numerator, hnum⟩ := exists_ofTokens_of_resolveList hn
  obtain ⟨denominator, hden⟩ := exists_ofTokens_of_resolveList hd
  have he : Expression.ofString expression = .ok ⟨numerator, denominator⟩ :=
    Expression.ofString_eq_ok_iff.2 ⟨hnum, hden⟩
  obtain ⟨n, d, hn, hd, hr⟩ := (resolveText_eq_ok_iff_of_ofString he).1 h
  refine ⟨_, n, d, he, fun t ht ↦ ?_, hn, hd, hr⟩
  obtain ⟨hunit, hmem, -⟩ := Expression.mem_terms_of_ofString he ht
  exact single_ok_of_resolveText_ok h t.symbol hmem hunit

/-- An expression that reads fails by the scale of its denominator, or as one of its symbols
does. -/
theorem fault_of_resolveText_error_of_ofString {f : Fault}
    (he : Expression.ofString expression = .ok e)
    (h : resolveText single expression = .error f) :
    f = .zeroScale expression ∨ ∃ t ∈ e.terms, single t.symbol = .error f := by
  obtain ⟨hnum, hden⟩ := Expression.ofString_eq_ok_iff.1 he
  simp only [resolveText, resolveList_eq_resolveTerms hnum, resolveList_eq_resolveTerms hden,
    bind_eq_error_iff, mapError_eq_error_iff] at h
  rcases h with h | ⟨n, -, h | ⟨d, -, f', h, rfl⟩⟩
  · obtain ⟨t, ht, hf⟩ := fault_of_resolveTerms_error h
    exact .inr ⟨t, List.mem_append_left _ ht, hf⟩
  · obtain ⟨t, ht, hf⟩ := fault_of_resolveTerms_error h
    exact .inr ⟨t, List.mem_append_right _ ht, hf⟩
  · rw [(combine_eq_error_iff.1 h).2]
    exact .inl rfl

/-- An expression that reads and whose symbols resolve fails by the scale of its denominator
or not at all. -/
theorem resolveText_of_ofString (he : Expression.ofString expression = .ok e)
    (hunits : ∀ t ∈ e.terms, ∃ unit, single t.symbol = .ok unit) :
    (∃ r, resolveText single expression = .ok r) ∨
      resolveText single expression = .error (.zeroScale expression) := by
  cases h : resolveText single expression with
  | ok r => exact .inl ⟨r, rfl⟩
  | error f =>
    rcases fault_of_resolveText_error_of_ofString he h with rfl | ⟨t, ht, hf⟩
    · exact .inr rfl
    · obtain ⟨unit, hunit⟩ := hunits t ht
      simp [hunit] at hf

/-- Blanks around an expression show in the fault only. -/
theorem resolveText_trimmed_eq_ok_iff :
    resolveText single (Text.trimmed expression) = .ok r ↔
      resolveText single expression = .ok r := by
  rw [resolveText_eq_ok_iff, resolveText_eq_ok_iff, Split.ofString_trimmed]

/-- With nothing below the line there is no scale to fail by. -/
theorem exists_resolveText_ok (single : String → Except Fault Resolution) {ts : List Term}
    (he : Expression.ofString expression = .ok ⟨ts, []⟩)
    (hunits : ∀ t ∈ ts, ∃ unit, single t.symbol = .ok unit) :
    ∃ r, resolveText single expression = .ok r := by
  obtain ⟨n, hn⟩ := exists_resolveTerms_ok .unity hunits
  have hscale : (Resolution.unity.scale == 0.0) = false := by decide +kernel
  exact ⟨_, (resolveText_eq_ok_iff_of_ofString he).2
    ⟨n, .unity, hn, rfl, combine_eq_ok_iff.2 ⟨hscale, rfl⟩⟩⟩

end Text

end DimensionalAnalysis
