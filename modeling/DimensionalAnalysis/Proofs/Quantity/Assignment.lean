import DimensionalAnalysis.Proofs.Resolution.Terms
import DimensionalAnalysis.Quantity.Basic

/-!
# Setting a unit

An expression is read twice when it is set as a unit: as terms, and by the resolver. Whatever
resolves reads as terms, and what reads as no term at all always resolves, so that the second
reading alone decides whether the unit can be set (`Quantity.setUnit_eq`). The first one decides
which fault is reported.

Setting a unit in place goes through the same two readings and writes afterwards. Hence it ends with
the quantity that `setUnit` returns, or with the one it started from (`Quantity.run_assignUnit`).
-/

namespace DimensionalAnalysis

/-! ### Tokens without a symbol -/

namespace Term

variable {tokens : List String} {f : Fault}

/-- Reading terms fails by an exponent and by nothing else. -/
theorem exists_strayExponent_of_ofTokens (h : ofTokens tokens = .error f) :
    ∃ token, f = .strayExponent token := by
  induction tokens using tokens_induction with
  | nil => simp [ofTokens_nil] at h
  | empty tokens ih => exact ih (ofTokens_empty ▸ h)
  | stray token tokens x hx =>
    rw [ofTokens_stray hx, Except.error.injEq] at h
    exact ⟨token, h.symm⟩
  | exponent token next tokens x htoken hx ih =>
    rw [ofTokens_exponent htoken hx, map_eq_error_iff] at h
    exact ih h
  | unit token tokens htoken hnext ih =>
    rw [ofTokens_unit htoken hnext, map_eq_error_iff] at h
    exact ih h

/-- There is no term exactly if no token is left of an exponent or a unit. -/
theorem ofTokens_eq_nil_iff : ofTokens tokens = .ok [] ↔ ∀ token ∈ tokens, token = "" := by
  induction tokens using tokens_induction with
  | nil => simp [ofTokens_nil]
  | empty tokens ih => simp [ofTokens_empty, ih]
  | stray token tokens x hx =>
    have hne := ne_empty_of_exponent? hx
    simp [ofTokens_stray hx, hne]
  | exponent token next tokens x htoken hx ih =>
    have hne := (namesUnit_iff.1 htoken).1
    simp [ofTokens_exponent htoken hx, map_eq_ok_iff, hne]
  | unit token tokens htoken hnext ih =>
    have hne := (namesUnit_iff.1 htoken).1
    simp [ofTokens_unit htoken hnext, map_eq_ok_iff, hne]

end Term

namespace Expression

variable {s : String} {e : Expression} {f : Fault}

/-- Reading an expression fails by an exponent and by nothing else, above the line or below it.
-/
theorem exists_strayExponent_of_ofString (h : ofString s = .error f) :
    ∃ token, f = .strayExponent token := by
  simp only [ofString, bind_eq_error_iff, pure_eq_ok, reduceCtorEq, and_false, exists_false,
    or_false] at h
  rcases h with h | ⟨numerator, -, h⟩
  · exact Term.exists_strayExponent_of_ofTokens h
  · exact Term.exists_strayExponent_of_ofTokens h

/-- An expression is empty exactly if all of its tokens are. -/
theorem isEmpty_iff_of_ofString (he : ofString s = .ok e) :
    e.isEmpty ↔ ∀ token ∈ (Split.ofString s).allTokens, token = "" := by
  obtain ⟨hnum, hden⟩ := ofString_eq_ok_iff.1 he
  simp only [Split.allTokens, List.forall_mem_append, ← Term.ofTokens_eq_nil_iff, hnum, hden,
    Except.ok.injEq, isEmpty, Bool.and_eq_true, List.isEmpty_iff]

/-- Without any symbol or exponent there is nothing to go wrong. -/
theorem ofString_of_forall_eq_empty (h : ∀ token ∈ (Split.ofString s).allTokens, token = "") :
    ofString s = .ok ⟨[], []⟩ := by
  rw [Split.allTokens, List.forall_mem_append] at h
  exact ofString_eq_ok_iff.2
    ⟨Term.ofTokens_eq_nil_iff.2 h.1, Term.ofTokens_eq_nil_iff.2 h.2⟩

end Expression

/-- What has no term resolves. The resolver has nothing to look up, and divides one by one. -/
theorem exists_resolveText_of_isEmpty (single : String → Except Fault Resolution) {s : String}
    {e : Expression} (he : Expression.ofString s = .ok e) (hempty : e.isEmpty) :
    ∃ r, resolveText single s = .ok r := by
  obtain ⟨numerator, denominator⟩ := e
  simp only [Expression.isEmpty, Bool.and_eq_true, List.isEmpty_iff] at hempty
  obtain ⟨rfl, rfl⟩ := hempty
  exact exists_resolveText_ok single he (by simp)

/-! ### Setting units -/

namespace Quantity

open Catalog (standard)

/-- **Both readings are done, and one of them decides.** A unit is set exactly if its expression
reads and resolves. -/
theorem setUnit_eq (q : Quantity) (s : String) :
    q.setUnit s = (do
      let e ← Expression.ofString s
      let r ← standard.resolve (Text.trimmed s)
      pure ⟨q.value, if e.isEmpty then none else some ⟨Text.trimmed s, r⟩⟩) := by
  rw [setUnit, Expression.ofString_trimmed]
  cases he : Expression.ofString s with
  | error f => rw [error_bind, error_bind]
  | ok e =>
    rw [ok_bind, ok_bind]
    cases hempty : e.isEmpty with
    | false =>
      rw [Measure.ofString]
      cases standard.resolve (Text.trimmed s) with
      | error f => rw [error_bind, error_bind]; rfl
      | ok r => rw [ok_bind, ok_bind]; rfl
    | true =>
      -- the unit is taken away without resolving, which would have succeeded
      rw [← Expression.ofString_trimmed] at he
      obtain ⟨r, hr⟩ := exists_resolveText_of_isEmpty standard.resolveUnit he hempty
      rw [Catalog.resolve, hr, ok_bind]
      rfl

/-- Setting a unit leaves the value as it is. -/
theorem value_of_setUnit {q r : Quantity} {s : String} (h : q.setUnit s = .ok r) :
    r.value = q.value := by
  rw [setUnit_eq] at h
  obtain ⟨e, -, h⟩ := bind_eq_ok_iff.1 h
  obtain ⟨t, -, h⟩ := bind_eq_ok_iff.1 h
  exact (congrArg value (Except.ok.inj h)).symm

/-- Setting a unit in place ends with the quantity that `setUnit` returns, and if it fails with the
one that it started from. -/
theorem run_assignUnit (q : Quantity) (s : String) :
    (assignUnit s).run.run q = match q.setUnit s with
      | .ok p => (.ok (), p)
      | .error f => (.error f, q) := by
  rw [assignUnit, setUnit, run_liftExcept_bind]
  -- only the order matters here, in which the outcomes are looked at and the quantity is
  -- written
  generalize Expression.ofString (Text.trimmed s) = read
  generalize Measure.ofString (Text.trimmed s) = resolved
  cases read with
  | error f => rfl
  | ok e =>
    rw [ok_bind]
    dsimp only
    split
    · rfl
    · rw [run_liftExcept_bind]
      cases resolved with
      | error f => rfl
      | ok m => rfl

section Outcomes

variable {s : String} {e : Expression} {r : Resolution} {f : Fault}

/-- It succeeds with what the resolver makes of the expression. -/
theorem run_assignUnit_of_resolve (q : Quantity) (hr : standard.resolve (Text.trimmed s) = .ok r) :
    (assignUnit s).run.run q = (.ok (), ⟨q.value,
      if ∀ token ∈ (Split.ofString s).allTokens, token = "" then none
      else some ⟨Text.trimmed s, r⟩⟩) := by
  obtain ⟨e, _, _, he, -⟩ := exists_ofString_of_resolveText hr
  rw [Expression.ofString_trimmed] at he
  rw [run_assignUnit, setUnit_eq, he, hr, ok_bind, ok_bind]
  simp only [← Expression.isEmpty_iff_of_ofString he]
  rfl

/-- It fails by the first reading if that fails. -/
theorem run_assignUnit_of_stray (q : Quantity) (hf : Expression.ofString s = .error f) :
    (assignUnit s).run.run q = (.error f, q) := by
  rw [run_assignUnit, setUnit_eq, hf, error_bind]

/-- Otherwise it fails by the second. So the fault of the resolver is reported only for
expressions that read as terms. -/
theorem run_assignUnit_of_unresolved (q : Quantity) (he : Expression.ofString s = .ok e)
    (hf : standard.resolve (Text.trimmed s) = .error f) :
    (assignUnit s).run.run q = (.error f, q) := by
  rw [run_assignUnit, setUnit_eq, he, hf, ok_bind, error_bind]

end Outcomes

/-- **Setting a unit is all or nothing.** It succeeds exactly if the expression resolves, to which
blanks around it make no difference. If it does, the value stays, and the unit is the text without
these blanks as the resolver reads it, or none if all tokens are empty. If it does not, nothing has
changed, and the fault is that of reading terms, or else that of the resolver. -/
theorem assignUnit_atomic (q : Quantity) (s : String) :
    (((assignUnit s).run.run q).1 = .ok () ↔ ∃ r, standard.resolve (Text.trimmed s) = .ok r) ∧
    (∀ r, standard.resolve (Text.trimmed s) = .ok r ↔ standard.resolve s = .ok r) ∧
    ((∀ token ∈ (Split.ofString s).allTokens, token = "") → ∃ r, standard.resolve s = .ok r) ∧
    (∀ r, standard.resolve (Text.trimmed s) = .ok r →
      (assignUnit s).run.run q = (.ok (), ⟨q.value,
        if ∀ token ∈ (Split.ofString s).allTokens, token = "" then none
        else some ⟨Text.trimmed s, r⟩⟩)) ∧
    (∀ f, Expression.ofString s = .error f →
      (assignUnit s).run.run q = (.error f, q) ∧ ∃ token, f = .strayExponent token) ∧
    ∀ e f, Expression.ofString s = .ok e → standard.resolve (Text.trimmed s) = .error f →
      (assignUnit s).run.run q = (.error f, q) := by
  refine ⟨⟨fun houtcome ↦ ?_, fun ⟨r, hr⟩ ↦ by rw [run_assignUnit_of_resolve q hr]⟩,
    fun r ↦ resolveText_trimmed_eq_ok_iff, fun hempty ↦ ?_, fun r ↦ run_assignUnit_of_resolve q,
    fun f hf ↦ ⟨run_assignUnit_of_stray q hf, Expression.exists_strayExponent_of_ofString hf⟩,
    fun e f ↦ run_assignUnit_of_unresolved q⟩
  · cases he : Expression.ofString s with
    | error f => simp [run_assignUnit_of_stray q he] at houtcome
    | ok e =>
      cases hr : standard.resolve (Text.trimmed s) with
      | error f => simp [run_assignUnit_of_unresolved q he hr] at houtcome
      | ok r => exact ⟨r, rfl⟩
  · exact exists_resolveText_of_isEmpty _ (Expression.ofString_of_forall_eq_empty hempty) rfl

/-- The exponent below the line is what setting this unit fails by, though the resolver would stop
before it. -/
example : Expression.ofString "xyz/2" = .error (.strayExponent "2") ∧
    standard.resolve "xyz/2" = .error (.unknownUnit "xyz") := by
  decide +kernel

end Quantity

end DimensionalAnalysis
