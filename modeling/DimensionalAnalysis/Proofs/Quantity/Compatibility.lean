import DimensionalAnalysis.Proofs.Quantity.Order

/-!
# Compatible quantities

The dimension check compares signatures. What works on values in one unit looks at the unit texts
first, and at the signatures only when the texts differ. The two agree because in a run equal texts
have equal signatures: both are the order of what the text reads as, however the measures came
about (`Measure.Agrees.beq_signature_of_text`).

So the check decides about all of it at once: sums, differences, remainders and comparisons all
work, or all have one fault (`Quantity.compatibility_of_mem_run`).
-/

namespace DimensionalAnalysis

/-! ### Signatures that agree with their texts -/

namespace Measure

open Catalog (standard)

variable {m n : Measure} {e f : Expression}

/-- Between short expressions, equal signatures are equal orders. -/
theorem Agrees.beq_signature_iff (hm : m.Agrees e) (hn : n.Agrees f) (he : e.weight ≤ 2 ^ 40)
    (hf : f.weight ≤ 2 ^ 40) :
    m.signature == n.signature ↔ ∀ d, e.order standard d = f.order standard d := by
  exact Signature.beq_iff_of_rational? (hm.order_eq he) (hn.order_eq hf)

/-- For such measures equality of signatures is symmetric, as equality of orders is. -/
theorem Agrees.beq_signature_comm (hm : m.Agrees e) (hn : n.Agrees f) (he : e.weight ≤ 2 ^ 40)
    (hf : f.weight ≤ 2 ^ 40) : (m.signature == n.signature) = (n.signature == m.signature) := by
  rw [Bool.eq_iff_iff, hm.beq_signature_iff hn he hf, hn.beq_signature_iff hm hf he]
  exact forall_congr' fun _ ↦ eq_comm

/-- Equal texts have equal signatures. This is what makes it safe to take two values as they are
when their texts are equal, without a look at the signatures. -/
theorem Agrees.beq_signature_of_text (hm : m.Agrees e) (hn : n.Agrees f)
    (he : e.weight ≤ 2 ^ 40) (htext : m.text = n.text) : m.signature == n.signature := by
  obtain rfl : e = f := Except.ok.inj (hm.reads.symm.trans (htext ▸ hn.reads))
  exact (hm.beq_signature_iff hn he he).2 fun _ ↦ rfl

end Measure

namespace Quantity

variable {q r : Quantity}

/-! ### Operations on values in one unit -/

/-- The faults of all operations that bring two quantities into one unit. -/
def alignedFaults (q r : Quantity) : List (Option Fault) :=
  [fault? (q.apply .add r), fault? (q.apply .subtract r), fault? (q.apply .remainder r),
    fault? (q.divMod r), fault? (q.compare r), fault? (q.less r), fault? (q.lessOrEqual r),
    fault? (q.greater r), fault? (q.greaterOrEqual r)]

/-- They are all the fault of aligning. Whatever is done with the aligned values does not fail
any more. -/
theorem alignedFaults_eq (q r : Quantity) :
    q.alignedFaults r = List.replicate 9 (fault? (q.align r)) := by
  have hcompare : fault? (q.compare r) = fault? (q.align r) := fault?_bind_pure
  simp only [alignedFaults, apply, divMod, less, lessOrEqual, greater, greaterOrEqual,
    fault?_bind_pure, fault?_map, hcompare]
  rfl

/-- What cannot be aligned is not equal. -/
theorem beq_eq_false_of_align {f : Fault} (h : q.align r = .error f) : (q == r) = false := by
  simp only [BEq.beq, h]

/-- Nor is it ordered. -/
theorem order?_eq_none_of_align {f : Fault} (h : q.align r = .error f) : q.order? r = none := by
  rw [order?, compare, h, error_bind]

/-! ### The dimension check -/

/-- The check fails for two units with unequal signatures. A quantity without a unit passes it
with any other. -/
theorem sameDimension_eq_false_iff :
    q.sameDimension r = false ↔ ∃ m n, q.measure = some m ∧ r.measure = some n ∧
      (m.signature == n.signature) = false := by
  rw [sameDimension]
  cases q.measure <;> cases r.measure <;> simp

/-- What passes the check can be aligned. -/
theorem fault?_align_of_sameDimension (h : q.sameDimension r = true) :
    fault? (q.align r) = none := by
  cases hfault : fault? (q.align r) with
  | none => rfl
  | some f =>
    obtain ⟨m, n, hm, hn, -, hsignature, -⟩ :=
      align_eq_error_iff.1 (fault?_eq_some_iff.1 hfault)
    have := sameDimension_eq_false_iff.2 ⟨m, n, hm, hn, hsignature⟩
    simp [this] at h

/-- The measures have equal signatures if they have equal texts. This is where the check and the
alignment could come apart: the one compares the signatures, the other lets equal texts pass. -/
def HaveCoherentTexts (q r : Quantity) : Prop :=
  ∀ m n, q.measure = some m → r.measure = some n → m.text = n.text → m.signature == n.signature

/-- What does not pass the check has two units, which are the fault of aligning. -/
theorem HaveCoherentTexts.align_eq_error (h : q.HaveCoherentTexts r)
    (hsame : q.sameDimension r = false) :
    ∃ s t, q.unit? = some s ∧ r.unit? = some t ∧ q.align r = .error (.mismatch s t) := by
  obtain ⟨m, n, hm, hn, hsignature⟩ := sameDimension_eq_false_iff.1 hsame
  refine ⟨m.text, n.text, by simp [unit?, hm], by simp [unit?, hn], align_eq_error_iff.2 ?_⟩
  refine ⟨m, n, hm, hn, fun htext ↦ ?_, hsignature, rfl⟩
  have := h m n hm hn htext
  simp [hsignature] at this

/-! ### Runs -/

/-- The unit text, if there is one, is short enough for doubles to be exact. -/
def IsShort (q : Quantity) : Prop :=
  ∀ m, q.measure = some m → ∀ e, Expression.ofString m.text = .ok e → e.weight ≤ 2 ^ 40

/-- A quantity is short if what its unit text reads as is. -/
theorem isShort_of_unit? {s : String} {e : Expression} (h : q.unit? = some s)
    (he : Expression.ofString s = .ok e) (hle : e.weight ≤ 2 ^ 40) : q.IsShort := by
  intro m hm f hf
  obtain rfl : m.text = s := by simpa [unit?, hm] using h
  exact Except.ok.inj (he.symm.trans hf) ▸ hle

/-- **The dimension check, the arithmetic that needs it and the comparisons agree** on
quantities of runs over expressions with integers for exponents: either everything works on
values in one unit, or nothing does, with the two unit texts as the one fault.

Equality and the partial order report no fault. They are false and undefined where the others
fail. The two quantities may come from different runs. -/
theorem compatibility_of_mem_run {cs ds : List Command}
    (hcs : ∀ c ∈ cs, ∀ s, c.expression? = some s → Expression.HasIntegerExponents s)
    (hds : ∀ c ∈ ds, ∀ s, c.expression? = some s → Expression.HasIntegerExponents s)
    (hq : q ∈ Command.run cs) (hr : r ∈ Command.run ds) (hqshort : q.IsShort)
    (hrshort : r.IsShort) :
    (q.sameDimension r = true → ∀ fault ∈ q.alignedFaults r, fault = none) ∧
    (q.sameDimension r = false → ∃ s t, q.unit? = some s ∧ r.unit? = some t ∧
      (∀ fault ∈ q.alignedFaults r, fault = some (.mismatch s t)) ∧
      (q == r) = false ∧ q.order? r = none) ∧
    q.sameDimension r = r.sameDimension q := by
  have hmeasures : ∀ m n, q.measure = some m → r.measure = some n → ∃ e f,
      m.Agrees e ∧ n.Agrees f ∧ e.weight ≤ 2 ^ 40 ∧ f.weight ≤ 2 ^ 40 := by
    intro m n hm hn
    obtain ⟨e, he⟩ := Measure.agrees_of_mem_run hcs hq hm
    obtain ⟨f, hf⟩ := Measure.agrees_of_mem_run hds hr hn
    exact ⟨e, f, he, hf, hqshort m hm e he.reads, hrshort n hn f hf.reads⟩
  have hcoherent : q.HaveCoherentTexts r := by
    intro m n hm hn htext
    obtain ⟨e, f, he, hf, hweight, -⟩ := hmeasures m n hm hn
    exact he.beq_signature_of_text hf hweight htext
  have hfaults : ∀ fault ∈ q.alignedFaults r, fault = fault? (q.align r) := fun _ hfault ↦
    List.eq_of_mem_replicate (alignedFaults_eq q r ▸ hfault)
  refine ⟨fun hsame fault hfault ↦ ?_, fun hsame ↦ ?_, ?_⟩
  · rw [hfaults fault hfault, fault?_align_of_sameDimension hsame]
  · obtain ⟨s, t, hs, ht, herror⟩ := hcoherent.align_eq_error hsame
    refine ⟨s, t, hs, ht, fun fault hfault ↦ ?_, beq_eq_false_of_align herror,
      order?_eq_none_of_align herror⟩
    rw [hfaults fault hfault, fault?_eq_some_iff.2 herror]
  · rw [sameDimension, sameDimension]
    cases hm : q.measure with
    | none => cases r.measure <;> rfl
    | some m =>
      cases hn : r.measure with
      | none => rfl
      | some n =>
        obtain ⟨e, f, he, hf, hweight, hweight'⟩ := hmeasures m n hm hn
        exact he.beq_signature_comm hf hweight hweight'

/-- A length times a time, once computed and once typed in, and a length. -/
theorem compatibility_of_mem_run_length_time :
    ∃ cs, ∃ q ∈ Command.run cs, ∃ r ∈ Command.run cs, ∃ t ∈ Command.run cs,
      q.sameDimension r = true ∧ (∀ fault ∈ q.alignedFaults r, fault = none) ∧
      q.sameDimension t = false ∧
      (∀ fault ∈ q.alignedFaults t, fault = some (.mismatch "m*s" "m")) ∧ (q == t) = false := by
  obtain ⟨cs, hcs⟩ : ∃ cs : List Command, cs =
    [.withUnit 6.0 "m", .withUnit 2.0 "s", .apply .multiply 0 1, .withUnit 1.0 "s*m"] := ⟨_, rfl⟩
  have hoperands : (Command.run cs)[2]?.any fun q ↦ (Command.run cs)[3]?.any fun r ↦
      (Command.run cs)[0]?.any fun t ↦ q.unit? = some "m*s" && r.unit? = some "s*m" &&
        t.unit? = some "m" && q.sameDimension r && !q.sameDimension t := by
    rw [hcs]
    decide +kernel
  simp only [Option.any_eq_true, Bool.and_eq_true, decide_eq_true_eq, Bool.not_eq_true']
    at hoperands
  obtain ⟨q, hq, r, hr, t, ht, ⟨⟨⟨hqunit, hrunit⟩, htunit⟩, hsame⟩, hdiffer⟩ := hoperands
  have hexpressions : ∀ c ∈ cs, ∀ s, c.expression? = some s →
      Expression.HasIntegerExponents s := by
    have hnone : exponent? "m" = none ∧ exponent? "s" = none := by decide
    have hsplit : (Split.ofString "m").allTokens = ["m"] ∧
        (Split.ofString "s").allTokens = ["s"] ∧
        (Split.ofString "s*m").allTokens = ["s", "m"] := by decide +kernel
    simp [hcs, Command.expression?, Expression.HasIntegerExponents, hsplit, hnone]
  have hterms : Expression.ofString "m*s" = .ok ⟨[⟨"m", none⟩, ⟨"s", none⟩], []⟩ ∧
      Expression.ofString "s*m" = .ok ⟨[⟨"s", none⟩, ⟨"m", none⟩], []⟩ ∧
      Expression.ofString "m" = .ok ⟨[⟨"m", none⟩], []⟩ := by decide +kernel
  have hqshort := isShort_of_unit? hqunit hterms.1 (by
    simp [Expression.weight, Expression.terms, Term.weight, Term.power])
  have hrshort := isShort_of_unit? hrunit hterms.2.1 (by
    simp [Expression.weight, Expression.terms, Term.weight, Term.power])
  have htshort := isShort_of_unit? htunit hterms.2.2 (by
    simp [Expression.weight, Expression.terms, Term.weight, Term.power])
  have hq := List.mem_of_getElem? hq
  have hr := List.mem_of_getElem? hr
  have ht := List.mem_of_getElem? ht
  -- the same text in another order of factors passes, a part of it does not
  obtain ⟨hworks, -⟩ := compatibility_of_mem_run hexpressions hexpressions hq hr hqshort hrshort
  obtain ⟨-, hfails, -⟩ := compatibility_of_mem_run hexpressions hexpressions hq ht hqshort htshort
  obtain ⟨s, u, hs, hu, hfault, hbeq, -⟩ := hfails hdiffer
  obtain rfl : s = "m*s" := Option.some.inj (hs.symm.trans hqunit)
  obtain rfl : u = "m" := Option.some.inj (hu.symm.trans htunit)
  exact ⟨cs, q, hq, r, hr, t, ht, hsame, hworks hsame, hdiffer, hfault, hbeq⟩

end Quantity

end DimensionalAnalysis
