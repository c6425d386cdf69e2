import DimensionalAnalysis.Proofs.Expression.Text
import DimensionalAnalysis.Proofs.Quantity.Run
import DimensionalAnalysis.Proofs.Resolution.Terms
import DimensionalAnalysis.Quantity.Comparison

/-!
# Faults of arithmetic

Products, quotients and inverses read the unit texts of their operands again, and these texts
may have been composed by earlier arithmetic. They always read: every measure in a run has a
text that does (`isReadable_of_mem_run`), whatever its exponents are, since the text of a number
is either an exponent or one more symbol. What a composed text reads as is what arithmetic on
expressions gives, with its exponents read back; a property of expressions that these keep passes
to all unit texts (`Measure.reads_of_yields`).

So what is left to go wrong in arithmetic is a scale of zero, units of different signature, and
an exponent with a unit (`faults_of_mem_run`).
-/

namespace DimensionalAnalysis

/-- The text is an expression. -/
def Measure.IsReadable (m : Measure) : Prop :=
  ∃ e, Expression.ofString m.text = .ok e

/-- The unit text is an expression, if there is one. -/
def Quantity.IsReadable (q : Quantity) : Prop :=
  ∀ m, q.measure = some m → m.IsReadable

/-- Arithmetic on expressions, and reading back what it writes, keep the property. -/
structure Expression.IsClosed (P : Expression → Prop) : Prop where
  product : ∀ {e f}, P e → P f → P (e.product f)
  quotient : ∀ {e f}, P e → P f → P (e.quotient f)
  inverted : ∀ {e}, P e → P e.inverted
  reread : ∀ {e}, P e → P e.reread

/-! ### Texts that read -/

namespace Measure

variable {m n p : Measure} {f : Fault} {s : String}

/-- The measure of an expression, taken apart: the expression resolves, and is the text. -/
theorem ofString_eq_ok_iff :
    ofString s = .ok m ↔ Catalog.standard.resolve s = .ok m.resolution ∧ s = m.text := by
  obtain ⟨text, r⟩ := m
  simp only [ofString, bind_eq_ok_iff, pure_eq_ok, Except.ok.injEq, mk.injEq]
  exact ⟨fun ⟨t, ht, hs, hr⟩ ↦ ⟨hr ▸ ht, hs⟩, fun ⟨hr, hs⟩ ↦ ⟨r, hr, hs, rfl⟩⟩

/-- What resolves reads. -/
theorem isReadable_of_ofString (h : ofString s = .ok m) : m.IsReadable := by
  obtain ⟨hr, rfl⟩ := ofString_eq_ok_iff.1 h
  obtain ⟨e, _, _, he, -⟩ := exists_ofString_of_resolveText hr
  exact ⟨e, he⟩

/-- A product of measures, taken apart: both texts read, and the text is that of the product. -/
theorem product_eq_ok_iff : m.product n = .ok p ↔ ∃ e f, Expression.ofString m.text = .ok e ∧
    Expression.ofString n.text = .ok f ∧
    ⟨(e.product f).text, m.resolution.times n.resolution⟩ = p := by
  simp [product, bind_eq_ok_iff]

/-- A quotient of measures, taken apart. Unlike a product it may fail by its scale. -/
theorem quotient_eq_ok_iff : m.quotient n = .ok p ↔ ∃ e f r, Expression.ofString m.text = .ok e ∧
    Expression.ofString n.text = .ok f ∧ m.resolution.combine n.resolution = .ok r ∧
    ⟨(e.quotient f).text, r⟩ = p := by
  simp [quotient, bind_eq_ok_iff]

/-- An inverse, taken apart: its scale and signature are those of one over the unit. -/
theorem inverted_eq_ok_iff : m.inverted = .ok n ↔ ∃ e r, Expression.ofString m.text = .ok e ∧
    Resolution.unity.combine m.resolution = .ok r ∧ ⟨e.inverted.text, r⟩ = n := by
  simp [inverted, bind_eq_ok_iff]

/-- The text of a product reads as the product of what was read, with its exponents read back. -/
theorem ofString_of_product (h : m.product n = .ok p) :
    ∃ e f, Expression.ofString m.text = .ok e ∧ Expression.ofString n.text = .ok f ∧
      Expression.ofString p.text = .ok (e.product f).reread := by
  obtain ⟨e, f, he, hf, rfl⟩ := product_eq_ok_iff.1 h
  exact ⟨e, f, he, hf, Expression.ofString_text ((Expression.isReadable_of_ofString he).product
    (Expression.isReadable_of_ofString hf))⟩

/-- Likewise for a quotient. -/
theorem ofString_of_quotient (h : m.quotient n = .ok p) :
    ∃ e f, Expression.ofString m.text = .ok e ∧ Expression.ofString n.text = .ok f ∧
      Expression.ofString p.text = .ok (e.quotient f).reread := by
  obtain ⟨e, f, r, he, hf, -, rfl⟩ := quotient_eq_ok_iff.1 h
  exact ⟨e, f, he, hf, Expression.ofString_text ((Expression.isReadable_of_ofString he).quotient
    (Expression.isReadable_of_ofString hf))⟩

/-- Likewise for an inverse, in which the two sides of the line have changed places. -/
theorem ofString_of_inverted (h : m.inverted = .ok n) :
    ∃ e, Expression.ofString m.text = .ok e ∧
      Expression.ofString n.text = .ok e.inverted.reread := by
  obtain ⟨e, r, he, -, rfl⟩ := inverted_eq_ok_iff.1 h
  exact ⟨e, he, Expression.ofString_text (Expression.isReadable_of_ofString he).inverted⟩

/-- What was resolved reads as the expression it was resolved from. -/
theorem ofString_of_ofString_trimmed {e : Expression} (h : ofString (Text.trimmed s) = .ok m)
    (he : Expression.ofString s = .ok e) : Expression.ofString m.text = .ok e := by
  rw [← (ofString_eq_ok_iff.1 h).2, Expression.ofString_trimmed, he]

/-- The text reads as an expression with the property. -/
def Reads (P : Expression → Prop) (m : Measure) : Prop :=
  ∃ e, Expression.ofString m.text = .ok e ∧ P e

/-- A text reads as one expression only. -/
theorem Reads.of_ofString {P : Expression → Prop} {e : Expression} (h : m.Reads P)
    (he : Expression.ofString m.text = .ok e) : P e := by
  obtain ⟨e', he', h⟩ := h
  exact Except.ok.inj (he'.symm.trans he) ▸ h

/-- **A property that arithmetic keeps** holds of what the text of every measure that a command
yields reads as, given that it does for the old ones and for the expression that is supplied. -/
theorem reads_of_yields {c : Command} {P : Expression → Prop} (hP : Expression.IsClosed P)
    (hsupplied : ∀ s e, c.expression? = some s → ofString (Text.trimmed s) = .ok m →
      Expression.ofString s = .ok e → P e)
    (h : c.Yields (Reads P) m) : m.Reads P := by
  cases h with
  | kept hm => exact hm
  | @supplied s _ hs hm =>
    obtain ⟨e, he⟩ := isReadable_of_ofString hm
    rw [← (ofString_eq_ok_iff.1 hm).2, Expression.ofString_trimmed] at he
    exact ⟨e, ofString_of_ofString_trimmed hm he, hsupplied s e hs hm he⟩
  | reread hn hm =>
    obtain ⟨e, he, h⟩ := hn
    exact ⟨e, ofString_of_ofString_trimmed hm he, h⟩
  | product hm hn hp =>
    obtain ⟨e, f, he, hf, hread⟩ := ofString_of_product hp
    exact ⟨_, hread, hP.reread (hP.product (hm.of_ofString he) (hn.of_ofString hf))⟩
  | quotient hm hn hp =>
    obtain ⟨e, f, he, hf, hread⟩ := ofString_of_quotient hp
    exact ⟨_, hread, hP.reread (hP.quotient (hm.of_ofString he) (hn.of_ofString hf))⟩
  | inverted hm hn =>
    obtain ⟨e, he, hread⟩ := ofString_of_inverted hn
    exact ⟨_, hread, hP.reread (hP.inverted (hm.of_ofString he))⟩

/-! ### Faults of composed measures -/

/-- A product of readable measures always exists. -/
theorem exists_product_ok (hm : m.IsReadable) (hn : n.IsReadable) : ∃ p, m.product n = .ok p := by
  obtain ⟨e, he⟩ := hm
  obtain ⟨f, hf⟩ := hn
  exact ⟨_, product_eq_ok_iff.2 ⟨e, f, he, hf, rfl⟩⟩

/-- A quotient of readable measures fails by the scale of the divisor. -/
theorem quotient_eq_error_iff (hm : m.IsReadable) (hn : n.IsReadable) :
    m.quotient n = .error f ↔ n.scale == 0.0 ∧ f = .zeroScale n.signature.text := by
  obtain ⟨e, he⟩ := hm
  obtain ⟨e', he'⟩ := hn
  simp [quotient, he, he', bind_eq_error_iff, combine_eq_error_iff, scale, signature]

/-- The inverse of a readable measure fails by its scale. -/
theorem inverted_eq_error_iff (hm : m.IsReadable) :
    m.inverted = .error f ↔ m.scale == 0.0 ∧ f = .zeroScale m.signature.text := by
  obtain ⟨e, he⟩ := hm
  simp [inverted, he, bind_eq_error_iff, combine_eq_error_iff, scale, signature]

end Measure

/-- **Every unit text in a run reads.** This is the invariant without any property of
expressions, and needs nothing of the expressions that are supplied. -/
theorem isReadable_of_mem_run {cs : List Command} {q : Quantity} (h : q ∈ Command.run cs) :
    q.IsReadable := by
  intro m hm
  have hclosed : Expression.IsClosed fun _ ↦ True := ⟨by simp, by simp, by simp, by simp⟩
  obtain ⟨e, he, -⟩ := Command.forall_measure_run
    (fun _ _ _ ↦ Measure.reads_of_yields hclosed fun _ _ _ _ _ ↦ trivial) q h m hm
  exact ⟨e, he⟩

/-- The fault is one of reading or resolving an expression. -/
def Fault.isOfExpression : Fault → Bool
  | .strayExponent _ | .strayNumber _ | .unknownUnit _ | .cycle _ => true
  | .mismatch _ _ | .exponentWithUnit _ | .zeroScale _ => false

/-! ### Faults of operations -/

namespace Quantity

variable {q r : Quantity} {f : Fault}

/-- The operands have different unit texts and unequal signatures, which is the fault. -/
def Mismatched (q r : Quantity) (f : Fault) : Prop :=
  ∃ m n, q.measure = some m ∧ r.measure = some n ∧ m.text ≠ n.text ∧
    (m.signature == n.signature) = false ∧ f = .mismatch m.text n.text

/-- Aligning fails by two units of different text and signature, and by nothing else: the factor
between them is a quotient of doubles, which always has a value. -/
theorem align_eq_error_iff : q.align r = .error f ↔ q.Mismatched r f := by
  rw [align, Mismatched]
  cases q.measure with
  | none => simp
  | some m =>
    cases r.measure with
    | none => simp
    | some n =>
      by_cases htext : m.text = n.text
      · simp [htext]
      · have hcomm : Fault.mismatch m.text n.text = f ↔ f = .mismatch m.text n.text := eq_comm
        cases hsignature : m.signature == n.signature <;> simp [htext, hsignature, hcomm]

/-- What is computed from aligned values fails as aligning does. -/
theorem bind_align_eq_error_iff {α : Type} {g : Float × Float → α} :
    (q.align r >>= fun p ↦ pure (g p)) = .error f ↔ q.Mismatched r f := by
  rw [← align_eq_error_iff]
  cases q.align r <;> simp

/-- Sums, differences and remainders fail as aligning does. -/
theorem apply_eq_error_iff_mismatched {op : Operation} (hop : op ∈ [.add, .subtract, .remainder]) :
    q.apply op r = .error f ↔ q.Mismatched r f := by
  simp only [List.mem_cons, List.not_mem_nil, or_false] at hop
  rcases hop with rfl | rfl | rfl
  all_goals exact bind_align_eq_error_iff

/-- A power fails by an exponent with a unit. The unit of the base has no part in it. -/
theorem apply_power_eq_error_iff :
    q.apply .power r = .error f ↔ ∃ n, r.measure = some n ∧ f = .exponentWithUnit n.text := by
  rw [apply]
  cases r.measure <;> simp [eq_comm]

/-- A product fails by the texts of the units only. -/
theorem exists_apply_multiply_ok (hq : q.IsReadable) (hr : r.IsReadable) :
    ∃ p, q.apply .multiply r = .ok p := by
  suffices h : ∃ p, productMeasure q.measure r.measure = .ok p by
    obtain ⟨p, hp⟩ := h
    exact ⟨_, by rw [apply, hp, ok_bind, pure_eq_ok]⟩
  unfold productMeasure
  split
  · rename_i m n hm hn
    split
    · exact ⟨_, rfl⟩
    · obtain ⟨p, hp⟩ := Measure.exists_product_ok (hq m hm) (hr n hn)
      exact ⟨some p, by rw [hp]; rfl⟩
  all_goals exact ⟨_, rfl⟩

/-- A quotient fails by the scale of its divisor, which must not be zero unless both units have
the same text. -/
theorem apply_divide_eq_error_iff (hq : q.IsReadable) (hr : r.IsReadable) :
    q.apply .divide r = .error f ↔ ∃ n, r.measure = some n ∧ n.scale == 0.0 ∧
      q.unit? ≠ some n.text ∧ f = .zeroScale n.signature.text := by
  have hmap : ∀ {x : Except Fault Measure}, some <$> x = .error f ↔ x = .error f := by
    intro x
    cases x <;> simp
  have hmeasure : q.apply .divide r = .error f ↔
      quotientMeasure q.measure r.measure = .error f := by
    rw [apply]
    cases quotientMeasure q.measure r.measure <;> simp
  rw [hmeasure, unit?]
  cases hn : r.measure with
  | none => cases q.measure <;> simp [quotientMeasure]
  | some n =>
    cases hm : q.measure with
    | none =>
      rw [quotientMeasure, hmap, Measure.inverted_eq_error_iff (hr n hn)]
      simp
    | some m =>
      rw [quotientMeasure]
      -- operands with one text keep it, and no scale is looked at
      by_cases htext : m.text = n.text
      · simp [htext]
      · rw [if_neg htext, hmap, Measure.quotient_eq_error_iff (hq m hm) (hr n hn)]
        simp [htext]

/-- An inverse fails by the scale of what is inverted. -/
theorem invert_eq_error_iff (hq : q.IsReadable) :
    q.invert = .error f ↔
      ∃ m, q.measure = some m ∧ m.scale == 0.0 ∧ f = .zeroScale m.signature.text := by
  rw [invert]
  cases hm : q.measure with
  | none => simp
  | some m =>
    simp only [Option.some.injEq, exists_eq_left', ← Measure.inverted_eq_error_iff (hq m hm)]
    cases m.inverted <;> simp

/-- **Arithmetic on the quantities of runs has exactly the faults that belong to it**, and none
that an expression can have.

The scale in question is the one that is stored with the unit, and zero is the only value of it
that matters. It may have been reached by underflow, as the texts of a run can be arbitrarily
long. -/
theorem faults_of_mem_run {cs ds : List Command} (hq : q ∈ Command.run cs)
    (hr : r ∈ Command.run ds) :
    (∃ p, q.apply .multiply r = .ok p) ∧
    (∀ f, q.apply .divide r = .error f ↔ ∃ n, r.measure = some n ∧ n.scale == 0.0 ∧
      q.unit? ≠ some n.text ∧ f = .zeroScale n.signature.text) ∧
    (∀ f, q.invert = .error f ↔
      ∃ m, q.measure = some m ∧ m.scale == 0.0 ∧ f = .zeroScale m.signature.text) ∧
    (∀ f, q.apply .power r = .error f ↔
      ∃ n, r.measure = some n ∧ f = .exponentWithUnit n.text) ∧
    (∀ op ∈ [Operation.add, .subtract, .remainder], ∀ f,
      q.apply op r = .error f ↔ q.Mismatched r f) ∧
    (∀ f, q.divMod r = .error f ↔ q.Mismatched r f) ∧
    (∀ f, q.compare r = .error f ↔ q.Mismatched r f) ∧
    (∀ f, (∃ op, q.apply op r = .error f) ∨ q.invert = .error f ∨ q.divMod r = .error f ∨
      q.compare r = .error f → f.isOfExpression = false) := by
  have hq := isReadable_of_mem_run hq
  have hr := isReadable_of_mem_run hr
  have hmultiply := exists_apply_multiply_ok hq hr
  refine ⟨hmultiply, fun _ ↦ apply_divide_eq_error_iff hq hr, fun _ ↦ invert_eq_error_iff hq,
    fun _ ↦ apply_power_eq_error_iff, fun _ hop _ ↦ apply_eq_error_iff_mismatched hop,
    fun _ ↦ bind_align_eq_error_iff, fun _ ↦ bind_align_eq_error_iff, ?_⟩
  have hmismatch : ∀ {f}, q.Mismatched r f → f.isOfExpression = false := by
    rintro f ⟨m, n, -, -, -, -, rfl⟩
    rfl
  rintro f (⟨op, hop⟩ | hinvert | hdivMod | hcompare)
  · cases op with
    | add | subtract | remainder =>
      exact hmismatch ((apply_eq_error_iff_mismatched (by simp)).1 hop)
    | multiply =>
      obtain ⟨p, hp⟩ := hmultiply
      simp [hp] at hop
    | divide =>
      obtain ⟨n, -, -, -, rfl⟩ := (apply_divide_eq_error_iff hq hr).1 hop
      rfl
    | power =>
      obtain ⟨n, -, rfl⟩ := apply_power_eq_error_iff.1 hop
      rfl
  · obtain ⟨m, -, -, rfl⟩ := (invert_eq_error_iff hq).1 hinvert
    rfl
  · exact hmismatch (bind_align_eq_error_iff.1 hdivMod)
  · exact hmismatch (bind_align_eq_error_iff.1 hcompare)

/-- A length divided by a product whose scale has underflowed. -/
theorem faults_of_mem_run_underflow :
    ∃ cs, ∃ q ∈ Command.run cs, ∃ r ∈ Command.run cs, (∃ p, q.apply .multiply r = .ok p) ∧
      ∃ f, q.apply .divide r = .error f ∧ f.isOfExpression = false := by
  obtain ⟨cs, hcs⟩ : ∃ cs : List Command, cs = [.withUnit 6.0 "m",
    .withUnit 2.0 ("*".intercalate (List.replicate 28 "pm")), .apply .multiply 1 0] := ⟨_, rfl⟩
  have hoperands : (Command.run cs)[0]?.any fun q ↦ (Command.run cs)[2]?.any fun r ↦
      r.measure.any fun n ↦ n.scale == 0.0 && q.unit? != some n.text := by
    rw [hcs]
    decide +kernel
  simp only [Option.any_eq_true, Bool.and_eq_true, bne_iff_ne] at hoperands
  obtain ⟨q, hq, r, hr, n, hn, hscale, htext⟩ := hoperands
  have hq := List.mem_of_getElem? hq
  have hr := List.mem_of_getElem? hr
  obtain ⟨hmultiply, hdivide, -, -, -, -, -, hfault⟩ := faults_of_mem_run hq hr
  have herror := (hdivide _).2 ⟨n, hn, hscale, htext, rfl⟩
  exact ⟨cs, q, hq, r, hr, hmultiply, _, herror, hfault _ (.inl ⟨_, herror⟩)⟩

end Quantity

end DimensionalAnalysis
