import DimensionalAnalysis.Proofs.Interchange
import DimensionalAnalysis.Quantity.Operation

/-!
# Runs

A quantity comes about by a **command**: from a number and an expression, from a text, or from
quantities that were made before. A **run** is a list of commands, and keeps every quantity it
has made, so that any of them can be an operand again. A command that fails adds nothing.

What matters about a command is where the measure of its result comes from. There are six ways
(`Command.Yields`, `yields_of_result`), and what passes from old measures to new ones in each of
them holds of every measure in every run (`forall_measure_run`).
-/

namespace DimensionalAnalysis

/-- An operation that makes a quantity. Its operands are positions in the list of the quantities
made so far.

The operations that return a quantity have a command each, so that a run can make whatever
quantities a program can. Comparisons return none, and are stated of quantities of runs. -/
inductive Command where
  | untyped (value : Float)
  | withUnit (value : Float) (expression : String)
  | setUnit (i : ℕ) (expression : String)
  | clearUnit (i : ℕ)
  | convert (i : ℕ) (target : String)
  | invert (i : ℕ)
  | apply (op : Operation) (i j : ℕ)
  | raiseTo (i : ℕ) (exponent : Float)
  | negate (i : ℕ)
  | scaleBy (i : ℕ) (factor : Float)
  | divideBy (i : ℕ) (divisor : Float)
  /-- Writes a quantity as JSON and reads it back, in any format of numbers. -/
  | reload (format : Json.LawfulFormat) (i : ℕ)
  /-- Reads a quantity from any JSON text. -/
  | read (format : Json.NumberFormat) (text : String)

namespace Command

/-- The quantity that a command makes; none if it fails or an operand is missing. -/
def result (qs : List Quantity) : Command → Option Quantity
  | untyped x => some (.untyped x)
  | withUnit x expression => (Quantity.withUnit x expression).toOption
  | setUnit i expression => qs[i]?.bind fun q ↦ (q.setUnit expression).toOption
  | clearUnit i => qs[i]?.map Quantity.clearUnit
  | convert i target => qs[i]?.bind fun q ↦ (q.convert target).toOption
  | invert i => qs[i]?.bind fun q ↦ q.invert.toOption
  | apply op i j => qs[i]?.bind fun q ↦ qs[j]?.bind fun r ↦ (q.apply op r).toOption
  | raiseTo i x => qs[i]?.map (·.raiseTo x)
  | negate i => qs[i]?.map Quantity.negate
  | scaleBy i x => qs[i]?.map (·.scaleBy x)
  | divideBy i x => qs[i]?.map (·.divideBy x)
  | reload format i => qs[i]?.bind fun q ↦ (q.reload format).toOption
  | read format text => (Quantity.ofText format text).toOption

/-- The expression that a command supplies. For a text it is the unit that the text names. -/
def expression? : Command → Option String
  | withUnit _ expression | setUnit _ expression => some expression
  | convert _ target => some target
  | read format text => do
    let (value, _) ← Json.read text.toList
    let (_, unit) ← Quantity.partsOfJson? format value
    unit
  | _ => none

/-- Adds the result of a command. -/
def step (qs : List Quantity) (c : Command) : List Quantity :=
  qs ++ (c.result qs).toList

/-- The quantities that the commands make, one after another. -/
def run (cs : List Command) : List Quantity :=
  cs.foldl step []

/-! ### Where measures come from -/

/-- A command yields a measure, given the old ones.

Each of the six ways leaves the resolver or the combination of measures to decide what the new
measure is. An invariant of measures is therefore proved in six cases and not for every command.
-/
inductive Yields (old : Measure → Prop) (c : Command) : Measure → Prop
  /-- The measure of an operand. -/
  | kept {m : Measure} (hm : old m) : Yields old c m
  /-- An expression that was supplied. -/
  | supplied {s : String} {m : Measure} (hs : c.expression? = some s)
      (hm : Measure.ofString (Text.trimmed s) = .ok m) : Yields old c m
  /-- The text of an old measure, resolved anew. -/
  | reread {m n : Measure} (hm : old m) (hn : Measure.ofString (Text.trimmed m.text) = .ok n) :
      Yields old c n
  /-- Two old measures, multiplied with one another. -/
  | product {m n p : Measure} (hm : old m) (hn : old n) (hp : m.product n = .ok p) : Yields old c p
  /-- One of them divided by the other. -/
  | quotient {m n p : Measure} (hm : old m) (hn : old n) (hp : m.quotient n = .ok p) :
      Yields old c p
  /-- The inverse of one of them. -/
  | inverted {m n : Measure} (hm : old m) (hn : m.inverted = .ok n) : Yields old c n

end Command

/-! ### Results of operations -/

namespace Quantity

variable {q r t : Quantity} {m p : Measure} {s : String}

/-- The measure of a quantity that was just made. -/
theorem eq_of_pure_eq_ok {n : Measure} {x : Float}
    (h : (pure ⟨x, some n⟩ : Except Fault Quantity) = .ok r) (hm : r.measure = some m) : n = m := by
  obtain rfl := Except.ok.inj h
  exact Option.some.inj hm

/-- A unit that was set is that of the expression without the blanks around it. -/
theorem ofString_of_setUnit (h : q.setUnit s = .ok r) (hm : r.measure = some m) :
    Measure.ofString (Text.trimmed s) = .ok m := by
  simp only [setUnit, bind_eq_ok_iff] at h
  obtain ⟨e, -, h⟩ := h
  split at h
  · obtain rfl := Except.ok.inj h
    simp at hm
  · obtain ⟨n, hn, h⟩ := bind_eq_ok_iff.1 h
    exact eq_of_pure_eq_ok h hm ▸ hn

/-- A quantity made from parts has the measure of the unit text, if there is one. -/
theorem ofString_of_ofParts {x : Float} {unit : Option String} (h : ofParts x unit = .ok r)
    (hm : r.measure = some m) :
    ∃ s, unit = some s ∧ Measure.ofString (Text.trimmed s) = .ok m := by
  cases unit with
  | none =>
    obtain rfl := Except.ok.inj h
    simp [untyped] at hm
  | some s => exact ⟨s, rfl, ofString_of_setUnit h hm⟩

/-- A quantity keeps having no measure, and otherwise gets that of the target. -/
theorem ofString_of_convert (h : q.convert s = .ok r) (hm : r.measure = some m) :
    Measure.ofString (Text.trimmed s) = .ok m := by
  rw [convert] at h
  split at h
  · rename_i hq
    obtain rfl := Except.ok.inj h
    simp [hq] at hm
  · obtain ⟨n, hn, h⟩ := bind_eq_ok_iff.1 h
    obtain ⟨factor, -, h⟩ := bind_eq_ok_iff.1 h
    exact eq_of_pure_eq_ok h hm ▸ hn

/-- An inverted quantity has the inverted measure, unless it has no measure at all. -/
theorem inverted_of_invert (h : q.invert = .ok r) (hm : r.measure = some m) :
    ∃ n, q.measure = some n ∧ n.inverted = .ok m := by
  rw [invert] at h
  split at h
  · obtain rfl := Except.ok.inj h
    simp at hm
  · rename_i n hq
    obtain ⟨k, hk, h⟩ := bind_eq_ok_iff.1 h
    exact ⟨n, hq, eq_of_pure_eq_ok h hm ▸ hk⟩

section Composed

variable {old : Measure → Prop} {c : Command} {m n : Option Measure}

open Command (Yields)

/-- The unit of a product is that of a factor, where the other one has none or the same text,
and otherwise the product of the measures. -/
theorem yields_of_productMeasure (hm : ∀ k, m = some k → old k) (hn : ∀ k, n = some k → old k)
    (h : productMeasure m n = .ok (some p)) : Yields old c p := by
  unfold productMeasure at h
  split at h
  · rename_i m n
    split at h
    · obtain rfl : m = p := by simpa using h
      exact .kept (hm m rfl)
    · obtain ⟨k, hk, hp⟩ := map_eq_ok_iff.1 h
      obtain rfl := Option.some.inj hp
      exact .product (hm m rfl) (hn n rfl) hk
  · rename_i m
    obtain rfl : m = p := by simpa using h
    exact .kept (hm m rfl)
  · rename_i n
    obtain rfl : n = p := by simpa using h
    exact .kept (hn n rfl)
  · simp at h

/-- The unit of a quotient is found likewise, except that a divisor with a unit leaves its
inverse where the dividend has none. -/
theorem yields_of_quotientMeasure (hm : ∀ k, m = some k → old k) (hn : ∀ k, n = some k → old k)
    (h : quotientMeasure m n = .ok (some p)) : Yields old c p := by
  unfold quotientMeasure at h
  split at h
  · rename_i m n
    split at h
    · obtain rfl : m = p := by simpa using h
      exact .kept (hm m rfl)
    · obtain ⟨k, hk, hp⟩ := map_eq_ok_iff.1 h
      obtain rfl := Option.some.inj hp
      exact .quotient (hm m rfl) (hn n rfl) hk
  · rename_i m
    obtain rfl : m = p := by simpa using h
    exact .kept (hm m rfl)
  · rename_i n
    obtain ⟨k, hk, hp⟩ := map_eq_ok_iff.1 h
    obtain rfl := Option.some.inj hp
    exact .inverted (hn n rfl) hk
  · simp at h

/-- What an operation on two quantities yields. A sum and a difference keep the measure of an
operand and a power that of its base, a remainder has none, and products and quotients combine
the two. -/
theorem yields_of_apply {op : Operation} (hq : ∀ k, q.measure = some k → old k)
    (hr : ∀ k, r.measure = some k → old k) (h : q.apply op r = .ok t) (ht : t.measure = some p) :
    Yields old c p := by
  -- sums and differences take the measure of the first operand that has one
  have hsum : (q.measure <|> r.measure) = some p → Yields old c p := by
    intro h
    cases hm : q.measure with
    | none => exact .kept (hr p (by simpa [hm] using h))
    | some k =>
      obtain rfl : k = p := by simpa [hm] using h
      exact .kept (hq k hm)
  unfold apply at h
  split at h
  · obtain ⟨⟨x, y⟩, -, h⟩ := bind_eq_ok_iff.1 h
    exact hsum (by rw [← ht, ← Except.ok.inj h])
  · obtain ⟨⟨x, y⟩, -, h⟩ := bind_eq_ok_iff.1 h
    exact hsum (by rw [← ht, ← Except.ok.inj h])
  · obtain ⟨⟨x, y⟩, -, h⟩ := bind_eq_ok_iff.1 h
    rw [← Except.ok.inj h] at ht
    simp at ht
  · obtain ⟨k, hk, h⟩ := bind_eq_ok_iff.1 h
    obtain rfl : k = some p := by rw [← ht, ← Except.ok.inj h]
    exact yields_of_productMeasure hq hr hk
  · obtain ⟨k, hk, h⟩ := bind_eq_ok_iff.1 h
    obtain rfl : k = some p := by rw [← ht, ← Except.ok.inj h]
    exact yields_of_quotientMeasure hq hr hk
  · split at h
    · simp at h
    · exact .kept (hq p (by rw [← ht, ← Except.ok.inj h]))

end Composed

end Quantity

namespace Command

/-! ### Runs -/

variable {P : Measure → Prop} {c : Command} {cs : List Command} {qs : List Quantity} {r : Quantity}
  {m : Measure}

/-- **Where the measure of a result comes from.** The commands that leave the unit as it is keep
the measure, those that take an expression resolve it, and those that read a quantity back
resolve the text that it had. -/
theorem yields_of_result (hqs : ∀ q ∈ qs, ∀ k, q.measure = some k → P k)
    (h : c.result qs = some r) (hm : r.measure = some m) : Yields P c m := by
  have hold : ∀ {i : ℕ} {q : Quantity}, qs[i]? = some q → ∀ k, q.measure = some k → P k :=
    fun hi ↦ hqs _ (List.mem_of_getElem? hi)
  -- an operation on one operand that leaves the measure alone
  have hkept : ∀ {i : ℕ} {f : Quantity → Quantity}, qs[i]?.map f = some r →
      (∀ q, (f q).measure = q.measure) → Yields P c m := by
    intro i f h hf
    obtain ⟨q, hq, rfl⟩ := Option.map_eq_some_iff.1 h
    exact .kept (hold hq m (hf q ▸ hm))
  cases c with
  | untyped x =>
    obtain rfl := Option.some.inj h
    simp [Quantity.untyped] at hm
  | withUnit x s =>
    have h : (Quantity.untyped x).setUnit s = .ok r := toOption_eq_some_iff.1 h
    exact .supplied rfl (Quantity.ofString_of_setUnit h hm)
  | setUnit i s =>
    obtain ⟨q, -, h⟩ := Option.bind_eq_some_iff.1 h
    exact .supplied rfl (Quantity.ofString_of_setUnit (toOption_eq_some_iff.1 h) hm)
  | clearUnit i =>
    obtain ⟨q, -, rfl⟩ := Option.map_eq_some_iff.1 h
    simp [Quantity.clearUnit] at hm
  | convert i s =>
    obtain ⟨q, -, h⟩ := Option.bind_eq_some_iff.1 h
    exact .supplied rfl (Quantity.ofString_of_convert (toOption_eq_some_iff.1 h) hm)
  | invert i =>
    obtain ⟨q, hq, h⟩ := Option.bind_eq_some_iff.1 h
    obtain ⟨n, hn, hinv⟩ := Quantity.inverted_of_invert (toOption_eq_some_iff.1 h) hm
    exact .inverted (hold hq n hn) hinv
  | apply op i j =>
    obtain ⟨q, hq, h⟩ := Option.bind_eq_some_iff.1 h
    obtain ⟨t, ht, h⟩ := Option.bind_eq_some_iff.1 h
    exact Quantity.yields_of_apply (hold hq) (hold ht) (toOption_eq_some_iff.1 h) hm
  | raiseTo i x => exact hkept h fun _ ↦ rfl
  | negate i => exact hkept h fun _ ↦ rfl
  | scaleBy i x => exact hkept h fun _ ↦ rfl
  | divideBy i x => exact hkept h fun _ ↦ rfl
  | reload format i =>
    obtain ⟨q, hq, h⟩ := Option.bind_eq_some_iff.1 h
    obtain ⟨-, hx⟩ := (Quantity.reload_eq_ok_iff format).1 (toOption_eq_some_iff.1 h)
    obtain ⟨s, hs, hm⟩ := Quantity.ofString_of_ofParts hx hm
    obtain ⟨n, hn, rfl⟩ := Option.map_eq_some_iff.1 hs
    exact .reread (hold hq n hn) hm
  | read format text =>
    obtain ⟨value, rest, x, unit, hread, hparts, hx⟩ :=
      Quantity.ofText_eq_ok (toOption_eq_some_iff.1 h)
    obtain ⟨s, rfl, hm⟩ := Quantity.ofString_of_ofParts hx hm
    exact .supplied (by simp [expression?, hread, hparts]) hm

/-- **Runs by their last command.** What holds of the result of every command, given that it
holds of all that the commands before it have made, holds of every quantity in a run. It may depend
on the number of commands, if it is not lost with more of them. -/
theorem forall_mem_run_length {Q : ℕ → Quantity → Prop} (hmono : ∀ k q, Q k q → Q (k + 1) q)
    (h : ∀ pre c post, cs = pre ++ c :: post → (∀ q ∈ run pre, Q pre.length q) →
      ∀ r, c.result (run pre) = some r → Q (pre.length + 1) r) :
    ∀ q ∈ run cs, Q cs.length q := by
  -- from the back: the last command works on what the others have made
  induction cs using List.reverseRecOn with
  | nil => simp [run]
  | append_singleton cs c ih =>
    have ih := ih fun pre d post hpre ↦ h pre d (post ++ [c]) (by simp [hpre])
    intro q hq
    rw [run, List.foldl_append, ← run] at hq
    rw [List.length_append, List.length_singleton]
    rcases List.mem_append.1 hq with hq | hq
    · exact hmono _ q (ih q hq)
    · exact h cs c [] rfl ih q (by simpa using hq)

/-- Without a bound by the number of commands. -/
theorem forall_mem_run {Q : Quantity → Prop}
    (h : ∀ pre c post, cs = pre ++ c :: post → (∀ q ∈ run pre, Q q) →
      ∀ r, c.result (run pre) = some r → Q r) :
    ∀ q ∈ run cs, Q q :=
  forall_mem_run_length (Q := fun _ ↦ Q) (fun _ _ hq ↦ hq) h

/-- **What passes from old measures to new ones holds of every measure in a run.** There is no
initial measure to start with, as a run starts with no quantity. -/
theorem forall_measure_run (h : ∀ c ∈ cs, ∀ m, Yields P c m → P m) :
    ∀ q ∈ run cs, ∀ m, q.measure = some m → P m :=
  forall_mem_run fun _ c _ hcs hold _ hresult m hm ↦
    h c (by simp [hcs]) m (yields_of_result hold hresult hm)

/-- A run keeps the result of every command. -/
theorem mem_run_of_result {pre post : List Command} {c : Command}
    (h : c.result (run pre) = some r) : r ∈ run (pre ++ c :: post) := by
  have hkeep : ∀ (cs : List Command) (qs : List Quantity), r ∈ qs → r ∈ cs.foldl step qs := by
    intro cs
    induction cs with
    | nil => exact fun _ h ↦ h
    | cons d cs ih => exact fun qs h ↦ ih _ (List.mem_append_left _ h)
  rw [run, List.foldl_append, List.foldl_cons, ← run]
  exact hkeep post _ (List.mem_append_right _ (by simp [h]))

end Command

end DimensionalAnalysis
