import Mathlib

/-!
# Computations that may fail

Splitting, resolving and computing with quantities are sequences of steps in `Except`, of which
each may end the whole. How such a sequence comes to succeed, and how it comes to fail, is said
here once: it succeeds when both of its steps do, and fails with the first fault it meets.

The lemmas are equivalences, so that a success is taken apart and put together by the same one
(`bind_eq_ok_iff`, `mapM_eq_ok_iff`). For statements on faults alone, `fault?` forgets what is
computed.
-/

namespace DimensionalAnalysis

variable {ε α β : Type}

/-- Outcomes are compared as their faults or values are. -/
instance outcomeDecidableEq [DecidableEq ε] [DecidableEq α] : DecidableEq (Except ε α)
  | .error e, .error f => decidable_of_iff (e = f) (by simp)
  | .ok a, .ok b => decidable_of_iff (a = b) (by simp)
  | .error _, .ok _ => isFalse (by simp)
  | .ok _, .error _ => isFalse (by simp)

/-- A step that succeeds hands its value on. -/
@[simp]
theorem ok_bind (a : α) (f : α → Except ε β) : (Except.ok a >>= f) = f a :=
  rfl

/-- A step that fails ends the sequence, whatever comes behind it. -/
@[simp]
theorem error_bind (e : ε) (f : α → Except ε β) : (Except.error e >>= f) = .error e :=
  rfl

@[simp]
theorem map_ok (f : α → β) (a : α) : f <$> (Except.ok a : Except ε α) = .ok (f a) :=
  rfl

@[simp]
theorem map_error (f : α → β) (e : ε) : f <$> (Except.error e : Except ε α) = .error e :=
  rfl

/-- A sequence succeeds when both steps do, the second one on the value of the first. -/
theorem bind_eq_ok_iff {x : Except ε α} {f : α → Except ε β} {b : β} :
    (x >>= f) = .ok b ↔ ∃ a, x = .ok a ∧ f a = .ok b := by
  cases x <;> simp

/-- A sequence fails in its first step, or in its second step behind a first one that succeeds.
-/
theorem bind_eq_error_iff {x : Except ε α} {f : α → Except ε β} {e : ε} :
    (x >>= f) = .error e ↔ x = .error e ∨ ∃ a, x = .ok a ∧ f a = .error e := by
  cases x <;> simp

@[simp]
theorem pure_eq_ok (a : α) : (pure a : Except ε α) = .ok a :=
  rfl

theorem map_eq_ok_iff {x : Except ε α} {f : α → β} {b : β} :
    x.map f = .ok b ↔ ∃ a, x = .ok a ∧ f a = b := by
  cases x <;> simp [Except.map]

theorem map_eq_error_iff {x : Except ε α} {f : α → β} {e : ε} :
    x.map f = .error e ↔ x = .error e := by
  cases x <;> simp [Except.map]

/-- Rewording a fault changes no success. -/
theorem mapError_eq_ok_iff {x : Except ε α} {f : ε → β} {a : α} :
    x.mapError f = .ok a ↔ x = .ok a := by
  cases x <;> simp [Except.mapError]

/-- Rewording a fault makes none and takes none away. -/
theorem mapError_eq_error_iff {x : Except ε α} {f : ε → β} {e : β} :
    x.mapError f = .error e ↔ ∃ e', x = .error e' ∧ f e' = e := by
  cases x <;> simp [Except.mapError]

/-- A computation on each item of a list succeeds when it does on every item, and the values
stand in the order of the items. -/
theorem mapM_eq_ok_iff {f : α → Except ε β} {l : List α} {bs : List β} :
    l.mapM f = .ok bs ↔ List.Forall₂ (fun a b ↦ f a = .ok b) l bs := by
  induction l generalizing bs with
  | nil => simp [eq_comm]
  | cons a l ih =>
    simp only [List.mapM_cons, bind_eq_ok_iff, pure_eq_ok, Except.ok.injEq,
      List.forall₂_cons_left_iff, ih]
    constructor
    · rintro ⟨b, hb, rest, hrest, rfl⟩
      exact ⟨b, rest, hb, hrest, rfl⟩
    · rintro ⟨b, rest, hb, hrest, rfl⟩
      exact ⟨b, hb, rest, hrest, rfl⟩

/-- Whether all items succeed is a question on each item alone. -/
theorem exists_mapM_eq_ok_iff {f : α → Except ε β} {l : List α} :
    (∃ bs, l.mapM f = .ok bs) ↔ ∀ a ∈ l, ∃ b, f a = .ok b := by
  induction l with
  | nil => simp
  | cons a l ih => simp [List.mapM_cons, bind_eq_ok_iff, ← ih]

theorem toOption_eq_some_iff {x : Except ε α} {a : α} : x.toOption = some a ↔ x = .ok a := by
  cases x <;> simp [Except.toOption]

/-- What is known to succeed has a value. -/
theorem exists_ok_of_isOk {x : Except ε α} (h : x.isOk) : ∃ a, x = .ok a := by
  cases x with
  | error e => simp [Except.isOk, Except.toBool] at h
  | ok a => exact ⟨a, rfl⟩

/-! ### Faults -/

/-- The fault of a computation, if it fails. -/
def fault? : Except ε α → Option ε
  | .error e => some e
  | .ok _ => none

theorem fault?_eq_some_iff {x : Except ε α} {e : ε} : fault? x = some e ↔ x = .error e := by
  cases x <;> simp [fault?]

/-- What is computed from a value fails as the value does. -/
theorem fault?_bind_pure {x : Except ε α} {f : α → β} :
    fault? (x >>= fun a ↦ pure (f a)) = fault? x := by
  cases x <;> rfl

/-- Changing the value changes no fault. -/
theorem fault?_map {x : Except ε α} {f : α → β} : fault? (f <$> x) = fault? x := by
  cases x <;> rfl

/-! ### Procedures

A procedure works on a state and may fail, and a fault leaves the state as it is by then. -/

section Procedures

variable {σ : Type}

/-- A computation that comes first does nothing to the state, and ends the procedure if it fails. -/
theorem run_liftExcept_bind (x : Except ε α) (f : α → ExceptT ε (StateM σ) β) (s : σ) :
    (liftExcept x >>= f).run.run s = match x with
      | .ok a => (f a).run.run s
      | .error e => (.error e, s) := by
  cases x <;> rfl

end Procedures

end DimensionalAnalysis
