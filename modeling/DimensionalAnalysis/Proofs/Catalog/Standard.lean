import DimensionalAnalysis.Proofs.Number.Shortest
import DimensionalAnalysis.Proofs.Resolution.Nesting
import DimensionalAnalysis.Proofs.Signature.Exact

/-!
# What the units of the standard catalog resolve to

A token that resolves names a base unit or a compound, with a factor in front
(`resolveUnit_standard_cases`). There are finitely many of each, so that what holds of all of
them is decided by going through the tables.

* The entries are integers, and small ones: the largest is the exponent of time in a watt. A
  base unit has one entry, which is one, and a prefix changes the scale of a unit and not its
  signature.
* The scales are positive numbers, and far from the limits of the range of doubles.

Both are checked by a Boolean function on the tables, which the kernel evaluates, and the lemmas
around it say what its answer means (`isSmallInteger`, `isModerate`). A change of the tables is
then a new evaluation and no new proof.
-/

namespace DimensionalAnalysis.Catalog

open Number (rational?)

variable {c : Catalog} {token : String}

/-! ### Looking up -/

/-- A token is read as a symbol, or else as the letter of a prefix and a symbol. -/
theorem lookUp_eq_some_iff {α : Type} {find : String → Option α} {unit : α} {multiplier : Float} :
    c.lookUp find token = some (unit, multiplier) ↔
      find token = some unit ∧ multiplier = 1.0 ∨
      find token = none ∧ ∃ letter symbol, token.toList = letter :: symbol.toList ∧ symbol ≠ "" ∧
        c.multiplier? letter = some multiplier ∧ find symbol = some unit := by
  unfold lookUp
  cases hfind : find token with
  | some found =>
    have hcomm : (1.0 : Float) = multiplier ↔ multiplier = 1.0 := eq_comm
    simp [hcomm]
  | none =>
    simp only [reduceCtorEq, false_and, true_and, false_or]
    split
    · rename_i hchars
      simp [hchars]
    · rename_i letter hchars
      simp only [hchars, reduceCtorEq, false_iff, not_exists, not_and]
      intro letter' symbol hsymbol hne
      exact absurd (by simpa using (List.cons.inj hsymbol).2.symm) hne
    · rename_i letter chars hne hchars
      simp only [Option.bind_eq_bind, Option.pure_def, Option.bind_eq_some_iff, Option.some.injEq,
        Prod.mk.injEq, hchars, List.cons.injEq]
      constructor
      · rintro ⟨_, hmultiplier, _, hunit, rfl, rfl⟩
        exact ⟨letter, String.ofList chars, ⟨rfl, (String.toList_ofList).symm⟩,
          fun h ↦ hne (by simpa using congrArg String.toList h), hmultiplier, hunit⟩
      · rintro ⟨_, symbol, ⟨rfl, rfl⟩, -, hmultiplier, hunit⟩
        exact ⟨_, hmultiplier, _, by rwa [String.ofList_toList], rfl, rfl⟩

/-- Behind every reading of a token there is an entry of the table. -/
theorem exists_find_of_lookUp {α : Type} {find : String → Option α} {unit : α} {multiplier : Float}
    (h : c.lookUp find token = some (unit, multiplier)) : ∃ symbol, find symbol = some unit := by
  obtain ⟨hunit, -⟩ | ⟨-, -, symbol, -, -, -, hunit⟩ := lookUp_eq_some_iff.1 h
  · exact ⟨token, hunit⟩
  · exact ⟨symbol, hunit⟩

/-- The factors that tokens put in front of a unit: one, for the bare symbol, and the prefixes. -/
def multipliers (c : Catalog) : List Float :=
  1.0 :: c.prefixes.map (·.multiplier)

/-- The factor in front of a unit is one or comes from a prefix. -/
theorem mem_multipliers_of_lookUp {α : Type} {find : String → Option α} {unit : α}
    {multiplier : Float} (h : c.lookUp find token = some (unit, multiplier)) :
    multiplier ∈ c.multipliers := by
  obtain ⟨-, rfl⟩ | ⟨-, letter, -, -, -, hmultiplier, -⟩ := lookUp_eq_some_iff.1 h
  · exact List.mem_cons_self
  · rw [multiplier?, Option.map_eq_some_iff] at hmultiplier
    obtain ⟨p, hp, rfl⟩ := hmultiplier
    exact List.mem_cons_of_mem _ (List.mem_map.2 ⟨p, List.mem_of_find?_eq_some hp, rfl⟩)

/-- A base unit that a token names is in the table. -/
theorem mem_baseUnits {unit : BaseUnit} {multiplier : Float}
    (h : c.baseUnit? token = some (unit, multiplier)) : unit ∈ c.baseUnits := by
  obtain ⟨symbol, hsymbol⟩ := exists_find_of_lookUp h
  exact List.mem_of_find?_eq_some hsymbol

/-- A compound unit that a token names is in the table. -/
theorem mem_compoundUnits {unit : CompoundUnit} {multiplier : Float}
    (h : c.compoundUnit? token = some (unit, multiplier)) : unit ∈ c.compoundUnits := by
  obtain ⟨symbol, hsymbol⟩ := exists_find_of_lookUp h
  exact List.mem_of_find?_eq_some hsymbol

/-- A token that resolves names a base unit, or a compound whose definition resolves. -/
theorem resolveUnit_standard_cases {r : Resolution} (h : standard.resolveUnit token = .ok r) :
    (∃ u ∈ standardBaseUnits, ∃ k ∈ standard.multipliers, r = ⟨.of u.dimension, u.scale * k⟩) ∨
      ∃ u ∈ standardCompoundUnits, ∃ k ∈ standard.multipliers, ∃ t,
        resolveText (standard.resolveToken 15 [u.symbol]) u.definition = .ok t ∧
          r = ⟨t.signature, t.scale * (u.scale * k)⟩ := by
  rcases hu : standard.compoundUnit? token with - | ⟨unit, multiplier⟩
  · rw [resolveUnit, resolveToken_base hu, resolveBase] at h
    split at h
    · rename_i unit multiplier hu
      exact .inl ⟨unit, mem_baseUnits hu, multiplier, mem_multipliers_of_lookUp hu,
        (Except.ok.inj h).symm⟩
    · simp at h
  · rw [resolveUnit_compound hu, bind_eq_ok_iff] at h
    obtain ⟨t, ht, h⟩ := h
    exact .inr ⟨unit, mem_compoundUnits hu, multiplier, mem_multipliers_of_lookUp hu, t, ht,
      (Except.ok.inj h).symm⟩

/-! ### Entries -/

/-- The number is an integer of magnitude at most three, as it is read from its digit. -/
def isSmallInteger (x : Float) : Bool :=
  (List.range 4).any fun n ↦
    x = Decimal.toFloat ⟨false, n, 0⟩ || x = Decimal.toFloat ⟨true, n, 0⟩

/-- What the check finds is an integer of magnitude at most three. -/
theorem exists_rational?_of_isSmallInteger {x : Float} (h : isSmallInteger x) :
    ∃ n : ℤ, |n| ≤ 3 ∧ rational? x = some (n : ℚ) := by
  simp only [isSmallInteger, List.any_eq_true, List.mem_range, Bool.or_eq_true,
    decide_eq_true_eq] at h
  obtain ⟨n, hn, hx⟩ := h
  have hvalue := Decimal.rational?_toFloat_whole (show n < 2 ^ 53 by omega)
  rcases hx with rfl | rfl
  · exact ⟨n, by rw [Nat.abs_cast]; omega, by simpa using hvalue.1⟩
  · exact ⟨-n, by rw [abs_neg, Nat.abs_cast]; omega, by simpa using hvalue.2⟩

/-- A base unit has the exponent one for its dimension and zero for the others. -/
theorem isSmallInteger_of (d d' : Dimension) : isSmallInteger ((Signature.of d').get d) := by
  cases d <;> cases d' <;> decide +kernel

/-- Every compound resolves, with small integers for entries. -/
theorem isSmallInteger_of_definition :
    ∀ u ∈ standardCompoundUnits, ∀ r,
      resolveText (standard.resolveToken 15 [u.symbol]) u.definition = .ok r →
        ∀ d, isSmallInteger (r.signature.get d) := by
  have hall : standardCompoundUnits.all fun u ↦
      match resolveText (standard.resolveToken 15 [u.symbol]) u.definition with
      | .ok r => Dimension.all.all fun d ↦ isSmallInteger (r.signature.get d)
      | .error _ => false := by decide +kernel
  intro u hu r hr d
  have hu := List.all_eq_true.1 hall u hu
  simp only [hr] at hu
  exact List.all_eq_true.1 hu d (Dimension.mem_all d)

/-- Every token that resolves in the standard catalog has small integers for entries. -/
theorem exists_entry_of_resolveUnit {r : Resolution} (h : standard.resolveUnit token = .ok r)
    (d : Dimension) : ∃ n : ℤ, |n| ≤ 3 ∧ rational? (r.signature.get d) = some (n : ℚ) := by
  refine exists_rational?_of_isSmallInteger ?_
  rcases resolveUnit_standard_cases h with ⟨u, -, k, -, rfl⟩ | ⟨u, hu, k, -, t, ht, rfl⟩
  · exact isSmallInteger_of d u.dimension
  · exact isSmallInteger_of_definition u hu t ht d

/-! ### Scales -/

/-- The number is positive, and far from the limits of the range. -/
def isModerate (x : Float) : Bool :=
  match x.toModel.unpack with
  | .finite .positive _ e _ => -110 ≤ e && e ≤ 10
  | _ => false

/-- What the check finds is a positive number, with a logarithm of moderate size: a significand
of at most 53 bits and an exponent between the bounds. -/
theorem exists_log_of_isModerate {x : Float} (h : isModerate x) :
    ∃ q : ℚ, rational? x = some q ∧ 0 < q ∧ |Real.log q| ≤ 80 := by
  have hcanonical := Number.canonical_unpack x.toModel
  unfold isModerate at h
  split at h
  · rename_i m e hm hu
    simp only [Bool.and_eq_true, decide_eq_true_eq] at h
    rw [hu] at hcanonical
    refine ⟨m * 2 ^ e, by rw [rational?, hu, Number.valueOf, Number.signFactor, one_mul],
      Number.mul_two_zpow_pos hm e, ?_⟩
    -- the logarithm is that of the significand and some times that of two
    have hmlow : (0 : ℝ) ≤ Real.log m := Real.log_natCast_nonneg m
    have hmhigh : Real.log m ≤ 53 * Real.log 2 := by
      have hle : (m : ℝ) ≤ 2 ^ 53 := by exact_mod_cast hcanonical.lt.le
      simpa using Real.log_le_log (by exact_mod_cast hm) hle
    have hlow : (-110 : ℝ) ≤ e := by exact_mod_cast h.1
    have hhigh : (e : ℝ) ≤ 10 := by exact_mod_cast h.2
    have htwo := Real.log_two_gt_d9
    have htwo' := Real.log_two_lt_d9
    rw [Rat.cast_mul, Rat.cast_natCast, Rat.cast_zpow, Rat.cast_ofNat,
      Real.log_mul (by exact_mod_cast hm.ne') (by positivity), Real.log_zpow, abs_le]
    constructor <;> nlinarith
  · simp at h

/-- All prefixed base units have moderate scales. -/
theorem isModerate_of_baseUnit :
    ∀ u ∈ standardBaseUnits, ∀ k ∈ standard.multipliers, isModerate (u.scale * k) := by
  have hall : standardBaseUnits.all fun u ↦ standard.multipliers.all fun k ↦
      isModerate (u.scale * k) := by decide +kernel
  exact fun u hu k hk ↦ List.all_eq_true.1 (List.all_eq_true.1 hall u hu) k hk

/-- All prefixed compounds have moderate scales. -/
theorem isModerate_of_definition :
    ∀ u ∈ standardCompoundUnits, ∀ k ∈ standard.multipliers, ∀ r,
      resolveText (standard.resolveToken 15 [u.symbol]) u.definition = .ok r →
        isModerate (r.scale * (u.scale * k)) := by
  have hall : standardCompoundUnits.all fun u ↦
      match resolveText (standard.resolveToken 15 [u.symbol]) u.definition with
      | .ok r => standard.multipliers.all fun k ↦ isModerate (r.scale * (u.scale * k))
      | .error _ => false := by decide +kernel
  intro u hu k hk r hr
  have hu := List.all_eq_true.1 hall u hu
  simp only [hr] at hu
  exact List.all_eq_true.1 hu k hk

/-- Every token that resolves in the standard catalog has a positive scale of moderate size. -/
theorem exists_log_of_resolveUnit {r : Resolution} (h : standard.resolveUnit token = .ok r) :
    ∃ q : ℚ, rational? r.scale = some q ∧ 0 < q ∧ |Real.log q| ≤ 80 := by
  refine exists_log_of_isModerate ?_
  rcases resolveUnit_standard_cases h with ⟨u, hu, k, hk, rfl⟩ | ⟨u, hu, k, hk, t, ht, rfl⟩
  · exact isModerate_of_baseUnit u hu k hk
  · exact isModerate_of_definition u hu k hk t ht

end DimensionalAnalysis.Catalog
