import DimensionalAnalysis.Dimension

/-!
# Signatures

The signature of a unit gives each base dimension an exponent: a force has mass 1, length 1
and time -2. Exponents are doubles, since units may be raised to fractional powers.

A dimension may be **absent** or have a **stored** exponent, and a stored exponent may be
zero: `m/m` stores a zero for length, the empty expression stores nothing. The distinction
shows in the stored entries alone. `get` reads an absent exponent as zero, and equality, text
and the nonzero entries are all defined through it.

`Signature.entry` is the view by which the operations are described: each of them says what
is stored at each dimension (`entry_increment`, `entry_merge`, …).
-/

namespace DimensionalAnalysis

/-- The stored exponent of each base dimension, if there is one. -/
structure Signature where
  length : Option Float
  mass : Option Float
  time : Option Float
  charge : Option Float
  temperature : Option Float
  amount : Option Float
deriving DecidableEq

namespace Signature

/-! ### Entries -/

/-- What is stored at a dimension. -/
def entry (s : Signature) : Dimension → Option Float
  | .length => s.length
  | .mass => s.mass
  | .time => s.time
  | .charge => s.charge
  | .temperature => s.temperature
  | .amount => s.amount

/-- The signature that stores the given entries. -/
def ofEntries (f : Dimension → Option Float) : Signature :=
  ⟨f .length, f .mass, f .time, f .charge, f .temperature, f .amount⟩

@[simp]
theorem entry_ofEntries (f : Dimension → Option Float) : (ofEntries f).entry = f := by
  funext d
  cases d <;> rfl

@[ext]
theorem ext_entry {s t : Signature} (h : ∀ d, s.entry d = t.entry d) : s = t := by
  obtain ⟨⟩ := s
  obtain ⟨⟩ := t
  simpa [entry] using And.intro (h .length) (And.intro (h .mass) (And.intro (h .time)
    (And.intro (h .charge) (And.intro (h .temperature) (h .amount)))))

/-- The exponent of a dimension, zero where none is stored. -/
def get (s : Signature) (d : Dimension) : Float :=
  (s.entry d).getD 0.0

/-- The stored entries in the order of the dimensions. -/
def toList (s : Signature) : List (Dimension × Float) :=
  Dimension.all.filterMap fun d ↦ (s.entry d).map (d, ·)

/-! ### Building -/

/-- The signature that stores nothing. -/
def empty : Signature :=
  ofEntries fun _ ↦ none

instance : Inhabited Signature := ⟨empty⟩

/-- Adds to the exponent of one dimension, which is stored from then on. -/
def increment (s : Signature) (d : Dimension) (x : Float) : Signature :=
  ofEntries fun e ↦ if e = d then some (s.get d + x) else s.entry e

/-- The signature of a unit of one dimension. -/
def of (d : Dimension) : Signature :=
  empty.increment d 1.0

/-- The signature of a list of entries; entries of one dimension add up. -/
def ofList (entries : List (Dimension × Float)) : Signature :=
  entries.foldl (fun s (d, x) ↦ s.increment d x) empty

/-! ### Arithmetic

The entries of the right operand are added to the left one. A dimension absent on the right
keeps what the left one stores, bit for bit. -/

/-- The entrywise sum over the dimensions of either operand. -/
def merge (s t : Signature) : Signature :=
  ofEntries fun d ↦ match t.entry d with
    | some x => some (s.get d + x)
    | none => s.entry d

/-- The entrywise difference over the dimensions of either operand. -/
def subtract (s t : Signature) : Signature :=
  ofEntries fun d ↦ match t.entry d with
    | some x => some (s.get d + -x)
    | none => s.entry d

/-- Every stored exponent multiplied by a factor. -/
def scaled (s : Signature) (factor : Float) : Signature :=
  ofEntries fun d ↦ (s.entry d).map (· * factor)

instance : Add Signature := ⟨merge⟩

instance : Sub Signature := ⟨subtract⟩

instance : Neg Signature := ⟨fun s ↦ s.scaled (-1.0)⟩

instance : HMul Signature Float Signature := ⟨scaled⟩

/-- The signature without its zero entries. -/
def normalized (s : Signature) : Signature :=
  ofEntries fun d ↦ (s.entry d).filter (· != 0.0)

/-! ### Comparison -/

/-- No dimension has an exponent other than zero. -/
def isDimensionless (s : Signature) : Bool :=
  Dimension.all.all fun d ↦ s.get d == 0.0

/-- The entries other than zero, in the order of the dimensions. A NaN is other than zero. -/
def nonzero (s : Signature) : List (Dimension × Float) :=
  s.toList.filter fun (_, x) ↦ x != 0.0

/-- Two signatures are equal when no dimension shows a difference. An infinite exponent or a
NaN differs from every exponent, itself included. -/
instance : BEq Signature where
  beq s t := Dimension.all.all fun d ↦ s.get d - t.get d == 0.0

/-- The two signatures describe one dimension, which is to say that they are equal. -/
def sameDimension (s t : Signature) : Bool :=
  s == t

/-! ### What is stored after each operation -/

@[simp]
theorem entry_empty (d : Dimension) : empty.entry d = none := by
  simp [empty]

theorem entry_increment (s : Signature) (d e : Dimension) (x : Float) :
    (s.increment d x).entry e = if e = d then some (s.get d + x) else s.entry e := by
  simp [increment]

theorem entry_merge (s t : Signature) (d : Dimension) :
    (s + t).entry d = match t.entry d with
      | some x => some (s.get d + x)
      | none => s.entry d := by
  show (s.merge t).entry d = _
  simp [merge]

theorem entry_subtract (s t : Signature) (d : Dimension) :
    (s - t).entry d = match t.entry d with
      | some x => some (s.get d + -x)
      | none => s.entry d := by
  show (s.subtract t).entry d = _
  simp [subtract]

theorem entry_scaled (s : Signature) (factor : Float) (d : Dimension) :
    (s.scaled factor).entry d = (s.entry d).map (· * factor) := by
  simp [scaled]

theorem entry_normalized (s : Signature) (d : Dimension) :
    s.normalized.entry d = (s.entry d).filter (· != 0.0) := by
  simp [normalized]

end Signature

end DimensionalAnalysis
