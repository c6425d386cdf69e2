import DimensionalAnalysis.Proofs.Catalog.Offences
import DimensionalAnalysis.Proofs.Resolution.Order

/-!
# What a symbol stands for

Each table of a catalog reads a bare symbol first, so that no symbol of a table is a prefix and
another symbol of that table: `min` is a minute, although there is a prefix `m` and an inch. But
the compound units are read before the base units, and read with prefixes. A base unit is
**shadowed** by a compound if its symbol is the letter of a prefix and the symbol of the
compound (`Catalog.Shadows`). It then has the signature of the compound, whatever its own
dimension is.

In a catalog whose symbols are distinct, and are units to whoever reads tokens, that is the only
way for a symbol not to stand for itself (`Catalog.resolveTokens_symbol`). No base unit of the
standard catalog is shadowed.

The order of the two searches is what makes the difference. A compound cannot be shadowed by a
base unit, since it is found before base units are looked at.
-/

namespace DimensionalAnalysis

/-- Adding the signature of a unit of one dimension to nothing gives it back. -/
theorem Signature.empty_add_of (d : Dimension) : (empty + of d : Signature) = of d := by
  cases d <;> decide +kernel

/-- The signature of a product does not depend on the scales. -/
theorem Resolution.signature_times (r t : Resolution) :
    (r.times t).signature = r.signature + t.signature :=
  rfl

/-- The product with unity of a resolution of one dimension is that resolution. -/
theorem Resolution.unity_times_of (d : Dimension) (scale : Float) :
    unity.times ⟨.of d, scale⟩ = ⟨.of d, scale⟩ := by
  rw [times, unity, Signature.empty_add_of, Number.one_mul_eq_self]

/-- An entry of a table is what is found under its key, if keys are distinct. -/
theorem find?_key_of_mem {α : Type} {key : α → String} {table : List α} {a : α}
    (hdistinct : (table.map key).Nodup) (ha : a ∈ table) :
    (table.find? fun b ↦ key b == key a) = some a := by
  cases hfind : table.find? fun b ↦ key b == key a with
  | none => simpa using List.find?_eq_none.1 hfind a ha
  | some b =>
    have hkey : key b = key a := by simpa using List.find?_some hfind
    rw [List.inj_on_of_nodup_map hdistinct (List.mem_of_find?_eq_some hfind) ha hkey]

namespace Catalog

variable {c : Catalog} {u : BaseUnit} {k : CompoundUnit} {x : Float} {symbol : String}

/-! ### Bare symbols -/

/-- The symbols of one table are distinct if all are. -/
theorem nodup_baseSymbols (hdistinct : c.symbols.Nodup) : (c.baseUnits.map (·.symbol)).Nodup :=
  (List.nodup_append.1 hdistinct).1

theorem nodup_compoundSymbols (hdistinct : c.symbols.Nodup) :
    (c.compoundUnits.map (·.symbol)).Nodup :=
  (List.nodup_append.1 hdistinct).2.1

/-- The symbol of a base unit is a symbol of the catalog. -/
theorem mem_symbols_of_baseUnit (hu : u ∈ c.baseUnits) : u.symbol ∈ c.symbols :=
  List.mem_append_left _ (List.mem_map.2 ⟨u, hu, rfl⟩)

/-- The symbol of a compound is a symbol of the catalog. -/
theorem mem_symbols_of_compoundUnit (hk : k ∈ c.compoundUnits) : k.symbol ∈ c.symbols :=
  List.mem_append_right _ (List.mem_map.2 ⟨k, hk, rfl⟩)

/-- The symbol of a base unit is none of a compound. -/
theorem find?_compoundUnits_baseSymbol (hdistinct : c.symbols.Nodup) (hu : u ∈ c.baseUnits) :
    (c.compoundUnits.find? fun k ↦ k.symbol == u.symbol) = none := by
  rw [List.find?_eq_none]
  intro k hk hsymbol
  exact (List.nodup_append.1 hdistinct).2.2 _ (List.mem_map.2 ⟨u, hu, rfl⟩) _
    (List.mem_map.2 ⟨k, hk, rfl⟩) (by simpa using (beq_iff_eq.1 hsymbol).symm)

/-- A base unit is what its symbol names among the base units. -/
theorem baseUnit?_symbol (hdistinct : c.symbols.Nodup) (hu : u ∈ c.baseUnits) :
    c.baseUnit? u.symbol = some (u, 1.0) :=
  lookUp_eq_some_iff.2 (.inl ⟨find?_key_of_mem (nodup_baseSymbols hdistinct) hu, rfl⟩)

/-- A compound is what its symbol names among the compounds. -/
theorem compoundUnit?_symbol (hdistinct : c.symbols.Nodup) (hk : k ∈ c.compoundUnits) :
    c.compoundUnit? k.symbol = some (k, 1.0) :=
  lookUp_eq_some_iff.2 (.inl ⟨find?_key_of_mem (nodup_compoundSymbols hdistinct) hk, rfl⟩)

/-! ### Shadowed symbols -/

/-- The symbol is the letter of a prefix, with this multiplier, and the symbol of the compound. -/
def Shadows (c : Catalog) (k : CompoundUnit) (x : Float) (symbol : String) : Prop :=
  k ∈ c.compoundUnits ∧
    ∃ letter, c.multiplier? letter = some x ∧ symbol.toList = letter :: k.symbol.toList

/-- A base unit is read as a compound exactly if the compound shadows it. -/
theorem compoundUnit?_eq_some_iff_shadows (hdistinct : c.symbols.Nodup)
    (hunits : ∀ s ∈ c.symbols, namesUnit s) (hu : u ∈ c.baseUnits) :
    c.compoundUnit? u.symbol = some (k, x) ↔ c.Shadows k x u.symbol := by
  have hnone := find?_compoundUnits_baseSymbol hdistinct hu
  rw [compoundUnit?, lookUp_eq_some_iff, hnone, Shadows]
  simp only [reduceCtorEq, false_and, true_and, false_or]
  constructor
  · rintro ⟨letter, symbol, htoken, -, hmultiplier, hk⟩
    obtain rfl : k.symbol = symbol := by simpa using List.find?_some hk
    exact ⟨List.mem_of_find?_eq_some hk, letter, hmultiplier, htoken⟩
  · rintro ⟨hk, letter, hmultiplier, htoken⟩
    have hne : k.symbol ≠ "" := (namesUnit_iff.1 (hunits _ (mem_symbols_of_compoundUnit hk))).1
    exact ⟨letter, k.symbol, htoken, hne, hmultiplier,
      find?_key_of_mem (nodup_compoundSymbols hdistinct) hk⟩

/-- A prefix changes the scale of a compound and not its signature. -/
theorem signature_resolveTokens_of_compoundUnit? {token token' : String} {y : Float}
    (htoken : namesUnit token) (htoken' : namesUnit token')
    (h : c.compoundUnit? token = some (k, x)) (h' : c.compoundUnit? token' = some (k, y)) :
    (·.signature) <$> c.resolveTokens [token] = (·.signature) <$> c.resolveTokens [token'] := by
  rw [resolveTokens_singleton htoken, resolveTokens_singleton htoken', resolveUnit_compound h,
    resolveUnit_compound h']
  generalize resolveText _ _ = definition
  -- step by step, since the two sides differ in a product of doubles until the end
  cases definition with
  | error f => simp only [error_bind]
  | ok r => simp only [ok_bind, map_ok, Resolution.signature_times]

/-- **A symbol stands for its unit unless it is shadowed.** A compound is what its symbol names,
and a base unit is what its symbol names among the base units. On its own it resolves to its
dimension and scale, provided that it is not the letter of a prefix and the symbol of a
compound. Otherwise it is read as that compound with the prefix, and has the signature of the
compound or its fault.

That symbols are units to a reader rules out the empty symbol and symbols that are numerals,
which no expression can mention. -/
theorem resolveTokens_symbol (hdistinct : c.symbols.Nodup)
    (hunits : ∀ s ∈ c.symbols, namesUnit s) :
    (∀ k ∈ c.compoundUnits, c.compoundUnit? k.symbol = some (k, 1.0)) ∧
    ∀ u ∈ c.baseUnits, c.baseUnit? u.symbol = some (u, 1.0) ∧
      ((∀ k x, ¬c.Shadows k x u.symbol) →
        c.resolveTokens [u.symbol] = .ok ⟨.of u.dimension, u.scale⟩) ∧
      ∀ k x, c.Shadows k x u.symbol → c.compoundUnit? u.symbol = some (k, x) ∧
        (·.signature) <$> c.resolveTokens [u.symbol] =
          (·.signature) <$> c.resolveTokens [k.symbol] := by
  refine ⟨fun k hk ↦ compoundUnit?_symbol hdistinct hk, fun u hu ↦ ?_⟩
  have hsymbol := hunits _ (mem_symbols_of_baseUnit hu)
  have hbase := baseUnit?_symbol hdistinct hu
  have hcompound := fun k x ↦
    compoundUnit?_eq_some_iff_shadows (k := k) (x := x) hdistinct hunits hu
  refine ⟨hbase, fun hnot ↦ ?_, fun k x hshadows ↦ ?_⟩
  · -- no compound is read, so that the base units are asked
    have hnone : c.compoundUnit? u.symbol = none := by
      rw [Option.eq_none_iff_forall_ne_some]
      exact fun ⟨k, x⟩ h ↦ hnot k x ((hcompound k x).1 h)
    rw [resolveTokens_singleton hsymbol, resolveUnit, resolveToken_base hnone, resolveBase, hbase]
    simp only [ok_bind, Number.mul_one_eq_self, Resolution.unity_times_of]
  · have hread := (hcompound k x).2 hshadows
    exact ⟨hread, signature_resolveTokens_of_compoundUnit? hsymbol
      (hunits _ (mem_symbols_of_compoundUnit hshadows.1)) hread
      (compoundUnit?_symbol hdistinct hshadows.1)⟩

/-- In the standard catalog the minute is not the prefixed inch, and no base unit is shadowed. -/
theorem resolveTokens_symbol_minute :
    standard.symbols.Nodup ∧ (∀ s ∈ standard.symbols, namesUnit s) ∧
      standard.resolveTokens ["min"] = .ok ⟨.of .time, 60.0⟩ ∧
      ∀ u ∈ standard.baseUnits,
        standard.resolveTokens [u.symbol] = .ok ⟨.of u.dimension, u.scale⟩ := by
  have hdistinct : standard.symbols.Nodup := by decide
  have hunits : ∀ s ∈ standard.symbols, namesUnit s := by decide +kernel
  have hclear : ∀ u ∈ standard.baseUnits, ∀ k x, ¬standard.Shadows k x u.symbol := by
    have hall : standard.baseUnits.all fun u ↦ (standard.compoundUnit? u.symbol).isNone := by
      decide +kernel
    intro u hu k x hshadows
    have hnone := List.all_eq_true.1 hall u hu
    rw [(compoundUnit?_eq_some_iff_shadows hdistinct hunits hu).2 hshadows] at hnone
    simp at hnone
  have hresolve := fun u hu ↦
    ((resolveTokens_symbol hdistinct hunits).2 u hu).2.1 (hclear u hu)
  exact ⟨hdistinct, hunits, hresolve ⟨"min", 60.0, .time⟩ (by simp [standard, standardBaseUnits]),
    hresolve⟩

/-- A catalog with a length that is called like a thousandth of a force. -/
def milliCollision : Catalog :=
  ⟨[⟨"kg", 1.0, .mass⟩, ⟨"m", 1.0, .length⟩, ⟨"s", 1.0, .time⟩, ⟨"mN", 2.0, .length⟩],
    [⟨"N", 1.0, "kg*m/s**2"⟩], [⟨'m', 0.001⟩]⟩

/-- The length is shadowed: its symbol resolves to a thousandth of the force. -/
theorem not_resolveTokens_symbol :
    milliCollision.symbols.Nodup ∧ (∀ s ∈ milliCollision.symbols, namesUnit s) ∧
      ⟨"mN", 2.0, .length⟩ ∈ milliCollision.baseUnits ∧
      milliCollision.resolveTokens ["mN"] ≠ .ok ⟨.of .length, 2.0⟩ ∧
      ∃ r, milliCollision.resolveTokens ["mN"] = .ok r ∧ r.scale = 0.001 ∧
        r.signature.nonzero = [(.length, 1.0), (.mass, 1.0), (.time, -2.0)] := by
  refine ⟨by decide, by decide +kernel, by simp [milliCollision], by decide +kernel, ?_⟩
  have hresolve : (milliCollision.resolveTokens ["mN"]).toOption.any fun r ↦ r.scale = 0.001 &&
      r.signature.nonzero = [(.length, 1.0), (.mass, 1.0), (.time, -2.0)] := by decide +kernel
  simpa only [Option.any_eq_true, toOption_eq_some_iff, Bool.and_eq_true, decide_eq_true_eq]
    using hresolve

end Catalog

end DimensionalAnalysis
