import DimensionalAnalysis.Proofs.Resolution.TokenList
import DimensionalAnalysis.Resolution.Conversion

/-!
# Nesting of compound units

An expression **mentions** a compound when one of its tokens names it, bare or with a prefix,
and a **chain** is a sequence of compounds of which the expression mentions the first and the
definition of each mentions the next. Chains are read off the catalog alone: nothing about
resolving enters into them.

The resolver keeps no record of chains. It holds the symbols of the compounds that are open,
and the room left for more, and it closes a compound when its definition has been read. The
main result, `nesting_of_resolve`, says that this amounts to a judgement on chains.

* An expression that resolves has no chain that repeats a symbol or is longer than the
  resolver is deep. Every compound along a chain was opened, one inside the other.
* A fault that reports a cycle has a chain behind it which ends with the reported symbol, and
  either holds it already or is too long.

In particular, a compound that occurs again beside itself, or is resolved again for an
exponent, is not taken for a cycle: what is open is the chain from the expression down to the
current token and nothing else.
-/

namespace DimensionalAnalysis.Catalog

variable {c : Catalog}

/-! ### Chains -/

/-- One of the expression's tokens names the compound. -/
def Mentions (c : Catalog) (expression : String) (u : CompoundUnit) : Prop :=
  ∃ token ∈ (Split.ofString expression).allTokens, namesUnit token ∧
    ∃ multiplier, c.compoundUnit? token = some (u, multiplier)

/-- The expression mentions the first compound, and the definition of each the next one. -/
inductive Chain (c : Catalog) : String → List CompoundUnit → Prop
  | nil {expression : String} : c.Chain expression []
  | cons {expression : String} {u : CompoundUnit} {us : List CompoundUnit} :
    c.Mentions expression u → c.Chain u.definition us → c.Chain expression (u :: us)

/-- The compounds can be opened one inside the other: they are distinct, none of them is open,
and there is room for all. -/
structure Fits (room : Nat) (opened : List String) (us : List CompoundUnit) : Prop where
  length_le : us.length ≤ room
  nodup : (us.map (·.symbol)).Nodup
  notMem_opened : ∀ u ∈ us, u.symbol ∉ opened

/-- Nothing needs no room. -/
theorem Fits.nil (room : Nat) (opened : List String) : Fits room opened [] :=
  ⟨Nat.zero_le _, by simp, by simp⟩

/-- A compound that can be opened, in front of compounds that can be opened inside it. -/
theorem Fits.cons {room : Nat} {opened : List String} {u : CompoundUnit} {us : List CompoundUnit}
    (hu : u.symbol ∉ opened) (h : Fits room (u.symbol :: opened) us) :
    Fits (room + 1) opened (u :: us) where
  length_le := by simpa using h.length_le
  nodup := by
    refine List.nodup_cons.2 ⟨fun hmem ↦ ?_, h.nodup⟩
    obtain ⟨v, hv, hsymbol⟩ := List.mem_map.1 hmem
    exact h.notMem_opened v hv (hsymbol ▸ List.mem_cons_self)
  notMem_opened := by
    intro v hv
    rcases List.mem_cons.1 hv with rfl | hv
    · exact hu
    · exact fun hmem ↦ h.notMem_opened v hv (List.mem_cons_of_mem _ hmem)

/-! ### One token -/

section Token

variable {token : String} {u : CompoundUnit} {multiplier : Float} {room : Nat}
  {opened : List String}

/-- A token that names no compound is left to the base units. -/
theorem resolveToken_base (h : c.compoundUnit? token = none) :
    c.resolveToken room opened token = c.resolveBase token := by
  cases room <;> simp [resolveToken, h]

/-- Without room left a compound is not opened. -/
theorem resolveToken_noRoom (h : c.compoundUnit? token = some (u, multiplier)) :
    c.resolveToken 0 opened token = .error (.cycle u.symbol) := by
  simp [resolveToken, h]

/-- An open compound is not opened again, whether there is room or not. -/
theorem resolveToken_open (h : c.compoundUnit? token = some (u, multiplier))
    (hu : u.symbol ∈ opened) :
    c.resolveToken room opened token = .error (.cycle u.symbol) := by
  cases room <;> simp [resolveToken, h, hu]

/-- Any other compound resolves as its definition does inside of it, times its own factor. -/
theorem resolveToken_compound (h : c.compoundUnit? token = some (u, multiplier))
    (hu : u.symbol ∉ opened) :
    c.resolveToken (room + 1) opened token =
      resolveText (c.resolveToken room (u.symbol :: opened)) u.definition >>= fun r ↦
        .ok { r with scale := r.scale * (u.scale * multiplier) } := by
  simp [resolveToken, h, hu]

/-- With no compound open there is room for all others inside. -/
theorem resolveUnit_compound (h : c.compoundUnit? token = some (u, multiplier)) :
    c.resolveUnit token =
      resolveText (c.resolveToken 15 [u.symbol]) u.definition >>= fun r ↦
        .ok { r with scale := r.scale * (u.scale * multiplier) } := by
  rw [resolveUnit, maxDepth, resolveToken_compound h List.not_mem_nil]

/-- A compound that resolves was not open, had room, and its definition resolves inside it. -/
theorem definition_ok_of_resolveToken_ok {r : Resolution}
    (h : c.compoundUnit? token = some (u, multiplier))
    (hr : c.resolveToken room opened token = .ok r) :
    ∃ rest t, room = rest + 1 ∧ u.symbol ∉ opened ∧
      resolveText (c.resolveToken rest (u.symbol :: opened)) u.definition = .ok t := by
  by_cases hu : u.symbol ∈ opened
  · simp [resolveToken_open h hu] at hr
  · rcases room with - | rest
    · simp [resolveToken_noRoom h] at hr
    · rw [resolveToken_compound h hu, bind_eq_ok_iff] at hr
      obtain ⟨t, ht, -⟩ := hr
      exact ⟨rest, t, rfl, hu, ht⟩

/-- A token reports a cycle because it names a compound that is open or has no room, or
because the definition of the compound it names reports one. -/
theorem cycle_of_resolveToken_error {s : String}
    (h : c.resolveToken room opened token = .error (.cycle s)) :
    ∃ u multiplier, c.compoundUnit? token = some (u, multiplier) ∧
      (u.symbol = s ∧ (s ∈ opened ∨ room = 0) ∨
        ∃ rest, room = rest + 1 ∧
          resolveText (c.resolveToken rest (u.symbol :: opened)) u.definition =
            .error (.cycle s)) := by
  rcases hu : c.compoundUnit? token with - | ⟨u, multiplier⟩
  · rw [resolveToken_base hu, resolveBase] at h
    split at h <;> simp at h
  · refine ⟨u, multiplier, rfl, ?_⟩
    by_cases hopen : u.symbol ∈ opened
    · rw [resolveToken_open hu hopen] at h
      obtain rfl : u.symbol = s := by simpa using h
      exact .inl ⟨rfl, .inl hopen⟩
    · rcases room with - | rest
      · rw [resolveToken_noRoom hu] at h
        exact .inl ⟨by simpa using h, .inr rfl⟩
      · rw [resolveToken_compound hu hopen, bind_eq_error_iff] at h
        rcases h with h | ⟨t, -, h⟩
        · exact .inr ⟨rest, rfl, h⟩
        · simp at h

end Token

/-! ### Expressions -/

/-- Every chain of an expression that resolves can be opened. The induction is on the chain:
each of its compounds is opened inside the one before, and uses one place of the room. -/
theorem fits_of_resolveText_ok {room : Nat} {opened : List String} {expression : String}
    {r : Resolution} (h : resolveText (c.resolveToken room opened) expression = .ok r)
    {us : List CompoundUnit} (hchain : c.Chain expression us) : Fits room opened us := by
  -- the room decreases along the chain, while the compounds behind it become open
  induction hchain generalizing room opened r with
  | nil => exact .nil _ _
  | cons hmention _ ih =>
    obtain ⟨token, htoken, hunit, multiplier, hu⟩ := hmention
    obtain ⟨t, ht⟩ := single_ok_of_resolveText_ok h token htoken hunit
    obtain ⟨rest, t', rfl, hopen, hdef⟩ := definition_ok_of_resolveToken_ok hu ht
    exact (ih hdef).cons hopen

/-- Behind a reported cycle there is a chain that ends with the reported symbol. The induction
is on the room, which is what the resolver's recursion runs on; each compound that is opened on
the way to the fault goes in front of the chain. -/
theorem chain_of_resolveText_error {room : Nat} {opened : List String} {expression s : String}
    (h : resolveText (c.resolveToken room opened) expression = .error (.cycle s)) :
    ∃ us u, c.Chain expression (us ++ [u]) ∧ u.symbol = s ∧
      (s ∈ opened ∨ s ∈ us.map (·.symbol) ∨ room ≤ us.length) := by
  induction room generalizing opened expression with
  | zero =>
    obtain ⟨_, hf⟩ | hf | ⟨token, htoken, hunit, hf⟩ := fault_of_resolveText_error h
    · cases hf
    · cases hf
    obtain ⟨u, multiplier, hu, ⟨rfl, -⟩ | ⟨rest, hroom, -⟩⟩ := cycle_of_resolveToken_error hf
    · exact ⟨[], u, .cons ⟨token, htoken, hunit, multiplier, hu⟩ .nil, rfl, .inr (.inr (by simp))⟩
    · omega
  | succ room ih =>
    obtain ⟨_, hf⟩ | hf | ⟨token, htoken, hunit, hf⟩ := fault_of_resolveText_error h
    · cases hf
    · cases hf
    obtain ⟨u, multiplier, hu, hcase⟩ := cycle_of_resolveToken_error hf
    have hmention : c.Mentions expression u := ⟨token, htoken, hunit, multiplier, hu⟩
    rcases hcase with ⟨rfl, hopen | hroom⟩ | ⟨rest, hroom, hdef⟩
    · exact ⟨[], u, .cons hmention .nil, rfl, .inl hopen⟩
    · omega
    · obtain rfl : room = rest := by omega
      obtain ⟨us, v, hchain, hv, hend⟩ := ih hdef
      refine ⟨u :: us, v, .cons hmention hchain, hv, ?_⟩
      -- what was open inside the definition was open outside, or is the compound itself
      rcases hend with hopen | hmem | hlength
      · rcases List.mem_cons.1 hopen with rfl | hopen
        · exact .inr (.inl (by simp))
        · exact .inl hopen
      · exact .inr (.inl (by simp only [List.map_cons, List.mem_cons]; exact .inr hmem))
      · exact .inr (.inr (by simpa using hlength))

/-- **Resolving judges chains.** An expression that resolves has only chains without repetition
and of length at most sixteen. A reported cycle has a chain behind it that ends with the
reported symbol and holds it before, or has it at position seventeen or later. Hence no cycle is
reported where no chain repeats a symbol or is longer than sixteen.

A chain of length seventeen need not be a cycle, and is reported as one all the same: the
resolver has no room for a seventeenth compound. -/
theorem nesting_of_resolve (c : Catalog) (expression : String) :
    (∀ r, c.resolve expression = .ok r → ∀ us, c.Chain expression us →
      (us.map (·.symbol)).Nodup ∧ us.length ≤ 16) ∧
    (∀ s, c.resolve expression = .error (.cycle s) →
      ∃ us u, c.Chain expression (us ++ [u]) ∧ u.symbol = s ∧
        (s ∈ us.map (·.symbol) ∨ 17 ≤ (us ++ [u]).length)) ∧
    ((∀ us, c.Chain expression us → (us.map (·.symbol)).Nodup ∧ us.length ≤ 16) →
      ∀ s, c.resolve expression ≠ .error (.cycle s)) := by
  have hcycle : ∀ s, c.resolve expression = .error (.cycle s) →
      ∃ us u, c.Chain expression (us ++ [u]) ∧ u.symbol = s ∧
        (s ∈ us.map (·.symbol) ∨ 17 ≤ (us ++ [u]).length) := by
    intro s h
    obtain ⟨us, u, hchain, hu, hopen | hmem | hlength⟩ := chain_of_resolveText_error h
    · simp at hopen
    · exact ⟨us, u, hchain, hu, .inl hmem⟩
    · refine ⟨us, u, hchain, hu, .inr ?_⟩
      simpa [maxDepth] using hlength
  refine ⟨fun r h us hchain ↦ ?_, hcycle, fun hchains s h ↦ ?_⟩
  · have hfits := fits_of_resolveText_ok h hchain
    exact ⟨hfits.nodup, hfits.length_le⟩
  · obtain ⟨us, u, hchain, rfl, hmem | hlength⟩ := hcycle s h
    · have hnodup := (hchains _ hchain).1
      rw [List.map_append, List.nodup_append] at hnodup
      exact hnodup.2.2 _ hmem _ (by simp) rfl
    · have hle := (hchains _ hchain).2
      omega

/-- Two compounds that are defined by one another. -/
def twoCycle : Catalog :=
  ⟨standardBaseUnits, [⟨"X", 1.0, "Y*m"⟩, ⟨"Y", 1.0, "X/s"⟩], standardPrefixes⟩

/-- Both judgements at work: a nested compound that occurs beside itself and under an exponent
resolves, and a compound that leads back to itself does not. -/
theorem nesting_of_resolve_watt_and_twoCycle :
    ((∃ r, standard.resolve "W*kW**2/J" = .ok r) ∧
      ∀ us, standard.Chain "W*kW**2/J" us → (us.map (·.symbol)).Nodup ∧ us.length ≤ 16) ∧
    (twoCycle.resolve "kY*m" = .error (.cycle "Y") ∧
      ∃ us u, twoCycle.Chain "kY*m" (us ++ [u]) ∧ u.symbol = "Y" ∧
        ("Y" ∈ us.map (·.symbol) ∨ 17 ≤ (us ++ [u]).length)) := by
  have hcycle : twoCycle.resolve "kY*m" = .error (.cycle "Y") := by decide +kernel
  have hwatt : ∃ r, standard.resolve "W*kW**2/J" = .ok r :=
    exists_ok_of_isOk (by decide +kernel)
  obtain ⟨r, hr⟩ := hwatt
  exact ⟨⟨⟨r, hr⟩, (nesting_of_resolve standard "W*kW**2/J").1 r hr⟩,
    hcycle, (nesting_of_resolve twoCycle "kY*m").2.1 "Y" hcycle⟩

end DimensionalAnalysis.Catalog
