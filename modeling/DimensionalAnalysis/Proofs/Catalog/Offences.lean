import DimensionalAnalysis.Proofs.Catalog.Standard

/-!
# Tokens that do not resolve

In a catalog whose definitions all resolve, a token **offends** for one of two reasons: it is a
numeral with no unit directly before it, or it names nothing in the catalog (`Catalog.offends`).
Whether it does is seen from the token and the one before it. An expression with such tokens
fails by the first of them, those above the line first, and any other expression fails by the
scale below its line or not at all.

* Which tokens a catalog names is said without looking them up: the symbols, and the symbols
  behind the letter of a prefix (`Catalog.names`). The two tables are searched one after the
  other, and each with prefixes, but together they find just these.
* A catalog is **sound** if these are the tokens that resolve, and the others are blamed
  themselves (`Catalog.IsSound`). No fault of a definition can come up in a sound catalog. The
  standard catalog is sound, because each of its definitions resolves.

So the faults of an expression are a matter of its tokens, and can be listed before anything is
resolved (`Catalog.offenders`). What is said about a list of tokens is proved along the list,
with the token before it as what the resolver remembers (`IsSound.resolveList_eq`).
-/

namespace DimensionalAnalysis.Catalog

variable {c : Catalog} {token : String}

/-! ### The tokens that a catalog names -/

/-- The token is a symbol of the catalog, or the letter of a prefix and such a symbol. -/
def names (c : Catalog) (token : String) : Bool :=
  token ∈ c.symbols ||
    c.prefixes.any fun p ↦ c.symbols.any fun symbol ↦ token.toList = p.letter :: symbol.toList

/-- A letter has a multiplier exactly if there is a prefix with this letter. -/
theorem isSome_multiplier?_iff {letter : Char} :
    (c.multiplier? letter).isSome ↔ ∃ p ∈ c.prefixes, p.letter = letter := by
  simp [multiplier?]

/-- A table of units is read by symbols, and by symbols behind the letter of a prefix. -/
theorem isSome_lookUp_iff {α : Type} {find : String → Option α} (hempty : find "" = none) :
    (c.lookUp find token).isSome ↔ (find token).isSome ∨
      ∃ p ∈ c.prefixes, ∃ symbol, token.toList = p.letter :: symbol.toList ∧
        (find symbol).isSome := by
  simp only [Option.isSome_iff_exists, Prod.exists, lookUp_eq_some_iff]
  constructor
  · rintro ⟨unit, multiplier, ⟨hunit, -⟩ | ⟨-, letter, symbol, htoken, -, hmultiplier, hunit⟩⟩
    · exact .inl ⟨unit, hunit⟩
    · obtain ⟨p, hp, rfl⟩ := isSome_multiplier?_iff.1 (Option.isSome_of_mem hmultiplier)
      exact .inr ⟨p, hp, symbol, htoken, unit, hunit⟩
  · intro h
    cases hfind : find token with
    | some unit => exact ⟨unit, 1.0, .inl ⟨rfl, rfl⟩⟩
    | none =>
      obtain ⟨unit, hunit⟩ | ⟨p, hp, symbol, htoken, unit, hunit⟩ := h
      · exact absurd (hfind.symm.trans hunit) (by simp)
      · obtain ⟨multiplier, hmultiplier⟩ :=
          Option.isSome_iff_exists.1 (isSome_multiplier?_iff.2 ⟨p, hp, rfl⟩)
        have hne : symbol ≠ "" := by
          rintro rfl
          simp [hempty] at hunit
        exact ⟨unit, multiplier, .inr ⟨rfl, p.letter, symbol, htoken, hne, hmultiplier, hunit⟩⟩

/-- The two tables together hold what the catalog names. A token that is a prefix and a symbol
of one table may at the same time be a symbol of the other, so that it matters to neither
direction which table is searched first. -/
theorem names_iff (hempty : "" ∉ c.symbols) :
    c.names token ↔ (c.compoundUnit? token).isSome ∨ (c.baseUnit? token).isSome := by
  simp only [symbols, List.mem_append, List.mem_map, not_or, not_exists, not_and] at hempty
  rw [compoundUnit?, isSome_lookUp_iff (by simpa using hempty.2), baseUnit?,
    isSome_lookUp_iff (by simpa using hempty.1)]
  simp only [names, symbols, List.mem_append, List.mem_map, List.any_append, List.any_map,
    List.any_eq_true, List.find?_isSome, Bool.or_eq_true, decide_eq_true_eq, beq_iff_eq,
    Function.comp_apply]
  constructor
  · rintro ((⟨u, hu, rfl⟩ | ⟨u, hu, rfl⟩) | ⟨p, hp, ⟨u, hu, h⟩ | ⟨u, hu, h⟩⟩)
    · exact .inr (.inl ⟨u, hu, rfl⟩)
    · exact .inl (.inl ⟨u, hu, rfl⟩)
    · exact .inr (.inr ⟨p, hp, u.symbol, h, u, hu, rfl⟩)
    · exact .inl (.inr ⟨p, hp, u.symbol, h, u, hu, rfl⟩)
  · rintro ((⟨u, hu, rfl⟩ | ⟨p, hp, _, h, u, hu, rfl⟩) | (⟨u, hu, rfl⟩ | ⟨p, hp, _, h, u, hu, rfl⟩))
    · exact .inl (.inr ⟨u, hu, rfl⟩)
    · exact .inr ⟨p, hp, .inr ⟨u, hu, h⟩⟩
    · exact .inl (.inl ⟨u, hu, rfl⟩)
    · exact .inr ⟨p, hp, .inl ⟨u, hu, h⟩⟩

/-! ### Sound catalogs -/

/-- The tokens that resolve are those that the catalog names, and every other one is blamed
itself. -/
structure IsSound (c : Catalog) : Prop where
  exists_resolveUnit : ∀ {token}, c.names token → ∃ r, c.resolveUnit token = .ok r
  resolveUnit_eq_error : ∀ {token}, c.names token = false →
    c.resolveUnit token = .error (.unknownUnit token)

/-- A catalog is sound if every definition resolves within its own compound. -/
theorem isSound_of_definitions (hempty : "" ∉ c.symbols)
    (h : ∀ u ∈ c.compoundUnits, ∃ r,
      resolveText (c.resolveToken (maxDepth - 1) [u.symbol]) u.definition = .ok r) :
    c.IsSound where
  exists_resolveUnit {token} hnames := by
    rcases hu : c.compoundUnit? token with - | ⟨u, multiplier⟩
    · have hbase : (c.baseUnit? token).isSome := by simpa [hu] using (names_iff hempty).1 hnames
      obtain ⟨⟨unit, multiplier⟩, hunit⟩ := Option.isSome_iff_exists.1 hbase
      rw [resolveUnit, resolveToken_base hu, resolveBase, hunit]
      exact ⟨_, rfl⟩
    · obtain ⟨r, hr⟩ := h u (mem_compoundUnits hu)
      have hdefinition : resolveText (c.resolveToken 15 [u.symbol]) u.definition = .ok r := hr
      rw [resolveUnit_compound hu, hdefinition]
      exact ⟨_, rfl⟩
  resolveUnit_eq_error {token} hnames := by
    have hnone : ¬((c.compoundUnit? token).isSome ∨ (c.baseUnit? token).isSome) := fun h ↦ by
      simp [(names_iff hempty).2 h] at hnames
    simp only [not_or, Bool.not_eq_true, Option.isSome_eq_false_iff, Option.isNone_iff_eq_none]
      at hnone
    rw [resolveUnit, resolveToken_base hnone.1, resolveBase, hnone.2]

/-- **The standard catalog is sound.** -/
theorem isSound_standard : standard.IsSound := by
  refine isSound_of_definitions (by decide +kernel) ?_
  have hall : standardCompoundUnits.all fun u ↦
      (resolveText (standard.resolveToken (maxDepth - 1) [u.symbol]) u.definition).isOk := by
    decide +kernel
  exact fun u hu ↦ exists_ok_of_isOk (List.all_eq_true.1 hall u hu)

/-! ### Offences -/

/-- The token does not resolve where it stands, with `previous` directly before it. -/
def offends (c : Catalog) (previous : Option String) (token : String) : Bool :=
  token != "" &&
    if (exponent? token).isSome then
      previous.all fun p ↦ p = "" || (exponent? p).isSome
    else !c.names token

/-- The fault that a token is. -/
def offence (token : String) : Fault :=
  if (exponent? token).isSome then .strayNumber token else .unknownUnit token

/-- The tokens of a list, each with the one before it. -/
def withPrevious (previous : Option String) (tokens : List String) :
    List (Option String × String) :=
  (previous :: tokens.map some).zip tokens

/-- The tokens of a list that offend. -/
def offendersAfter (c : Catalog) (previous : Option String) (tokens : List String) :
    List String :=
  ((withPrevious previous tokens).filter fun (previous, token) ↦ c.offends previous token).map
    Prod.snd

/-- The tokens of a split that offend, those above the line first. -/
def offenders (c : Catalog) (split : Split) : List String :=
  c.offendersAfter none split.numerator ++ c.offendersAfter none split.denominator

/-- The first token offends or not, and is the one before the rest in either case. -/
theorem offendersAfter_cons (previous : Option String) (token : String) (tokens : List String) :
    c.offendersAfter previous (token :: tokens) =
      if c.offends previous token then token :: c.offendersAfter (some token) tokens
      else c.offendersAfter (some token) tokens := by
  simp only [offendersAfter, withPrevious, List.map_cons, List.zip_cons_cons, List.filter_cons]
  split <;> rfl

/-- Empty tokens do not offend. -/
theorem offends_empty (previous : Option String) : c.offends previous "" = false := by
  simp [offends]

/-- A numeral offends unless a unit stands before it. -/
theorem offends_exponent {x : Float} (h : exponent? token = some x) (previous : Option String) :
    c.offends previous token = (previous.filter namesUnit).isNone := by
  cases previous with
  | none => simp [offends, h, ne_empty_of_exponent? h]
  | some p =>
    have hne := ne_empty_of_exponent? h
    by_cases hp : p = "" <;> rcases hx : exponent? p with - | y <;>
      simp [offends, namesUnit, h, hne, hp, hx]

/-- A unit offends unless the catalog names it, whatever stands before it. -/
theorem offends_unit (h : namesUnit token) (previous : Option String) :
    c.offends previous token = !c.names token := by
  obtain ⟨hne, hx⟩ := namesUnit_iff.1 h
  simp [offends, hx, hne]

/-- A numeral that offends is a stray number. -/
theorem offence_exponent {x : Float} (h : exponent? token = some x) :
    offence token = .strayNumber token := by
  simp [offence, h]

/-- A unit that offends is unknown. -/
theorem offence_unit (h : namesUnit token) : offence token = .unknownUnit token := by
  simp [offence, (namesUnit_iff.1 h).2]

/-! ### What expressions fail by -/

/-- A list of tokens fails by the first that offends, and by nothing else. -/
theorem IsSound.resolveList_eq (hc : c.IsSound) {previous : Option String}
    (hprevious : ∀ p ∈ previous, namesUnit p → c.names p) (acc : Resolution)
    (tokens : List String) :
    (∀ token ∈ (c.offendersAfter previous tokens).head?,
        resolveList c.resolveUnit (previous.filter namesUnit) acc tokens =
          .error (offence token)) ∧
      (c.offendersAfter previous tokens = [] →
        ∃ r, resolveList c.resolveUnit (previous.filter namesUnit) acc tokens = .ok r) := by
  induction tokens generalizing previous acc with
  | nil => exact ⟨by simp [offendersAfter, withPrevious], fun _ ↦ ⟨acc, rfl⟩⟩
  | cons token tokens ih =>
    rw [offendersAfter_cons]
    rcases token_cases token with rfl | ⟨x, hx⟩ | hunit
    · simp only [offends_empty, Bool.false_eq_true, if_false, resolveList_empty]
      have hfilter : (some "").filter namesUnit = none := by decide
      exact hfilter ▸ ih (by simp [namesUnit]) acc
    · have hfilter : (some token).filter namesUnit = none := by simp [namesUnit, hx]
      rw [offends_exponent hx]
      -- only a unit before it saves a numeral
      rcases hbefore : previous.filter namesUnit with - | unit
      · simp [resolveList_stray hx, offence_exponent hx]
      · -- the unit before is one that the catalog names, so the numeral can raise it
        obtain ⟨hmem, hunit⟩ := Option.filter_eq_some_iff.1 hbefore
        obtain ⟨r, hr⟩ := hc.exists_resolveUnit (hprevious unit hmem hunit)
        simp only [Option.isNone_some, Bool.false_eq_true, if_false, resolveList_exponent hx, hr,
          ok_bind]
        exact hfilter ▸ ih (by simp [namesUnit, hx]) (acc.raise r x)
    · have hfilter : (some token).filter namesUnit = some token := by simp [hunit]
      rw [offends_unit hunit, resolveList_unit hunit]
      cases hnames : c.names token with
      | false => simp [hc.resolveUnit_eq_error hnames, offence_unit hunit]
      | true =>
        obtain ⟨r, hr⟩ := hc.exists_resolveUnit hnames
        have hrest := @ih (some token) (by simp [hnames]) (acc.times r)
        rw [hfilter] at hrest
        simpa [hr] using hrest

/-- One side of an expression fails by its first token that offends, and by nothing else. -/
theorem IsSound.resolveTokens_eq (hc : c.IsSound) (tokens : List String) :
    (∀ token ∈ (c.offendersAfter none tokens).head?,
        c.resolveTokens tokens = .error (offence token)) ∧
      (c.offendersAfter none tokens = [] → ∃ r, c.resolveTokens tokens = .ok r) :=
  hc.resolveList_eq (by simp) .unity tokens

/-- An expression resolves its two sides from left to right, and then divides. -/
theorem resolve_eq (c : Catalog) (expression : String) :
    c.resolve expression = (do
      let n ← c.resolveTokens (Split.ofString expression).numerator
      let d ← c.resolveTokens (Split.ofString expression).denominator
      (n.combine d).mapError (blameZeroScale expression)) :=
  rfl

/-- With tokens that offend, an expression fails by the first. -/
theorem IsSound.resolve_eq_error (hc : c.IsSound) {expression : String}
    (h : token ∈ (c.offenders (Split.ofString expression)).head?) :
    c.resolve expression = .error (offence token) := by
  obtain ⟨hnumError, hnumOk⟩ := hc.resolveTokens_eq (Split.ofString expression).numerator
  obtain ⟨hdenError, -⟩ := hc.resolveTokens_eq (Split.ofString expression).denominator
  rw [offenders, List.head?_append, Option.mem_def] at h
  rw [resolve_eq]
  -- the side above the line is resolved first, and its faults are met first
  cases hnum : c.offendersAfter none (Split.ofString expression).numerator with
  | cons first rest =>
    obtain rfl : first = token := by simpa [hnum] using h
    rw [hnumError first (by simp [hnum]), error_bind]
  | nil =>
    obtain ⟨n, hn⟩ := hnumOk hnum
    rw [hn, ok_bind, hdenError token (by simpa [hnum] using h), error_bind]

/-- Without, both of its sides resolve, and it fails by a zero scale below the line. -/
theorem IsSound.exists_resolveTokens (hc : c.IsSound) {expression : String}
    (h : c.offenders (Split.ofString expression) = []) :
    ∃ d, c.resolveTokens (Split.ofString expression).denominator = .ok d ∧
      ((d.scale == 0.0) = false → ∃ r, c.resolve expression = .ok r) ∧
      (d.scale == 0.0 → c.resolve expression = .error (.zeroScale expression)) := by
  obtain ⟨hnum, hden⟩ := List.append_eq_nil_iff.1 h
  obtain ⟨n, hn⟩ := (hc.resolveTokens_eq _).2 hnum
  obtain ⟨d, hd⟩ := (hc.resolveTokens_eq _).2 hden
  rw [resolve_eq, hn, ok_bind, hd, ok_bind]
  refine ⟨d, rfl, fun hscale ↦ ?_, fun hscale ↦ ?_⟩
  · rw [combine_eq_ok_iff.2 ⟨hscale, rfl⟩]
    exact ⟨_, rfl⟩
  · rw [combine_eq_error_iff.2 ⟨hscale, rfl⟩]
    rfl

/-- A token that offends is a token of the split. -/
theorem mem_allTokens_of_mem_offenders {split : Split} (h : token ∈ c.offenders split) :
    token ∈ split.allTokens := by
  have hside : ∀ {tokens : List String}, token ∈ c.offendersAfter none tokens →
      token ∈ tokens := by
    intro tokens h
    simp only [offendersAfter, List.mem_map, List.mem_filter, Prod.exists, exists_eq_right] at h
    obtain ⟨previous, hmem, -⟩ := h
    exact (List.of_mem_zip hmem).2
  rcases List.mem_append.1 h with h | h
  · exact List.mem_append_left _ (hside h)
  · exact List.mem_append_right _ (hside h)

/-- There are two kinds of offences. -/
theorem offence_cases (token : String) :
    offence token = .strayNumber token ∨ offence token = .unknownUnit token := by
  rw [offence]
  split
  · exact .inl rfl
  · exact .inr rfl

/-- The faults of a sound catalog are those of tokens of the expression, and a zero scale that
is blamed on the whole expression. -/
theorem IsSound.fault_of_resolve_error (hc : c.IsSound) {expression : String} {f : Fault}
    (h : c.resolve expression = .error f) :
    f = .zeroScale expression ∨
      ∃ token ∈ (Split.ofString expression).allTokens,
        f = .strayNumber token ∨ f = .unknownUnit token := by
  cases hoffenders : c.offenders (Split.ofString expression) with
  | nil =>
    obtain ⟨d, -, hok, hzero⟩ := hc.exists_resolveTokens hoffenders
    cases hscale : d.scale == 0.0 with
    | false =>
      obtain ⟨r, hr⟩ := hok hscale
      simp [hr] at h
    | true => exact .inl (Except.error.inj (h.symm.trans (hzero hscale)))
  | cons token rest =>
    have hmem : token ∈ (Split.ofString expression).allTokens :=
      mem_allTokens_of_mem_offenders (hoffenders ▸ List.mem_cons_self)
    have hhead : token ∈ (c.offenders (Split.ofString expression)).head? := by
      rw [hoffenders, List.head?_cons, Option.mem_some_iff]
    rw [Except.error.inj (h.symm.trans (hc.resolve_eq_error hhead))]
    exact .inr ⟨token, hmem, offence_cases token⟩

/-- **What an expression fails by** in the standard catalog: the first of its tokens that offends,
those above the line first. Without such tokens both sides resolve, and the expression fails
exactly when the scale below the line is zero, by that. So no cycle, no mismatch and no other fault
is ever reported, and no token that is not one of the expression. -/
theorem resolve_standard_faults (expression : String) :
    (∀ token ∈ (standard.offenders (Split.ofString expression)).head?,
        standard.resolve expression = .error (offence token)) ∧
      (standard.offenders (Split.ofString expression) = [] →
        ∃ d, standard.resolveTokens (Split.ofString expression).denominator = .ok d ∧
          ((d.scale == 0.0) = false → ∃ r, standard.resolve expression = .ok r) ∧
          (d.scale == 0.0 → standard.resolve expression = .error (.zeroScale expression))) ∧
      ∀ f, standard.resolve expression = .error f →
        f = .zeroScale expression ∨
          ∃ token ∈ (Split.ofString expression).allTokens,
            f = .strayNumber token ∨ f = .unknownUnit token :=
  ⟨fun _ ↦ isSound_standard.resolve_eq_error, isSound_standard.exists_resolveTokens,
    fun _ ↦ isSound_standard.fault_of_resolve_error⟩

/-- A numeral behind a token that is no unit has one before it all the same. -/
example : standard.offenders (Split.ofString "kg*x*2/3") = ["x", "3"] := by decide +kernel

end DimensionalAnalysis.Catalog
