import DimensionalAnalysis.Proofs.Resolution.Nesting
import DimensionalAnalysis.Proofs.Resolution.Order

/-!
# Compounds stand for their definitions

A compound resolves as its definition does, but inside it: the definition is read with the
compound open and with less room. The main result, `transparency_of_resolveTokens`, says that
this shows nowhere else. A token that names a compound has the order of the definition, and the
scale of the definition times that of the token, and it resolves exactly if the definition does
on its own and leaves room for the compound around it.

Two readings of tokens give an expression the same resolution where they agree on its units
(`resolveText_congr`). That carries over from one depth to another, as long as what is nested in
the expression can be opened there as well (`resolveText_of_fits`).

An empty token and a number are not units, whatever the catalog defines them as
(`not_transparency_of_numeral`).

A token alone is multiplied to unity, which adds its exponents to zeros. This is where equality
of exponents falls short of identity by the sign of a zero (`Number.Same`), while scales, which
are multiplied by one, are the same doubles.
-/

namespace DimensionalAnalysis

/-! ### Nothing added -/

namespace Number

open Float.Model (Format UnpackedFloat)
open Float.Model.UnpackedFloat

/-- The doubles are equal numbers, or neither is one. -/
def Same (x y : Float) : Prop :=
  x == y ∨ x.isNaN ∧ y.isNaN

/-- Every double is the same as itself, NaN included. -/
theorem same_self (x : Float) : Same x x := by
  rcases hx : rational? x with - | p
  · show (x.toModel.unpack.compare x.toModel.unpack == some .eq) = true ∨
      x.toModel.unpack.isNaN ∧ x.toModel.unpack.isNaN
    rw [rational?] at hx
    cases hu : x.toModel.unpack with
    | infinity s => cases s <;> exact .inl rfl
    | notANumber => exact .inr ⟨rfl, rfl⟩
    | zero s => simp [hu, valueOf] at hx
    | finite s m e hm => simp [hu, valueOf] at hx
  · exact .inl ((beq_iff hx hx).2 rfl)

/-- Adding to zero changes a zero at most, and that in sign only. -/
theorem same_zero_add (x : Float) : Same (0.0 + x) x := by
  rcases hx : rational? x with - | p
  · have hadd : UnpackedFloat.add Format.binary64 (.zero .positive) x.toModel.unpack =
        x.toModel.unpack := by
      rw [rational?] at hx
      cases hu : x.toModel.unpack with
      | infinity s => rfl
      | notANumber => rfl
      | zero s => simp [hu, valueOf] at hx
      | finite s m e hm => simp [hu, valueOf] at hx
    -- what is no number is the sum as it stands
    have hsum : 0.0 + x = x := by
      show Float.ofModel (.pack (UnpackedFloat.add Format.binary64 (.zero .positive) _)) = x
      rw [hadd, pack_unpack]
    rw [hsum]
    exact same_self x
  · exact .inl ((beq_iff ((rational?_zero_add x).trans hx) hx).2 rfl)

end Number

/-! ### Two readings of tokens -/

section Readings

variable {single single' : String → Except Fault Resolution} {acc r : Resolution}

/-- Readings that agree on the symbols of terms agree on the terms. -/
theorem resolveTerms_congr {ts : List Term}
    (h : ∀ t ∈ ts, ∀ unit, single t.symbol = .ok unit → single' t.symbol = .ok unit)
    (hr : resolveTerms single acc ts = .ok r) : resolveTerms single' acc ts = .ok r := by
  induction ts generalizing acc with
  | nil => exact hr
  | cons t ts ih =>
    rw [resolveTerms, bind_eq_ok_iff] at hr ⊢
    obtain ⟨unit, hunit, hr⟩ := hr
    exact ⟨unit, h t List.mem_cons_self unit hunit,
      ih (fun u hu ↦ h u (List.mem_cons_of_mem _ hu)) hr⟩

/-- Readings that agree on the units of an expression agree on the expression. -/
theorem resolveText_congr {expression : String}
    (h : ∀ token ∈ (Split.ofString expression).allTokens, namesUnit token →
      ∀ unit, single token = .ok unit → single' token = .ok unit)
    (hr : resolveText single expression = .ok r) : resolveText single' expression = .ok r := by
  obtain ⟨e, n, d, he, -, hn, hd, hr⟩ := exists_ofString_of_resolveText hr
  have hterms : ∀ t ∈ e.terms, ∀ unit, single t.symbol = .ok unit →
      single' t.symbol = .ok unit := by
    intro t ht
    obtain ⟨hunit, hmem, -⟩ := Expression.mem_terms_of_ofString he ht
    exact h t.symbol hmem hunit
  exact (resolveText_eq_ok_iff_of_ofString he).2 ⟨n, d,
    resolveTerms_congr (fun t ht ↦ hterms t (List.mem_append_left _ ht)) hn,
    resolveTerms_congr (fun t ht ↦ hterms t (List.mem_append_right _ ht)) hd, hr⟩

end Readings

namespace Catalog

variable {c : Catalog}

/-! ### Other depths -/

section Depth

variable {room room' : ℕ} {opened opened' : List String} {u : CompoundUnit}
  {us : List CompoundUnit}

/-- Inside a compound that can be opened, there is room for what can be opened with it. -/
theorem Fits.tail (h : Fits (room + 1) opened (u :: us)) : Fits room (u.symbol :: opened) us where
  length_le := by simpa using h.length_le
  nodup := (List.nodup_cons.1 h.nodup).2
  notMem_opened := by
    intro v hv hmem
    rcases List.mem_cons.1 hmem with hsymbol | hmem
    · exact (List.nodup_cons.1 h.nodup).1 (List.mem_map.2 ⟨v, hv, hsymbol⟩)
    · exact h.notMem_opened v (List.mem_cons_of_mem _ hv) hmem

/-- **Resolving does not depend on the depth**: an expression resolves alike wherever all that
is nested in it can be opened. The induction is on the room where it is known to resolve; the
room and the open compounds of the other place are general, and enter through chains alone. -/
theorem resolveText_of_fits {expression : String} {r : Resolution}
    (hr : resolveText (c.resolveToken room opened) expression = .ok r)
    (hfits : ∀ us, c.Chain expression us → Fits room' opened' us) :
    resolveText (c.resolveToken room' opened') expression = .ok r := by
  induction room generalizing opened room' opened' expression r with
  | zero =>
    refine resolveText_congr (fun token _ _ unit hunit ↦ ?_) hr
    rcases hu : c.compoundUnit? token with - | ⟨u, multiplier⟩
    · rwa [resolveToken_base hu] at hunit ⊢
    · -- without room no compound has resolved
      simp [resolveToken_noRoom hu] at hunit
  | succ room ih =>
    refine resolveText_congr (fun token htoken hnames unit hunit ↦ ?_) hr
    rcases hu : c.compoundUnit? token with - | ⟨u, multiplier⟩
    · rwa [resolveToken_base hu] at hunit ⊢
    · have hmention : c.Mentions expression u := ⟨token, htoken, hnames, multiplier, hu⟩
      have hchains : ∀ us, c.Chain u.definition us → Fits room' opened' (u :: us) :=
        fun us h ↦ hfits _ (.cons hmention h)
      -- the chain of this compound alone says that it can be opened there, and that there is
      -- room
      have hopen : u.symbol ∉ opened' := (hchains [] .nil).notMem_opened u List.mem_cons_self
      obtain ⟨rest, rfl⟩ : ∃ rest, room' = rest + 1 :=
        Nat.exists_eq_succ_of_ne_zero (Nat.pos_iff_ne_zero.1
          (lt_of_lt_of_le Nat.zero_lt_one (by simpa using (hchains [] .nil).length_le)))
      obtain ⟨rest', t, hroom, hnotopen, ht⟩ := definition_ok_of_resolveToken_ok hu hunit
      obtain rfl : room = rest' := by omega
      rw [resolveToken_compound hu hnotopen, ht, ok_bind] at hunit
      rw [resolveToken_compound hu hopen, ih ht fun us h ↦ (hchains us h).tail, ok_bind, hunit]

end Depth

/-! ### The main result -/

section Token

variable {token : String} {u : CompoundUnit} {multiplier : Float}

/-- A token alone has the order of its unit, and its scale. -/
theorem resolveTokens_singleton_eq_ok_iff {r : Resolution} (h : namesUnit token) :
    c.resolveTokens [token] = .ok r ↔
      ∃ unit, c.resolveUnit token = .ok unit ∧
        r = ⟨.empty + unit.signature, unit.scale⟩ := by
  rw [resolveTokens_singleton h, bind_eq_ok_iff]
  refine exists_congr fun unit ↦ and_congr_right fun _ ↦ ?_
  rw [Resolution.times, Resolution.unity, Number.one_mul_eq_self, Except.ok.injEq]
  exact eq_comm

/-- Adding to nothing changes the sign of a zero at most. -/
theorem same_get_empty_add (s : Signature) (d : Dimension) :
    Number.Same ((.empty + s : Signature).get d) (s.get d) := by
  obtain h | ⟨hzero, h⟩ := Signature.get_add .empty s d
  · rw [h, Signature.get_empty]
    exact Number.same_zero_add _
  · rw [h, hzero, Signature.get_empty]
    exact Number.same_self 0.0

/-- A compound resolves exactly if its definition does, and leaves room for the compound around
it. In one direction the compound is closed, which leaves more room; in the other it is opened,
and the condition on chains says that it can be. -/
theorem resolveUnit_compound_eq_ok_iff {r : Resolution}
    (hu : c.compoundUnit? token = some (u, multiplier)) :
    c.resolveUnit token = .ok r ↔
      ∃ t, c.resolve u.definition = .ok t ∧
        (∀ us, c.Chain u.definition us → us.length ≤ 15 ∧ ∀ v ∈ us, v.symbol ≠ u.symbol) ∧
        r = { t with scale := t.scale * (u.scale * multiplier) } := by
  rw [resolveUnit_compound hu, bind_eq_ok_iff]
  refine exists_congr fun t ↦ ?_
  rw [Except.ok.injEq, eq_comm (b := r)]
  constructor
  · rintro ⟨ht, hr⟩
    have hfits : ∀ us, c.Chain u.definition us → Fits 15 [u.symbol] us := fun us hchain ↦
      fits_of_resolveText_ok ht hchain
    refine ⟨resolveText_of_fits ht fun us hchain ↦ ?_, fun us hchain ↦ ?_, hr⟩
    · exact ⟨(hfits us hchain).length_le.trans (by norm_num [maxDepth]), (hfits us hchain).nodup,
        fun v _ ↦ List.not_mem_nil⟩
    · refine ⟨(hfits us hchain).length_le, fun v hv ↦ ?_⟩
      simpa using (hfits us hchain).notMem_opened v hv
  · rintro ⟨ht, hchains, hr⟩
    refine ⟨resolveText_of_fits ht fun us hchain ↦ ?_, hr⟩
    obtain ⟨hlength, hne⟩ := hchains us hchain
    exact ⟨hlength, (fits_of_resolveText_ok ht hchain).nodup, fun v hv ↦ by simpa using hne v hv⟩

/-- **Compounds are transparent.** A token that resolves and names a compound has the order of
its definition, entry by entry, and the scale of the definition times that of the token. A
compound that is not spelled as a number resolves exactly if its definition does, no chain of
the definition leads back to it, and none is longer than fifteen. -/
theorem transparency_of_resolveTokens (hu : c.compoundUnit? token = some (u, multiplier)) :
    (token ≠ "" → ∀ r, c.resolveTokens [token] = .ok r →
      ∃ t, c.resolve u.definition = .ok t ∧
        (∀ d, Number.Same (r.signature.get d) (t.signature.get d)) ∧
        r.scale = t.scale * (u.scale * multiplier)) ∧
    (namesUnit token → ((∃ r, c.resolveTokens [token] = .ok r) ↔
      (∃ t, c.resolve u.definition = .ok t) ∧
        ∀ us, c.Chain u.definition us → us.length ≤ 15 ∧ ∀ v ∈ us, v.symbol ≠ u.symbol)) := by
  constructor
  · intro hne r hr
    rcases token_cases token with rfl | ⟨x, hx⟩ | hnames
    · exact absurd rfl hne
    · simp [resolveTokens, resolveList_stray hx] at hr
    · obtain ⟨unit, hunit, rfl⟩ := (resolveTokens_singleton_eq_ok_iff hnames).1 hr
      obtain ⟨t, ht, -, rfl⟩ := (resolveUnit_compound_eq_ok_iff hu).1 hunit
      exact ⟨t, ht, fun d ↦ same_get_empty_add t.signature d, rfl⟩
  · intro hnames
    constructor
    · rintro ⟨r, hr⟩
      obtain ⟨unit, hunit, -⟩ := (resolveTokens_singleton_eq_ok_iff hnames).1 hr
      obtain ⟨t, ht, hchains, -⟩ := (resolveUnit_compound_eq_ok_iff hu).1 hunit
      exact ⟨⟨t, ht⟩, hchains⟩
    · rintro ⟨⟨t, ht⟩, hchains⟩
      have hunit := (resolveUnit_compound_eq_ok_iff hu).2 ⟨t, ht, hchains, rfl⟩
      exact ⟨_, (resolveTokens_singleton_eq_ok_iff hnames).2 ⟨_, hunit, rfl⟩⟩

end Token

/-- A kilowatt nests two compounds, and resolves as its definition a thousand times over. -/
theorem transparency_of_resolveTokens_kilowatt :
    standard.compoundUnit? "kW" = some (⟨"W", 1.0, "J/s"⟩, 1000.0) ∧
    ∃ r t, standard.resolveTokens ["kW"] = .ok r ∧ standard.resolve "J/s" = .ok t ∧
      (∀ d, Number.Same (r.signature.get d) (t.signature.get d)) ∧
      r.scale = t.scale * (1.0 * 1000.0) ∧
      ∀ us, standard.Chain "J/s" us → us.length ≤ 15 ∧ ∀ v ∈ us, v.symbol ≠ "W" := by
  have hu : standard.compoundUnit? "kW" = some (⟨"W", 1.0, "J/s"⟩, 1000.0) := by rfl
  have hok : ∃ r, standard.resolveTokens ["kW"] = .ok r := exists_ok_of_isOk (by decide +kernel)
  obtain ⟨r, hr⟩ := hok
  obtain ⟨hreads, hresolves⟩ := transparency_of_resolveTokens hu
  obtain ⟨t, ht, hsame, hscale⟩ := hreads (by decide) r hr
  exact ⟨hu, r, t, hr, ht, hsame, hscale, ((hresolves (by decide +kernel)).1 ⟨r, hr⟩).2⟩

/-- Two compounds that are spelled as tokens that are no units. -/
def unreadable : Catalog :=
  ⟨standardBaseUnits, [⟨"2", 1.0, "m"⟩, ⟨"", 2.0, "m"⟩], []⟩

/-- A number and an empty token are read as such, also where the catalog has compounds for
them. -/
theorem not_transparency_of_numeral :
    (unreadable.compoundUnit? "2" = some (⟨"2", 1.0, "m"⟩, 1.0) ∧
      unreadable.resolve "m" = .ok ⟨⟨some 1.0, none, none, none, none, none⟩, 1.0⟩ ∧
      (∀ us, unreadable.Chain "m" us → us = []) ∧
      unreadable.resolveTokens ["2"] = .error (.strayNumber "2")) ∧
    (unreadable.compoundUnit? "" = some (⟨"", 2.0, "m"⟩, 1.0) ∧
      unreadable.resolveTokens [""] = .ok .unity) := by
  have hchains : ∀ us, unreadable.Chain "m" us → us = [] := by
    intro us hchain
    cases hchain with
    | nil => rfl
    | cons hmention _ =>
      obtain ⟨token, htoken, -, multiplier, hu⟩ := hmention
      have hm : token = "m" := by
        simpa [show (Split.ofString "m").allTokens = ["m"] by decide +kernel] using htoken
      have hnone : (unreadable.compoundUnit? "m").isNone := by decide +kernel
      simp [← hm, hu] at hnone
  exact ⟨⟨rfl, by decide +kernel, hchains, by decide +kernel⟩, rfl, by decide +kernel⟩

end Catalog

end DimensionalAnalysis
