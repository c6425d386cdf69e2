import DimensionalAnalysis.Proofs.Number.Text
import DimensionalAnalysis.Proofs.Signature.Exact
import DimensionalAnalysis.Signature.Text

/-!
# The normal form of a signature

Whether a dimension is absent or stored with a zero, and with a zero of which sign, is nothing
that the equality of signatures sees. `Signature.normalized` drops the zeros, and finite
signatures are equal exactly if they have one normal form (`Signature.normalized_eq_iff`).

All that a signature shows but its stored entries is its normal form in another shape. The list
of nonzero entries is that of the normal form (`toList_normalized`), from which it can be
collected again (`ofList_nonzero`). The text is read back as the normal form (`ofText?_text`),
since names have neither of the two marks in them and the numerals read back bit for bit. A
difference has no dimension exactly if there is nothing to tell apart (`isDimensionless_sub`),
because no difference of distinct doubles is rounded to zero. So all of them decide on equality
(`Signature.beq_observations`).

The reader of texts is there for that proof: a function that has an inverse on the left tells
different arguments apart. Nothing else reads the text of a signature.

An exponent that is infinite or a NaN is not equal to itself, which is why signatures are finite
here.
-/

namespace DimensionalAnalysis.Signature

open Number (rational?)

variable {s t : Signature} {d : Dimension} {x : Float} {p : ℚ}

/-! ### Lists of entries -/

/-- The list of entries says what is stored where. -/
theorem mem_toList : (d, x) ∈ s.toList ↔ s.entry d = some x := by
  simp only [toList, List.mem_filterMap, Dimension.mem_all, true_and, Option.map_eq_some_iff,
    Prod.mk.injEq]
  constructor
  · rintro ⟨e, y, h, rfl, rfl⟩
    exact h
  · intro h
    exact ⟨d, x, h, rfl, rfl⟩

/-- The nonzero entries are the stored ones that are not zero. -/
theorem mem_nonzero : (d, x) ∈ s.nonzero ↔ s.entry d = some x ∧ x != 0.0 := by
  rw [nonzero, List.mem_filter, mem_toList]

/-- Signatures that store the same entries are the same. The order of the list is fixed, so that
it carries no information of its own. -/
theorem toList_injective (h : s.toList = t.toList) : s = t := by
  ext d : 1
  refine Option.ext fun x ↦ ?_
  rw [← mem_toList, ← mem_toList, h]

/-- No dimension is listed twice. -/
theorem nodup_map_fst_toList (s : Signature) : (s.toList.map Prod.fst).Nodup := by
  rw [toList, List.map_filterMap]
  have hkey : ∀ d e, e ∈ ((s.entry d).map (d, ·)).map Prod.fst → e = d := by
    intro d e h
    simp only [Option.map_map, Option.mem_def, Option.map_eq_some_iff] at h
    obtain ⟨-, -, rfl⟩ := h
    rfl
  refine List.Nodup.filterMap (fun d d' e h h' ↦ ?_) (by decide)
  rw [← hkey d e h, ← hkey d' e h']

/-! ### Collecting entries -/

section Collecting

variable {l : List (Dimension × Float)}

/-- Entries of other dimensions leave an entry as it is. -/
theorem entry_foldl_increment_of_not_mem (s : Signature) (h : d ∉ l.map Prod.fst) :
    (l.foldl (fun s (e, x) ↦ s.increment e x) s).entry d = s.entry d := by
  induction l generalizing s with
  | nil => rfl
  | cons p l ih =>
    rw [List.map_cons, List.mem_cons, not_or] at h
    rw [List.foldl_cons, ih _ h.2, entry_increment, if_neg h.1]

/-- An entry whose dimension comes once is added to what is there. -/
theorem entry_foldl_increment_of_mem (s : Signature) (hnodup : (l.map Prod.fst).Nodup)
    (h : (d, x) ∈ l) :
    (l.foldl (fun s (e, x) ↦ s.increment e x) s).entry d = some (s.get d + x) := by
  induction l generalizing s with
  | nil => simp at h
  | cons p l ih =>
    rw [List.map_cons, List.nodup_cons] at hnodup
    rw [List.foldl_cons]
    -- its turn comes now, and no later entry touches the dimension, or it comes later
    rcases List.mem_cons.1 h with rfl | h
    · rw [entry_foldl_increment_of_not_mem _ hnodup.1, entry_increment, if_pos rfl]
    · have hne : d ≠ p.1 := by
        rintro rfl
        exact hnodup.1 (List.mem_map.2 ⟨_, h, rfl⟩)
      rw [ih _ hnodup.2 h, get, entry_increment, if_neg hne, ← get]

/-- Each of different dimensions gets its exponent, added to a zero. -/
theorem entry_ofList_of_mem (hnodup : (l.map Prod.fst).Nodup) (h : (d, x) ∈ l) :
    (ofList l).entry d = some (0.0 + x) := by
  rw [ofList, entry_foldl_increment_of_mem empty hnodup h, get_empty]

/-- A dimension that is not in the list is absent. -/
theorem entry_ofList_of_not_mem (h : d ∉ l.map Prod.fst) : (ofList l).entry d = none := by
  rw [ofList, entry_foldl_increment_of_not_mem empty h, entry_empty]

/-- The entries of a signature, in any order, are collected with their exponents each added to a
zero. -/
theorem entry_ofList_of_perm (h : l.Perm s.toList) (d : Dimension) :
    (ofList l).entry d = (s.entry d).map (0.0 + ·) := by
  have hnodup : (l.map Prod.fst).Nodup := (h.map Prod.fst).nodup_iff.2 s.nodup_map_fst_toList
  cases hd : s.entry d with
  | none =>
    refine entry_ofList_of_not_mem fun hmem ↦ ?_
    obtain ⟨⟨e, x⟩, hentry, rfl⟩ := List.mem_map.1 hmem
    rw [mem_toList.1 (h.mem_iff.1 hentry)] at hd
    exact absurd hd nofun
  | some x => exact entry_ofList_of_mem hnodup (h.mem_iff.2 (mem_toList.2 hd))

end Collecting

/-! ### The normal form -/

/-- The normal form stores the exponents other than zero. -/
theorem entry_normalized_eq (s : Signature) (d : Dimension) :
    s.normalized.entry d = if s.get d == 0.0 then none else some (s.get d) := by
  rw [entry_normalized]
  cases h : s.entry d with
  | none =>
    rw [get_of_entry_none h]
    decide +kernel
  | some x =>
    rw [get_of_entry_some h, Option.filter, bne]
    cases x == 0.0 <;> rfl

/-- The normal form has the exponents of the signature. -/
theorem rational?_get_normalized (s : Signature) (d : Dimension) :
    rational? (s.normalized.get d) = rational? (s.get d) := by
  rw [get.eq_1 s.normalized, entry_normalized_eq]
  split_ifs with h
  · rw [Number.beq_zero_iff.1 h]
    rfl
  · rfl

/-- **Finite signatures are equal exactly if they have one normal form.** Equal exponents are
the same doubles, once they are not zero, and where they are zero the normal form stores
nothing. -/
theorem normalized_eq_iff (hs : s.IsFinite) : s.normalized = t.normalized ↔ s == t := by
  rw [beq_iff_rational?_get hs]
  constructor
  · intro h d
    rw [← rational?_get_normalized, h, rational?_get_normalized]
  · intro h
    ext d : 1
    rw [entry_normalized_eq, entry_normalized_eq]
    obtain ⟨p, hp⟩ := Option.isSome_iff_exists.1 (isFinite_iff.1 hs d)
    have hq := (h d).symm.trans hp
    rcases eq_or_ne p 0 with rfl | hne
    · rw [if_pos (Number.beq_zero_iff.2 hp), if_pos (Number.beq_zero_iff.2 hq)]
    · rw [Number.eq_of_rational? hp hq hne]

/-- The nonzero entries are those of the normal form. -/
theorem toList_normalized (s : Signature) : s.normalized.toList = s.nonzero := by
  rw [nonzero, toList, toList, List.filter_filterMap]
  refine List.filterMap_congr fun d _ ↦ ?_
  rw [entry_normalized]
  cases s.entry d with
  | none => rfl
  | some x => cases hx : x != 0.0 <;> simp [Option.filter, hx]

/-- Collecting the nonzero entries gives the normal form. -/
theorem ofList_nonzero (s : Signature) : ofList s.nonzero = s.normalized := by
  ext d : 1
  rw [← toList_normalized, entry_ofList_of_perm (.refl _)]
  cases hd : s.normalized.entry d with
  | none => rfl
  | some x =>
    have hx := (mem_nonzero.1 (s.toList_normalized ▸ mem_toList.2 hd)).2
    rw [Option.map_some, Number.zero_add_of_bne_zero hx]

/-- One list of nonzero entries is one normal form. -/
theorem nonzero_eq_iff : s.nonzero = t.nonzero ↔ s.normalized = t.normalized := by
  rw [← toList_normalized, ← toList_normalized]
  exact ⟨toList_injective, congrArg toList⟩

/-- The nonzero entries of a finite signature are finite. -/
theorem IsFinite.exists_rational? (hs : s.IsFinite) (h : (d, x) ∈ s.nonzero) :
    ∃ p, rational? x = some p := by
  rw [← get_of_entry_some (mem_nonzero.1 h).1]
  exact Option.isSome_iff_exists.1 (isFinite_iff.1 hs d)

/-! ### No dimension -/

/-- Without a dimension all exponents are zero. -/
theorem isDimensionless_iff : s.isDimensionless ↔ ∀ d, rational? (s.get d) = some 0 := by
  rw [isDimensionless, List.all_eq_true]
  exact ⟨fun h d ↦ Number.beq_zero_iff.1 (h d (Dimension.mem_all d)),
    fun h d _ ↦ Number.beq_zero_iff.2 (h d)⟩

/-- A signature has no dimension exactly if its normal form is empty. -/
theorem isDimensionless_iff_normalized : s.isDimensionless ↔ s.normalized = empty := by
  rw [isDimensionless_iff]
  constructor
  · intro h
    ext d : 1
    rw [entry_normalized_eq, if_pos (Number.beq_zero_iff.2 (h d)), entry_empty]
  · intro h d
    rw [← rational?_get_normalized, h, get_empty, Number.rational?_zero]

/-- A difference has no dimension exactly if the signatures are equal, whatever their exponents
are. -/
theorem isDimensionless_sub : (s - t).isDimensionless ↔ s == t := by
  rw [isDimensionless_iff, beq_iff]
  refine forall_congr' fun d ↦ ?_
  rw [rational?_get_sub_eq, ← Number.beq_zero_iff, Number.sub_beq_zero_iff]

/-! ### Reading a text -/

/-- Reads an entry: the name of a dimension, and its exponent behind a `^` unless that is one. -/
def ofEntryText? (text : List Char) : Option (Dimension × Float) :=
  let name := String.ofList (text.takeWhile (· != '^'))
  match text.dropWhile (· != '^') with
  | [] => (Dimension.ofName? name).map (·, 1.0)
  | _ :: numeral => do
    let d ← Dimension.ofName? name
    let x ← exponent? (String.ofList numeral)
    pure (d, x)

/-- Reads the text of a signature: the word for no dimension, or entries between stars. -/
def ofText? (text : String) : Option Signature :=
  if text = "dimensionless" then some empty
  else ((text.toList.splitOn '*').mapM ofEntryText?).map ofList

/-- Names have neither of the marks in them that stand between names and exponents. -/
theorem ne_of_mem_name {c : Char} (h : c ∈ d.name.toList) : c ≠ '*' ∧ c ≠ '^' := by
  have hall : d.name.toList.all fun c ↦ c != '*' && c != '^' := by
    cases d <;> decide
  simpa using List.all_eq_true.1 hall c h

/-- An entry is read back from its text. -/
theorem ofEntryText?_entryText (d : Dimension) (hx : rational? x = some p) :
    ofEntryText? (entryText d x).toList = some (d, x) := by
  have hname : ∀ c ∈ d.name.toList, (c != '^') = true := fun c hc ↦ by
    simpa using (ne_of_mem_name hc).2
  rw [entryText]
  split_ifs with hone
  · obtain rfl := (Number.beq_iff_eq_of_ne_zero Number.rational?_one one_ne_zero).1 hone
    simp [ofEntryText?, List.takeWhile_eq_self_iff.2 hname, List.dropWhile_eq_nil_iff.2 hname]
  · have htext : (d.name ++ "^" ++ Number.text x).toList =
        d.name.toList ++ '^' :: (Number.text x).toList := by
      simp
    simp [ofEntryText?, htext, List.takeWhile_append_of_pos hname,
      List.dropWhile_append_of_pos hname, Number.exponent?_text hx]

/-- No star is in the text of an entry, so that stars between entries are found again. -/
theorem not_mem_entryText (d : Dimension) (x : Float) : '*' ∉ (entryText d x).toList := by
  have hname : '*' ∉ d.name.toList := fun h ↦ (ne_of_mem_name h).1 rfl
  have hnumber : '*' ∉ (Number.text x).toList := fun h ↦
    absurd (Number.isTextChar_of_mem_text h) (by decide)
  rw [entryText]
  split_ifs
  · exact hname
  · simpa using ⟨hname, hnumber⟩

/-- The text of a signature with a dimension is that of its entries with stars between. -/
theorem splitOn_text (h : s.nonzero ≠ []) :
    ("*".intercalate (s.nonzero.map fun (d, x) ↦ entryText d x)).toList.splitOn '*' =
      s.nonzero.map fun (d, x) ↦ (entryText d x).toList := by
  rw [String.toList_intercalate, List.map_map]
  refine List.splitOn_intercalate '*' ?_ (by simpa using h)
  intro part hpart
  obtain ⟨⟨d, x⟩, -, rfl⟩ := List.mem_map.1 hpart
  exact not_mem_entryText d x

/-- Finite entries are read back from their texts. -/
theorem mapM_ofEntryText? {l : List (Dimension × Float)}
    (h : ∀ d x, (d, x) ∈ l → ∃ p, rational? x = some p) :
    (l.map fun (d, x) ↦ (entryText d x).toList).mapM ofEntryText? = some l := by
  induction l with
  | nil => rfl
  | cons entry l ih =>
    obtain ⟨d, x⟩ := entry
    obtain ⟨p, hp⟩ := h d x List.mem_cons_self
    rw [List.map_cons, List.mapM_cons, ofEntryText?_entryText d hp,
      ih fun e y hy ↦ h e y (List.mem_cons_of_mem _ hy)]
    rfl

/-- **A finite signature is read back from its text**, up to its zeros. The text names the
nonzero entries, each with a numeral that reads back as the exponent, and collecting them gives
the normal form. -/
theorem ofText?_text (hs : s.IsFinite) : ofText? s.text = some s.normalized := by
  rw [text]
  split_ifs with h
  · rw [isDimensionless_iff_normalized.1 h]
    rfl
  · have hne : s.nonzero ≠ [] := fun hnil ↦
      h (isDimensionless_iff_normalized.2 (toList_injective (by
        rw [toList_normalized, hnil]
        rfl)))
    have hread := mapM_ofEntryText? fun d x hmem ↦ hs.exists_rational? (d := d) (x := x) hmem
    rw [← splitOn_text hne] at hread
    rw [ofText?, if_neg, hread, Option.map_some, ofList_nonzero]
    -- the word for no dimension is not read as entries
    intro hword
    rw [hword] at hread
    have hnone : ("dimensionless".toList.splitOn '*').mapM ofEntryText? = none := by decide +kernel
    exact absurd (hnone.symm.trans hread) nofun

/-- Finite signatures with one text have one normal form. -/
theorem text_eq_iff (hs : s.IsFinite) (ht : t.IsFinite) :
    s.text = t.text ↔ s.normalized = t.normalized := by
  constructor
  · intro h
    have hread := ofText?_text hs
    rw [h, ofText?_text ht] at hread
    exact (Option.some.inj hread).symm
  · intro h
    have hdimensionless : s.isDimensionless = t.isDimensionless := by
      rw [Bool.eq_iff_iff, isDimensionless_iff_normalized, isDimensionless_iff_normalized, h]
    rw [text, text, hdimensionless, nonzero_eq_iff.2 h]

/-! ### All that shows -/

/-- Finite signatures are equal exactly if their exponents compare equal. -/
theorem beq_iff_get (hs : s.IsFinite) (ht : t.IsFinite) :
    s == t ↔ ∀ d, s.get d == t.get d := by
  rw [beq_iff_rational?_get hs]
  refine forall_congr' fun d ↦ ?_
  obtain ⟨p, hp⟩ := Option.isSome_iff_exists.1 (isFinite_iff.1 hs d)
  obtain ⟨q, hq⟩ := Option.isSome_iff_exists.1 (isFinite_iff.1 ht d)
  rw [Number.beq_iff hp hq, hp, hq, Option.some.injEq]

/-- **What a finite signature shows decides on equality, and equality on what it shows.** Signatures
are equal, and describe one dimension, exactly if one of the following is equal and then all of
them are: the exponents, the nonzero entries, the texts and the normal forms. The same goes for a
difference without a dimension. So equality is an equivalence on finite signatures. -/
theorem beq_observations :
    (∀ s t : Signature, s.IsFinite → t.IsFinite → List.TFAE [s == t, s.sameDimension t,
      ∀ d, s.get d == t.get d, s.nonzero = t.nonzero, s.text = t.text,
      s.normalized = t.normalized, (s - t).isDimensionless]) ∧
    Equivalence fun s t : {s : Signature // s.IsFinite} ↦ s.1 == t.1 := by
  constructor
  · intro s t hs ht
    tfae_have 1 ↔ 2 := Iff.rfl
    tfae_have 1 ↔ 3 := beq_iff_get hs ht
    tfae_have 4 ↔ 6 := nonzero_eq_iff
    tfae_have 5 ↔ 6 := text_eq_iff hs ht
    tfae_have 6 ↔ 1 := normalized_eq_iff hs
    tfae_have 7 ↔ 1 := isDimensionless_sub
    tfae_finish
  · exact ⟨fun s ↦ beq_self_iff.2 s.2, fun h ↦ BEq.symm h, fun h h' ↦ BEq.trans h h'⟩

/-- A stored zero and a negative one are not seen, but an exponent is. -/
theorem beq_observations_stored_zeros :
    ∃ s t u : Signature, (s.IsFinite ∧ t.IsFinite ∧ u.IsFinite) ∧ s ≠ t ∧ s.nonzero = t.nonzero ∧
      s.text = t.text ∧ s.normalized = t.normalized ∧ s.text ≠ u.text := by
  obtain ⟨s, hs⟩ : ∃ s, s = ((of .length).increment .mass 0.0).increment .time 2.0 := ⟨_, rfl⟩
  obtain ⟨t, ht⟩ : ∃ t, t = ofList [(.time, 2.0), (.charge, -0.0), (.length, 1.0)] := ⟨_, rfl⟩
  obtain ⟨u, hu⟩ : ∃ u, u = (of .length).increment .time 0.5 := ⟨_, rfl⟩
  have hfinite : ∀ v ∈ [s, t, u], v.IsFinite := by
    have hall : [s, t, u].all fun v ↦ Dimension.all.all fun d ↦ (v.get d).isFinite := by
      rw [hs, ht, hu]
      decide +kernel
    simpa [IsFinite] using hall
  have hsFinite := hfinite s (by simp)
  have htFinite := hfinite t (by simp)
  have huFinite := hfinite u (by simp)
  have hequal : s == t ∧ (s == u) = false ∧ s ≠ t := by
    rw [hs, ht, hu]
    decide +kernel
  have hst := beq_observations.1 s t hsFinite htFinite
  have hsu := beq_observations.1 s u hsFinite huFinite
  refine ⟨s, t, u, ⟨hsFinite, htFinite, huFinite⟩, hequal.2.2, (hst.out 0 3).1 hequal.1,
    (hst.out 0 4).1 hequal.1, (hst.out 0 5).1 hequal.1, fun h ↦ ?_⟩
  have := (hsu.out 4 0).1 h
  rw [hequal.2.1] at this
  exact absurd this (by decide)

end DimensionalAnalysis.Signature
