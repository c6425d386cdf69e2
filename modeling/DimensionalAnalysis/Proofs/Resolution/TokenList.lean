import DimensionalAnalysis.Proofs.Expression.Terms
import DimensionalAnalysis.Resolution.Resolver

/-!
# Lists of tokens

A token is empty, an exponent, or stands for a unit, and the fold over a list does one thing for
each of the three (`resolveList_empty`, `resolveList_exponent`, `resolveList_unit`). Its outcome
comes from its tokens alone: a list that resolves has resolved every token that stands for a
unit, and a list that fails does so by a stray number or by the fault of such a token.

Expressions inherit this, for any reading of one token.

That reading is a parameter here (`single`). What is proved of lists holds at every depth of
nesting, and knows neither a catalog nor which compounds are open.
-/

namespace DimensionalAnalysis

section Fold

variable {single : String → Except Fault Resolution} {previous : Option String}
  {acc r : Resolution} {token : String} {tokens : List String}

/-! ### One token of a list -/

/-- Without tokens nothing is added. -/
@[simp]
theorem resolveList_nil : resolveList single previous acc [] = .ok acc :=
  rfl

/-- An empty token is passed over, and a unit before it is out of reach for an exponent behind
it. -/
theorem resolveList_empty :
    resolveList single previous acc ("" :: tokens) = resolveList single none acc tokens := by
  simp [resolveList]

/-- An exponent looks the unit before it up once more, and raises it. -/
theorem resolveList_exponent {x : Float} (h : exponent? token = some x) (unit : String) :
    resolveList single (some unit) acc (token :: tokens) =
      single unit >>= fun r ↦ resolveList single none (acc.raise r x) tokens := by
  simp [resolveList, h, ne_empty_of_exponent? h]

/-- An exponent with no unit before it is a stray number. -/
theorem resolveList_stray {x : Float} (h : exponent? token = some x) :
    resolveList single none acc (token :: tokens) = .error (.strayNumber token) := by
  simp [resolveList, h, ne_empty_of_exponent? h]

/-- A unit multiplies, and is the one that an exponent behind it would raise. -/
theorem resolveList_unit (h : namesUnit token) :
    resolveList single previous acc (token :: tokens) =
      single token >>= fun r ↦ resolveList single (some token) (acc.times r) tokens := by
  obtain ⟨hne, hx⟩ := namesUnit_iff.1 h
  simp [resolveList, hx, hne]

/-! ### Where the outcome of a list comes from -/

/-- A list that resolves has resolved every token that stands for a unit. -/
theorem single_ok_of_resolveList_ok (h : resolveList single previous acc tokens = .ok r) :
    ∀ token ∈ tokens, namesUnit token → ∃ t, single token = .ok t := by
  induction tokens generalizing previous acc with
  | nil => simp
  | cons first rest ih =>
    intro token htoken hunit
    -- Whatever the first token does, the rest resolves, from some start. So the first token
    -- matters only where it is the one that is asked about.
    have hrest : ∀ {previous acc}, resolveList single previous acc rest = .ok r → token ∈ rest →
        ∃ t, single token = .ok t := fun h hmem ↦ ih h token hmem hunit
    rcases token_cases first with rfl | ⟨x, hx⟩ | hfirst
    · have hne : token ≠ "" := (namesUnit_iff.1 hunit).1
      exact hrest (resolveList_empty ▸ h) (by simpa [hne] using htoken)
    · have hne : token ≠ first := by
        rintro rfl
        simp [(namesUnit_iff.1 hunit).2] at hx
      rcases previous with - | unit
      · simp [resolveList_stray hx] at h
      · rw [resolveList_exponent hx, bind_eq_ok_iff] at h
        obtain ⟨t, -, h⟩ := h
        exact hrest h (by simpa [hne] using htoken)
    · rw [resolveList_unit hfirst, bind_eq_ok_iff] at h
      obtain ⟨t, ht, h⟩ := h
      rcases List.mem_cons.1 htoken with rfl | hmem
      · exact ⟨t, ht⟩
      · exact hrest h hmem

/-- A list fails by a stray number, or as one of its tokens does that stand for a unit. The
unit in front of the list counts as such a token. -/
theorem fault_of_resolveList_error {f : Fault}
    (h : resolveList single previous acc tokens = .error f) :
    (∃ token, f = .strayNumber token) ∨
      ∃ token, (previous = some token ∨ token ∈ tokens ∧ namesUnit token) ∧
        single token = .error f := by
  induction tokens generalizing previous acc with
  | nil => simp at h
  | cons first rest ih =>
    -- a fault further back comes from a token that is further back
    have hrest : ∀ {acc}, resolveList single none acc rest = .error f →
        (∃ token, f = .strayNumber token) ∨
          ∃ token, (previous = some token ∨ token ∈ first :: rest ∧ namesUnit token) ∧
            single token = .error f := by
      intro acc h
      rcases ih h with hstray | ⟨token, hmem, hf⟩
      · exact .inl hstray
      · simp only [reduceCtorEq, false_or] at hmem
        exact .inr ⟨token, .inr ⟨List.mem_cons_of_mem _ hmem.1, hmem.2⟩, hf⟩
    rcases token_cases first with rfl | ⟨x, hx⟩ | hfirst
    · exact hrest (resolveList_empty ▸ h)
    · rcases previous with - | unit
      · rw [resolveList_stray hx, Except.error.injEq] at h
        exact .inl ⟨first, h.symm⟩
      · rw [resolveList_exponent hx, bind_eq_error_iff] at h
        rcases h with hf | ⟨t, -, h⟩
        · exact .inr ⟨unit, .inl rfl, hf⟩
        · exact hrest h
    · rw [resolveList_unit hfirst, bind_eq_error_iff] at h
      rcases h with hf | ⟨t, -, h⟩
      · exact .inr ⟨first, .inr ⟨List.mem_cons_self, hfirst⟩, hf⟩
      · rcases ih h with hstray | ⟨token, hmem, hf⟩
        · exact .inl hstray
        · rcases hmem with hprev | ⟨hmem, hunit⟩
          · cases hprev
            exact .inr ⟨first, .inr ⟨List.mem_cons_self, hfirst⟩, hf⟩
          · exact .inr ⟨token, .inr ⟨List.mem_cons_of_mem _ hmem, hunit⟩, hf⟩

end Fold

/-! ### Expressions -/

section Text

variable {single : String → Except Fault Resolution} {expression : String} {r : Resolution}

/-- An expression resolves exactly if both sides do and their quotient is defined. -/
theorem resolveText_eq_ok_iff :
    resolveText single expression = .ok r ↔
      ∃ n d, resolveList single none .unity (Split.ofString expression).numerator = .ok n ∧
        resolveList single none .unity (Split.ofString expression).denominator = .ok d ∧
        n.combine d = .ok r := by
  simp [resolveText, bind_eq_ok_iff, mapError_eq_ok_iff]

/-- An expression that resolves has resolved every token that stands for a unit. -/
theorem single_ok_of_resolveText_ok (h : resolveText single expression = .ok r) :
    ∀ token ∈ (Split.ofString expression).allTokens, namesUnit token →
      ∃ t, single token = .ok t := by
  obtain ⟨n, d, hn, hd, -⟩ := resolveText_eq_ok_iff.1 h
  intro token htoken hunit
  rcases List.mem_append.1 htoken with hmem | hmem
  · exact single_ok_of_resolveList_ok hn token hmem hunit
  · exact single_ok_of_resolveList_ok hd token hmem hunit

/-- A quotient is defined unless the scale below is zero. -/
theorem combine_eq_ok_iff {n d : Resolution} :
    n.combine d = .ok r ↔
      (d.scale == 0.0) = false ∧ r = ⟨n.signature - d.signature, n.scale / d.scale⟩ := by
  rw [Resolution.combine]
  cases d.scale == 0.0
  · simp only [Bool.false_eq_true, if_false, Except.ok.injEq, true_and]
    exact eq_comm
  · simp

/-- The one fault of a quotient. -/
theorem combine_eq_error_iff {n d : Resolution} {f : Fault} :
    n.combine d = .error f ↔ d.scale == 0.0 ∧ f = .zeroScale d.signature.text := by
  rw [Resolution.combine]
  cases d.scale == 0.0
  · simp
  · simp only [if_true, Except.error.injEq, true_and]
    exact eq_comm

/-- An expression fails by a stray number, by its denominator's scale, or as one of its tokens
does that stand for a unit. -/
theorem fault_of_resolveText_error {f : Fault} (h : resolveText single expression = .error f) :
    (∃ token, f = .strayNumber token) ∨ f = .zeroScale expression ∨
      ∃ token ∈ (Split.ofString expression).allTokens, namesUnit token ∧
        single token = .error f := by
  have hlist : ∀ {tokens}, tokens ⊆ (Split.ofString expression).allTokens →
      resolveList single none .unity tokens = .error f →
      (∃ token, f = .strayNumber token) ∨
        ∃ token ∈ (Split.ofString expression).allTokens, namesUnit token ∧
          single token = .error f := by
    intro tokens hsub h
    rcases fault_of_resolveList_error h with hstray | ⟨token, hmem, hf⟩
    · exact .inl hstray
    · simp only [reduceCtorEq, false_or] at hmem
      exact .inr ⟨token, hsub hmem.1, hmem.2, hf⟩
  simp only [resolveText, bind_eq_error_iff, mapError_eq_error_iff] at h
  rcases h with h | ⟨n, -, h | ⟨d, -, f', h, rfl⟩⟩
  · rcases hlist (List.subset_append_left _ _) h with hstray | hunit
    · exact .inl hstray
    · exact .inr (.inr hunit)
  · rcases hlist (List.subset_append_right _ _) h with hstray | hunit
    · exact .inl hstray
    · exact .inr (.inr hunit)
  · rw [(combine_eq_error_iff.1 h).2]
    exact .inr (.inl rfl)

end Text

end DimensionalAnalysis
