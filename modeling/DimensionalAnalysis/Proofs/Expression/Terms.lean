import DimensionalAnalysis.Expression.Basic
import DimensionalAnalysis.Proofs.Expression.Splitting
import DimensionalAnalysis.Proofs.Fallible

/-!
# Reading terms

A token is empty, an exponent, or stands for a unit. Reading does one thing for each of the
three: an empty token is passed over (`ofTokens_empty`), an exponent that is met is a stray one
(`ofTokens_stray`), and a unit is a term together with the exponent behind it, if that is what
comes next (`ofTokens_exponent`, `ofTokens_unit`).

What is read comes from the tokens: symbols are tokens that stand for units, and exponents are
the values of tokens (`Expression.mem_terms_of_ofString`).

The reader looks one token ahead, so that its recursion has more cases than there are kinds of
tokens. `tokens_induction` sorts them by what is read, and proofs on lists of tokens go along
it.
-/

namespace DimensionalAnalysis

/-! ### Tokens -/

/-- What it takes for a token to stand for a unit. -/
theorem namesUnit_iff {token : String} : namesUnit token ↔ token ≠ "" ∧ exponent? token = none := by
  simp [namesUnit]

@[simp]
theorem exponent?_empty : exponent? "" = none := by
  decide

theorem ne_empty_of_exponent? {token : String} {x : Float} (h : exponent? token = some x) :
    token ≠ "" := by
  rintro rfl
  simp at h

/-- There is no other kind of token. -/
theorem token_cases (token : String) :
    token = "" ∨ (∃ x, exponent? token = some x) ∨ namesUnit token := by
  by_cases h : token = ""
  · exact .inl h
  · rcases hx : exponent? token with - | x
    · exact .inr (.inr (namesUnit_iff.2 ⟨h, hx⟩))
    · exact .inr (.inl ⟨x, rfl⟩)

namespace Term

variable {token next : String} {tokens : List String}

/-! ### One token of a list -/

@[simp]
theorem ofTokens_nil : ofTokens [] = .ok [] := by
  rw [ofTokens]

/-- An empty token is passed over. -/
theorem ofTokens_empty : ofTokens ("" :: tokens) = ofTokens tokens := by
  rw [ofTokens.eq_def]
  exact if_pos rfl

/-- An exponent that is met was not taken by a unit before it. -/
theorem ofTokens_stray {x : Float} (h : exponent? token = some x) :
    ofTokens (token :: tokens) = .error (.strayExponent token) := by
  rw [ofTokens.eq_def]
  simp [ne_empty_of_exponent? h, h]

/-- A unit takes the exponent behind it. -/
theorem ofTokens_exponent {x : Float} (h : namesUnit token) (hx : exponent? next = some x) :
    ofTokens (token :: next :: tokens) = (ofTokens tokens).map (⟨token, some x⟩ :: ·) := by
  obtain ⟨hne, hnone⟩ := namesUnit_iff.1 h
  rw [ofTokens.eq_def]
  simp [hne, hnone, hx]

/-- A unit with no exponent behind it. -/
theorem ofTokens_unit (h : namesUnit token) (hnext : ∀ next ∈ tokens.head?, exponent? next = none) :
    ofTokens (token :: tokens) = (ofTokens tokens).map (⟨token, none⟩ :: ·) := by
  obtain ⟨hne, hnone⟩ := namesUnit_iff.1 h
  rw [ofTokens.eq_def]
  rcases tokens with - | ⟨next, tokens⟩
  · simp [hne, hnone, Except.map]
  · simp [hne, hnone, hnext next rfl]

/-! ### Lists of tokens -/

/-- Lists of tokens by what is read at their front. -/
theorem tokens_induction {motive : List String → Prop} (nil : motive [])
    (empty : ∀ tokens, motive tokens → motive ("" :: tokens))
    (stray : ∀ token tokens x, exponent? token = some x → motive (token :: tokens))
    (exponent : ∀ token next tokens x, namesUnit token → exponent? next = some x → motive tokens →
      motive (token :: next :: tokens))
    (unit : ∀ token tokens, namesUnit token → (∀ next ∈ tokens.head?, exponent? next = none) →
      motive tokens → motive (token :: tokens)) :
    ∀ tokens, motive tokens
  | [] => nil
  | token :: tokens => by
    rcases token_cases token with rfl | ⟨x, hx⟩ | htoken
    · exact empty tokens (tokens_induction nil empty stray exponent unit tokens)
    · exact stray token tokens x hx
    · rcases tokens with - | ⟨next, tokens⟩
      · exact unit token [] htoken (by simp) nil
      · rcases hx : exponent? next with - | x
        · exact unit token (next :: tokens) htoken (by simp [hx])
            (tokens_induction nil empty stray exponent unit (next :: tokens))
        · exact exponent token next tokens x htoken hx
            (tokens_induction nil empty stray exponent unit tokens)

/-- Symbols and exponents are tokens. -/
theorem mem_of_ofTokens {ts : List Term} (h : ofTokens tokens = .ok ts) {t : Term} (ht : t ∈ ts) :
    (t.symbol ∈ tokens ∧ namesUnit t.symbol) ∧
      ∀ x, t.exponent = some x → ∃ token ∈ tokens, exponent? token = some x := by
  induction tokens using tokens_induction generalizing ts with
  | nil =>
    obtain rfl : [] = ts := by simpa using h
    simp at ht
  | empty tokens ih =>
    obtain ⟨⟨hmem, hunit⟩, hexp⟩ := ih (ofTokens_empty ▸ h) ht
    refine ⟨⟨List.mem_cons_of_mem _ hmem, hunit⟩, fun x hx ↦ ?_⟩
    obtain ⟨token, htoken, heq⟩ := hexp x hx
    exact ⟨token, List.mem_cons_of_mem _ htoken, heq⟩
  | stray token tokens x hx => simp [ofTokens_stray hx] at h
  | exponent token next tokens x htoken hx ih =>
    rw [ofTokens_exponent htoken hx, map_eq_ok_iff] at h
    obtain ⟨rest, hrest, rfl⟩ := h
    rcases List.mem_cons.1 ht with rfl | ht
    · -- the term that is read here has the two tokens at the front
      refine ⟨⟨List.mem_cons_self, htoken⟩, fun y hy ↦ ⟨next, by simp, ?_⟩⟩
      rw [hx]
      exact hy
    · obtain ⟨⟨hmem, hunit⟩, hexp⟩ := ih hrest ht
      refine ⟨⟨by simp [hmem], hunit⟩, fun y hy ↦ ?_⟩
      obtain ⟨token, htoken, heq⟩ := hexp y hy
      exact ⟨token, by simp [htoken], heq⟩
  | unit token tokens htoken hnext ih =>
    rw [ofTokens_unit htoken hnext, map_eq_ok_iff] at h
    obtain ⟨rest, hrest, rfl⟩ := h
    rcases List.mem_cons.1 ht with rfl | ht
    · exact ⟨⟨List.mem_cons_self, htoken⟩, by simp⟩
    · obtain ⟨⟨hmem, hunit⟩, hexp⟩ := ih hrest ht
      refine ⟨⟨by simp [hmem], hunit⟩, fun y hy ↦ ?_⟩
      obtain ⟨token, htoken, heq⟩ := hexp y hy
      exact ⟨token, by simp [htoken], heq⟩

end Term

/-! ### Expressions -/

namespace Expression

/-- The terms of an expression, those above the line first. -/
def terms (e : Expression) : List Term :=
  e.numerator ++ e.denominator

/-- An expression reads exactly if both sides do. -/
theorem ofString_eq_ok_iff {s : String} {e : Expression} :
    ofString s = .ok e ↔ Term.ofTokens (Split.ofString s).numerator = .ok e.numerator ∧
      Term.ofTokens (Split.ofString s).denominator = .ok e.denominator := by
  obtain ⟨numerator, denominator⟩ := e
  simp [ofString, bind_eq_ok_iff]

/-- Blanks around an expression are not read. -/
theorem ofString_trimmed (s : String) : ofString (Text.trimmed s) = ofString s := by
  rw [ofString, ofString, Split.ofString_trimmed]

/-- Symbols and exponents are tokens of the expression. -/
theorem mem_terms_of_ofString {s : String} {e : Expression} (h : ofString s = .ok e) {t : Term}
    (ht : t ∈ e.terms) :
    namesUnit t.symbol ∧ t.symbol ∈ (Split.ofString s).allTokens ∧
      ∀ x, t.exponent = some x →
        ∃ token ∈ (Split.ofString s).allTokens, exponent? token = some x := by
  obtain ⟨hnum, hden⟩ := ofString_eq_ok_iff.1 h
  rcases List.mem_append.1 ht with ht | ht
  · obtain ⟨⟨hmem, hunit⟩, hexp⟩ := Term.mem_of_ofTokens hnum ht
    refine ⟨hunit, List.mem_append_left _ hmem, fun x hx ↦ ?_⟩
    obtain ⟨token, htoken, heq⟩ := hexp x hx
    exact ⟨token, List.mem_append_left _ htoken, heq⟩
  · obtain ⟨⟨hmem, hunit⟩, hexp⟩ := Term.mem_of_ofTokens hden ht
    refine ⟨hunit, List.mem_append_right _ hmem, fun x hx ↦ ?_⟩
    obtain ⟨token, htoken, heq⟩ := hexp x hx
    exact ⟨token, List.mem_append_right _ htoken, heq⟩

end Expression

end DimensionalAnalysis
