import DimensionalAnalysis.Proofs.Expression.Terms
import DimensionalAnalysis.Proofs.Number.Text

/-!
# Expressions read back from their text

An expression that was read has **symbols** only that are tokens: they stand for units and are
clean. Products, quotients and inverses keep this, and the text of such an expression always
reads again (`ofString_text`): its tokens are the symbols and the texts of the exponents, in
their order.

What is read is the expression itself when its exponents are finite (`ofString_text_of_finite`).
The text of an exponent that is infinite or a NaN is a word, and is read as one more symbol
behind its own (`Term.reread`).

The proof goes from the characters up. Symbols and numerals hold no separator, so that a text is
cut just where it was joined (`scan_text_append`, `scan_listText_append`); this is the place
where two stars must not meet a third one, which a symbol at the front of every term prevents.
Then the tokens are read as terms one after the other (`ofTokens_tokens_append`).
-/

namespace DimensionalAnalysis

open Split (isSeparator scan IsClean)

/-- A token that stands for a unit. -/
structure IsSymbol (s : String) : Prop where
  namesUnit : namesUnit s
  isClean : IsClean s

/-- A symbol has a character. -/
theorem IsSymbol.toList_ne_nil {s : String} (h : IsSymbol s) : s.toList ≠ [] := by
  simpa using (namesUnit_iff.1 h.namesUnit).1

/-! ### Texts of numbers as tokens -/

/-- No separator is among the characters of numbers. -/
theorem isSeparator_of_isTextChar {c : Char} (h : Number.isTextChar c) : isSeparator c = false := by
  by_contra hsep
  simp only [isSeparator, Bool.not_eq_false, Bool.or_eq_true, beq_iff_eq] at hsep
  rcases hsep with (rfl | rfl) | rfl <;> exact absurd h (by decide)

/-- No blank is among the characters of numbers. -/
theorem isBlank_of_isTextChar {c : Char} (h : Number.isTextChar c) : Text.isBlank c = false := by
  rw [Number.isTextChar, Bool.or_eq_true] at h
  rcases h with h | h
  · obtain ⟨hlow, hhigh⟩ := Char.isDigit_iff_toNat.1 h
    have hlow : 48 ≤ c.toNat := hlow
    have hhigh : c.toNat ≤ 57 := hhigh
    simp only [Text.isBlank, Text.blankRanges, List.any_cons, List.any_nil, Bool.or_false,
      Bool.or_eq_false_iff, Bool.and_eq_false_iff, decide_eq_false_iff_not]
    omega
  · have hall : "-.NaNinf".toList.all (fun c ↦ !Text.isBlank c) := by decide
    simpa using List.all_eq_true.1 hall c (by simpa using h)

/-- A text of such characters is clean. -/
theorem isClean_of_isTextChar {s : String} (h : ∀ c ∈ s.toList, Number.isTextChar c) : IsClean s :=
  ⟨fun c hc ↦ isSeparator_of_isTextChar (h c hc),
    Text.trim_eq_self fun c hc ↦ isBlank_of_isTextChar (h c hc)⟩

/-- The text of a number is one token. -/
theorem isClean_text (x : Float) : IsClean (Number.text x) :=
  isClean_of_isTextChar fun _ hc ↦ Number.isTextChar_of_mem_text hc

/-- The words for infinities and NaN pass for symbols. -/
theorem isSymbol_text_of_not_finite {x : Float} (h : Number.rational? x = none) :
    IsSymbol (Number.text x) := by
  refine ⟨namesUnit_iff.2 ⟨?_, Number.exponent?_text_of_not_finite h⟩, isClean_text x⟩
  rcases Number.rational?_cases x with ⟨q, hq, -⟩ | ⟨-, hword⟩
  · simp [h] at hq
  · rintro hempty
    simp [hempty] at hword

namespace Term

/-! ### Splitting the text of terms -/

/-- A symbol and a numeral behind two stars are two tokens. -/
theorem scan_power_append {symbol numeral : String} (hs : IsClean symbol) (hn : IsClean numeral)
    (rest : List Char) {found : List (List Char)} {pieces : List (List (List Char))}
    (hrest : scan rest = ⟨[], found, pieces⟩) :
    scan ((symbol ++ "**" ++ numeral).toList ++ rest) =
      ⟨symbol.toList, numeral.toList :: found, pieces⟩ := by
  have hstars : "**".toList = ['*', '*'] := rfl
  have hnumeral := Split.scan_append hn.isSeparator_eq_false rest
  simp only [String.toList_append, List.append_assoc, hstars, List.cons_append, List.nil_append]
  rw [Split.scan_append hs.isSeparator_eq_false, Split.scan_starStar, hnumeral, hrest]
  simp [Split.Scan.separate]

/-- The tokens that the text of a term is split into. -/
def tokens (t : Term) : List String :=
  t.symbol :: (t.exponent.map Number.text).toList

/-- In front of a separator or the end, the text of a term adds its tokens. -/
theorem scan_text_append {t : Term} (h : IsSymbol t.symbol) {rest : List Char}
    {found : List (List Char)} {pieces : List (List (List Char))}
    (hrest : scan rest = ⟨[], found, pieces⟩) :
    (scan (t.text.toList ++ rest)).toPieces =
      (t.tokens.map String.toList ++ found) :: pieces := by
  have hsymbol := h.isClean.isSeparator_eq_false
  rw [text, tokens]
  cases t.exponent with
  | none =>
    rw [Split.scan_append hsymbol, hrest]
    simp [Split.Scan.toPieces]
  | some x =>
    simp only [scan_power_append h.isClean (isClean_text x) rest hrest]
    rfl

/-- A term starts with its symbol and not with a star. -/
theorem head?_text {t : Term} (h : IsSymbol t.symbol) (rest : List Char) :
    (t.text.toList ++ rest).head? ≠ some '*' := by
  obtain ⟨c, chars, hchars⟩ := List.exists_cons_of_ne_nil h.toList_ne_nil
  have hc : isSeparator c = false :=
    h.isClean.isSeparator_eq_false c (hchars ▸ List.mem_cons_self)
  have hhead : (t.text.toList ++ rest).head? = some c := by
    rw [text]
    cases t.exponent <;> simp [hchars]
  rw [hhead]
  rintro heq
  cases heq
  simp [isSeparator] at hc

theorem listText_singleton (t : Term) : listText [t] = t.text := by
  rw [listText, List.map_singleton, String.intercalate_singleton]

/-- Terms are joined by one star. -/
theorem toList_listText_cons_cons (t u : Term) (ts : List Term) :
    (listText (t :: u :: ts)).toList = t.text.toList ++ '*' :: (listText (u :: ts)).toList := by
  have hstar : "*".toList = ['*'] := rfl
  simp [listText, String.intercalate_cons_cons, hstar]

/-- The text of terms does not start with a star. -/
theorem head?_listText {t : Term} (h : IsSymbol t.symbol) (ts : List Term) (rest : List Char) :
    ((listText (t :: ts)).toList ++ rest).head? ≠ some '*' := by
  rcases ts with - | ⟨u, ts⟩
  · rw [listText_singleton]
    exact head?_text h rest
  · rw [toList_listText_cons_cons, List.append_assoc]
    exact head?_text h _

/-- In front of a division mark or the end, the text of terms is a piece of their tokens. -/
theorem scan_listText_append {ts : List Term} (hne : ts ≠ [])
    (h : ∀ t ∈ ts, IsSymbol t.symbol) {rest : List Char} {pieces : List (List (List Char))}
    (hrest : scan rest = ⟨[], [], pieces⟩) :
    (scan ((listText ts).toList ++ rest)).toPieces =
      (ts.flatMap tokens).map String.toList :: pieces := by
  induction ts with
  | nil => simp at hne
  | cons t ts ih =>
    have ht : IsSymbol t.symbol := h t List.mem_cons_self
    rcases ts with - | ⟨u, ts⟩
    · rw [listText_singleton, scan_text_append ht hrest]
      simp
    · have hu : IsSymbol u.symbol := h u (by simp)
      have ih := ih (by simp) fun t ht ↦ h t (List.mem_cons_of_mem _ ht)
      simp only [Split.Scan.toPieces, List.cons.injEq] at ih
      -- the star between two terms stays single, as the next term does not start with another
      have hstar : scan ('*' :: ((listText (u :: ts)).toList ++ rest)) =
          ⟨[], ((u :: ts).flatMap tokens).map String.toList, pieces⟩ := by
        rw [Split.scan_star (head?_listText hu ts rest), Split.Scan.separate, ih.1, ih.2]
      rw [toList_listText_cons_cons, List.append_assoc, List.cons_append,
        scan_text_append ht hstar]
      simp

/-- The piece that the text of terms is: without terms it has one empty token. -/
def piece (ts : List Term) : List String :=
  if ts.isEmpty then [""] else ts.flatMap tokens

/-- The same for any number of terms, none included. -/
theorem scan_listText {ts : List Term} (h : ∀ t ∈ ts, IsSymbol t.symbol) {rest : List Char}
    {pieces : List (List (List Char))} (hrest : scan rest = ⟨[], [], pieces⟩) :
    (scan ((listText ts).toList ++ rest)).toPieces = (piece ts).map String.toList :: pieces := by
  rcases ts with - | ⟨t, ts⟩
  · simp [listText, piece, hrest, Split.Scan.toPieces]
  · exact scan_listText_append (by simp) h hrest

/-- All tokens of a written piece are clean. -/
theorem isClean_of_mem_piece {ts : List Term} (h : ∀ t ∈ ts, IsSymbol t.symbol) {token : String}
    (htoken : token ∈ piece ts) : IsClean token := by
  rcases ts with - | ⟨t, ts⟩
  · obtain rfl : token = "" := by simpa [piece] using htoken
    exact ⟨by simp, rfl⟩
  · simp only [piece, List.isEmpty_cons, Bool.false_eq_true, if_false, List.mem_flatMap] at htoken
    obtain ⟨u, hu, hmem⟩ := htoken
    simp only [tokens, List.mem_cons, Option.mem_toList, Option.map_eq_some_iff] at hmem
    rcases hmem with rfl | ⟨x, -, rfl⟩
    · exact (h u hu).isClean
    · exact isClean_text x

/-- Trimming changes none of them. -/
theorem tokens_piece {ts : List Term} (h : ∀ t ∈ ts, IsSymbol t.symbol) :
    Split.tokens [(piece ts).map String.toList] = piece ts := by
  rw [Split.tokens, List.flatten_singleton, List.map_map]
  conv_rhs => rw [← List.map_id (piece ts)]
  refine List.map_congr_left fun token htoken ↦ ?_
  rw [Function.comp_apply, (isClean_of_mem_piece h htoken).trim_eq, String.ofList_toList, id]

/-! ### Reading terms back -/

/-- The terms that are read from the text of a term. -/
def reread (t : Term) : List Term :=
  match t.exponent with
  | none => [t]
  | some x =>
    if (Number.rational? x).isSome then [t] else [⟨t.symbol, none⟩, ⟨Number.text x, none⟩]

/-- A term with a finite exponent, or with none, is read back. -/
theorem reread_of_finite {t : Term} (h : ∀ x ∈ t.exponent, (Number.rational? x).isSome) :
    t.reread = [t] := by
  rw [reread]
  cases hx : t.exponent with
  | none => rfl
  | some x => exact if_pos (h x hx)

/-- In front of anything but an exponent, the tokens of a term are read as `reread`. -/
theorem ofTokens_tokens_append {t : Term} (h : IsSymbol t.symbol) {rest : List String}
    (hrest : ∀ next ∈ rest.head?, exponent? next = none) :
    ofTokens (t.tokens ++ rest) = (ofTokens rest).map (t.reread ++ ·) := by
  obtain ⟨symbol, exponent⟩ := t
  rw [tokens, reread]
  cases exponent with
  | none => exact ofTokens_unit h.namesUnit hrest
  | some x =>
    simp only [Option.map_some, Option.toList_some, List.cons_append, List.nil_append]
    rcases hx : Number.rational? x with - | q
    · -- no numeral: the word is a unit to the reader, and ends the term before it
      have hword := isSymbol_text_of_not_finite hx
      rw [ofTokens_unit h.namesUnit (by simp [(namesUnit_iff.1 hword.namesUnit).2]),
        ofTokens_unit hword.namesUnit hrest]
      cases ofTokens rest <;> rfl
    · rw [ofTokens_exponent h.namesUnit (Number.exponent?_text hx)]
      rfl

/-- Terms are read back one by one. Each starts with a symbol, which no term before it takes for
an exponent. -/
theorem ofTokens_flatMap_tokens {ts : List Term} (h : ∀ t ∈ ts, IsSymbol t.symbol) :
    ofTokens (ts.flatMap tokens) = .ok (ts.flatMap reread) := by
  induction ts with
  | nil => simp
  | cons t ts ih =>
    have hnext : ∀ next ∈ (ts.flatMap tokens).head?, exponent? next = none := by
      rcases ts with - | ⟨u, ts⟩
      · simp
      · have hu : IsSymbol u.symbol := h u (by simp)
        simp [tokens, (namesUnit_iff.1 hu.namesUnit).2]
    rw [List.flatMap_cons, ofTokens_tokens_append (h t List.mem_cons_self) hnext,
      ih fun t ht ↦ h t (List.mem_cons_of_mem _ ht)]
    rfl

/-- An empty token instead of no token makes no difference to a reader. -/
theorem ofTokens_piece (ts : List Term) : ofTokens (piece ts) = ofTokens (ts.flatMap tokens) := by
  rcases ts with - | ⟨t, ts⟩
  · exact ofTokens_empty
  · rfl

end Term

namespace Expression

/-- Every symbol is a token that stands for a unit. -/
def IsReadable (e : Expression) : Prop :=
  ∀ t ∈ e.terms, IsSymbol t.symbol

/-- The tokens of the text of an expression. -/
theorem split_text {e : Expression} (h : e.IsReadable) :
    Split.ofString e.text = ⟨Term.piece e.numerator, e.denominator.flatMap Term.tokens⟩ := by
  have hnum : ∀ t ∈ e.numerator, IsSymbol t.symbol := fun t ht ↦ h t (List.mem_append_left _ ht)
  have hden : ∀ t ∈ e.denominator, IsSymbol t.symbol := fun t ht ↦ h t (List.mem_append_right _ ht)
  have hnil : scan [] = ⟨[], [], []⟩ := rfl
  rw [Split.ofString, text]
  -- with nothing below the line no division mark is written
  rcases hcase : e.denominator with - | ⟨t, ts⟩
  · have hscan := Term.scan_listText hnum hnil
    rw [List.append_nil] at hscan
    simp only [List.isEmpty_nil, if_true, hscan, Split.evens, Split.odds, List.tail_cons,
      Term.tokens_piece hnum]
    rfl
  · rw [hcase] at hden
    have hscan := Term.scan_listText hden hnil
    rw [List.append_nil] at hscan
    have hslash : scan ('/' :: (Term.listText (t :: ts)).toList) =
        ⟨[], [], [(Term.piece (t :: ts)).map String.toList]⟩ := by
      rw [Split.scan_slash, ← hscan]
      rfl
    have hscan := Term.scan_listText hnum hslash
    have hmark : "/".toList = ['/'] := rfl
    simp only [List.isEmpty_cons, Bool.false_eq_true, if_false, String.toList_append, hmark,
      List.append_assoc, List.cons_append, List.nil_append, hscan, Split.evens, Split.odds,
      List.tail_cons, Term.tokens_piece hnum, Term.tokens_piece hden]
    rfl

/-! ### Reading expressions back -/

/-- The expression that is read from the text of an expression. -/
def reread (e : Expression) : Expression :=
  ⟨e.numerator.flatMap Term.reread, e.denominator.flatMap Term.reread⟩

/-- The terms that are read come from the terms that were written. -/
theorem mem_terms_reread {e : Expression} {t : Term} :
    t ∈ e.reread.terms ↔ ∃ u ∈ e.terms, t ∈ u.reread := by
  simp only [terms, reread, List.mem_append, List.mem_flatMap]
  constructor
  · rintro (⟨u, hu, ht⟩ | ⟨u, hu, ht⟩)
    · exact ⟨u, .inl hu, ht⟩
    · exact ⟨u, .inr hu, ht⟩
  · rintro ⟨u, hu | hu, ht⟩
    · exact .inl ⟨u, hu, ht⟩
    · exact .inr ⟨u, hu, ht⟩

/-- **The text of an expression reads again**, whatever its exponents are. -/
theorem ofString_text {e : Expression} (h : e.IsReadable) : ofString e.text = .ok e.reread := by
  rw [ofString_eq_ok_iff, split_text h]
  exact ⟨(Term.ofTokens_piece _).trans
      (Term.ofTokens_flatMap_tokens fun t ht ↦ h t (List.mem_append_left _ ht)),
    Term.ofTokens_flatMap_tokens fun t ht ↦ h t (List.mem_append_right _ ht)⟩

/-- Every exponent is a finite double. -/
def IsFinite (e : Expression) : Prop :=
  ∀ t ∈ e.terms, ∀ x ∈ t.exponent, (Number.rational? x).isSome

/-- What is read has finite exponents, as others are not read for exponents. -/
theorem isFinite_reread (e : Expression) : e.reread.IsFinite := by
  intro t ht x hx
  obtain ⟨u, -, ht⟩ := mem_terms_reread.1 ht
  rw [Term.reread] at ht
  split at ht
  · rename_i hnone
    rw [List.mem_singleton.1 ht, hnone] at hx
    simp at hx
  · rename_i y hy
    split at ht
    · rename_i hfinite
      rw [List.mem_singleton.1 ht, hy] at hx
      rwa [← Option.mem_some_iff.1 hx]
    · simp only [List.mem_cons, List.not_mem_nil, or_false] at ht
      rcases ht with rfl | rfl <;> simp at hx

/-- With finite exponents nothing is changed by writing and reading. -/
theorem reread_of_isFinite {e : Expression} (h : e.IsFinite) : e.reread = e := by
  have hterms : ∀ {ts : List Term}, (∀ t ∈ ts, t ∈ e.terms) → ts.flatMap Term.reread = ts := by
    intro ts hts
    rw [List.flatMap_congr fun t ht ↦ Term.reread_of_finite (h t (hts t ht)),
      List.flatMap_singleton']
  rw [reread, hterms fun _ ↦ List.mem_append_left _, hterms fun _ ↦ List.mem_append_right _]

/-- With finite exponents, an expression is what its text says. -/
theorem ofString_text_of_finite {e : Expression} (h : e.IsReadable) (hfinite : e.IsFinite) :
    ofString e.text = .ok e := by
  rw [ofString_text h, reread_of_isFinite hfinite]

/-- A symbol and a numeral behind two stars are one term. -/
theorem ofString_power {symbol numeral : String} {x : Float} (hs : IsSymbol symbol)
    (hn : IsClean numeral) (hx : exponent? numeral = some x) :
    ofString (symbol ++ "**" ++ numeral) = .ok ⟨[⟨symbol, some x⟩], []⟩ := by
  have hscan := Term.scan_power_append hs.isClean hn [] rfl
  rw [List.append_nil] at hscan
  have hsplit : Split.ofString (symbol ++ "**" ++ numeral) = ⟨[symbol, numeral], []⟩ := by
    rw [Split.ofString, hscan]
    simp [Split.Scan.toPieces, Split.evens, Split.odds, Split.tokens, hs.isClean.trim_eq,
      hn.trim_eq]
  rw [ofString_eq_ok_iff, hsplit, Term.ofTokens_exponent hs.namesUnit hx]
  simp [Except.map]

/-- A symbol and a whole number behind two stars are one term. -/
theorem ofString_power_nat {symbol : String} (hs : IsSymbol symbol) (n : ℕ) :
    ofString (symbol ++ "**" ++ toString n) =
      .ok ⟨[⟨symbol, some (Decimal.toFloat ⟨false, n, 0⟩)⟩], []⟩ :=
  ofString_power hs (isClean_of_isTextChar fun _ ↦ Number.isTextChar_of_mem_toString)
    (Number.exponent?_toString n)

/-- A symbol written several times is that many terms. -/
theorem ofString_replicate {symbol : String} (hs : IsSymbol symbol) (n : ℕ) :
    ofString ("*".intercalate (List.replicate n symbol)) =
      .ok ⟨List.replicate n ⟨symbol, none⟩, []⟩ := by
  have hterm : ∀ t ∈ (⟨List.replicate n ⟨symbol, none⟩, []⟩ : Expression).terms,
      t = ⟨symbol, none⟩ := by
    intro t ht
    exact List.eq_of_mem_replicate (by simpa [terms] using ht)
  have hread := ofString_text_of_finite (e := ⟨List.replicate n ⟨symbol, none⟩, []⟩)
    (fun t ht ↦ hterm t ht ▸ hs) (fun t ht ↦ by rw [hterm t ht]; simp)
  simpa [text, Term.listText, Term.text] using hread

/-! ### Symbols are kept -/

/-- An expression that was read has tokens for symbols. -/
theorem isReadable_of_ofString {s : String} {e : Expression} (h : ofString s = .ok e) :
    e.IsReadable := fun _ ht ↦
  have ⟨hunit, hmem, _⟩ := mem_terms_of_ofString h ht
  ⟨hunit, Split.isClean_of_mem_allTokens hmem⟩

section Arithmetic

variable {e f : Expression}

/-- A product has the terms of both operands. -/
theorem terms_product_perm (e f : Expression) : (e.product f).terms.Perm (e.terms ++ f.terms) := by
  refine List.perm_iff_count.2 fun t ↦ ?_
  simp only [terms, product, List.count_append]
  omega

/-- A quotient has the terms of both operands too. -/
theorem terms_quotient_perm (e f : Expression) :
    (e.quotient f).terms.Perm (e.terms ++ f.terms) := by
  refine List.perm_iff_count.2 fun t ↦ ?_
  simp only [terms, quotient, List.count_append]
  omega

/-- The terms of an inverse are the reciprocals of those of the expression, or change places. -/
theorem terms_inverted_cases (e : Expression) :
    e.inverted.terms = e.terms.map Term.reciprocal ∨ e.inverted.terms.Perm e.terms := by
  rw [inverted]
  split
  · rename_i hempty
    refine .inl ?_
    rw [terms, terms, List.isEmpty_iff.1 hempty, List.append_nil, List.append_nil]
  · exact .inr List.perm_append_comm

theorem mem_terms_product {t : Term} : t ∈ (e.product f).terms ↔ t ∈ e.terms ∨ t ∈ f.terms :=
  (terms_product_perm e f).mem_iff.trans List.mem_append

theorem mem_terms_quotient {t : Term} : t ∈ (e.quotient f).terms ↔ t ∈ e.terms ∨ t ∈ f.terms :=
  (terms_quotient_perm e f).mem_iff.trans List.mem_append

/-- The terms of an inverse are those of the expression, or their reciprocals. -/
theorem mem_terms_inverted {t : Term} (h : t ∈ e.inverted.terms) :
    t ∈ e.terms ∨ ∃ u ∈ e.terms, t = u.reciprocal := by
  rcases terms_inverted_cases e with heq | hperm
  · obtain ⟨u, hu, rfl⟩ := List.mem_map.1 (heq ▸ h)
    exact .inr ⟨u, hu, rfl⟩
  · exact .inl (hperm.mem_iff.1 h)

/-- A reciprocal has the same symbol. -/
theorem symbol_reciprocal (t : Term) : t.reciprocal.symbol = t.symbol := by
  rw [Term.reciprocal]
  split <;> rfl

/-- Products bring no symbols in. -/
theorem IsReadable.product (he : e.IsReadable) (hf : f.IsReadable) : (e.product f).IsReadable :=
  fun t ht ↦ (mem_terms_product.1 ht).elim (he t) (hf t)

/-- Quotients bring no symbols in. -/
theorem IsReadable.quotient (he : e.IsReadable) (hf : f.IsReadable) : (e.quotient f).IsReadable :=
  fun t ht ↦ (mem_terms_quotient.1 ht).elim (he t) (hf t)

/-- Inverses bring no symbols in. -/
theorem IsReadable.inverted (he : e.IsReadable) : e.inverted.IsReadable := by
  intro t ht
  rcases mem_terms_inverted ht with ht | ⟨u, hu, rfl⟩
  · exact he t ht
  · exact symbol_reciprocal u ▸ he u hu

end Arithmetic

end Expression

end DimensionalAnalysis
