import DimensionalAnalysis.Expression.Split
import DimensionalAnalysis.Proofs.Text.Blank

/-!
# What the splitter finds

The scan meets each character of a text once, and what stands in front of a text only adds to
what was found in it. Text without separators goes to the first token (`scan_append`), a
separator closes that token, and a division mark closes its piece.

Two consequences:

* the tokens of a split are **clean**: they hold no separator and no blank at either end
  (`isClean_of_mem_allTokens`);
* blanks around an expression do not show in its split (`ofString_trimmed`).

The scan has one equation for each kind of character, with stars apart: a star is followed by
another one or it is not, and this is the only place where a character is not judged alone.
Proofs by induction go along `scan.induct`, whose cases are these equations.
-/

namespace DimensionalAnalysis.Split

open Text (isBlank trim)

/-- The characters at which an expression is cut. -/
def isSeparator (c : Char) : Bool :=
  c == '/' || c == '*' || c == '^'

/-- No blank is a separator, so that trimming cuts no separator off. -/
theorem isSeparator_of_isBlank {c : Char} (h : isBlank c) : isSeparator c = false := by
  by_contra hsep
  simp only [isSeparator, Bool.not_eq_false, Bool.or_eq_true, beq_iff_eq] at hsep
  rcases hsep with (rfl | rfl) | rfl <;> exact absurd h (by decide)

/-! ### Scanning -/

/-- Any other character goes to the first token. -/
theorem scan_cons {c : Char} (h : isSeparator c = false) (rest : List Char) :
    scan (c :: rest) = (scan rest).extend c := by
  simp only [isSeparator, Bool.or_eq_false_iff, beq_eq_false_iff_ne] at h
  obtain ⟨⟨hslash, hstar⟩, hcaret⟩ := h
  exact scan.eq_6 c rest hslash (fun _ hc _ ↦ hstar hc) hstar hcaret

/-- Text without separators goes to the first token. -/
theorem scan_append {text : List Char} (h : ∀ c ∈ text, isSeparator c = false)
    (rest : List Char) :
    scan (text ++ rest) = { scan rest with token := text ++ (scan rest).token } := by
  induction text with
  | nil => rfl
  | cons c text ih =>
    rw [List.cons_append, scan_cons (h c List.mem_cons_self),
      ih fun c hc ↦ h c (List.mem_cons_of_mem _ hc)]
    rfl

/-- A star in front of anything but another star is a separator of its own. -/
theorem scan_star {rest : List Char} (h : rest.head? ≠ some '*') :
    scan ('*' :: rest) = (scan rest).separate := by
  refine scan.eq_4 rest ?_
  rintro rest' rfl
  exact h rfl

/-- Two stars are one separator. -/
theorem scan_starStar (rest : List Char) : scan ('*' :: '*' :: rest) = (scan rest).separate := by
  rw [scan]

/-- A division mark closes the piece. -/
theorem scan_slash (rest : List Char) : scan ('/' :: rest) = (scan rest).divide := by
  rw [scan]

/-- A caret is a separator of its own. -/
theorem scan_caret (rest : List Char) : scan ('^' :: rest) = (scan rest).separate := by
  rw [scan]

/-- No token that a scan finds holds a separator. Each character goes to a token only where it
is none. -/
theorem isSeparator_of_mem_scan (text : List Char) :
    ∀ token ∈ (scan text).toPieces.flatten, ∀ c ∈ token, isSeparator c = false := by
  induction text using scan.induct with
  | case1 => simp [scan, Scan.nil, Scan.toPieces]
  | case2 rest ih =>
    rw [scan_slash]
    simpa [Scan.divide, Scan.toPieces] using ih
  | case3 rest ih =>
    rw [scan_starStar]
    simpa [Scan.separate, Scan.toPieces] using ih
  | case4 rest hrest ih =>
    rw [scan.eq_4 rest hrest]
    simpa [Scan.separate, Scan.toPieces] using ih
  | case5 rest ih =>
    rw [scan_caret]
    simpa [Scan.separate, Scan.toPieces] using ih
  | case6 c rest hslash hstars hstar hcaret ih =>
    have hc : isSeparator c = false := by
      simp only [isSeparator, Bool.or_eq_false_iff, beq_eq_false_iff_ne]
      exact ⟨⟨hslash, hstar⟩, hcaret⟩
    rw [scan_cons hc]
    simp only [Scan.extend, Scan.toPieces, List.flatten_cons, List.cons_append, List.mem_cons,
      forall_eq_or_imp] at ih ⊢
    exact ⟨⟨hc, ih.1⟩, ih.2⟩

/-! ### Pieces above and below the line -/

section Pieces

variable {α β : Type}

theorem evens_map (f : α → β) : ∀ l : List α, evens (l.map f) = (evens l).map f
  | [] => rfl
  | [_] => rfl
  | a :: _ :: rest => congrArg (f a :: ·) (evens_map f rest)

theorem odds_map (f : α → β) (l : List α) : odds (l.map f) = (odds l).map f := by
  rw [odds, ← List.map_tail, evens_map, odds]

/-- The members at even positions are members. -/
theorem mem_of_mem_evens : ∀ {l : List α} {a : α}, a ∈ evens l → a ∈ l
  | [_], _, h => h
  | b :: _ :: rest, a, h => by
    rcases List.mem_cons.1 h with rfl | h
    · exact List.mem_cons_self
    · exact List.mem_cons_of_mem _ (List.mem_cons_of_mem _ (mem_of_mem_evens h))

/-- The members at odd positions are members. -/
theorem mem_of_mem_odds {l : List α} {a : α} (h : a ∈ odds l) : a ∈ l :=
  List.mem_of_mem_tail (mem_of_mem_evens h)

end Pieces

/-! ### Tokens are clean -/

/-- The text can be a token: it holds no separator, and no blank at either end. -/
structure IsClean (token : String) : Prop where
  isSeparator_eq_false : ∀ c ∈ token.toList, isSeparator c = false
  trim_eq : trim token.toList = token.toList

/-- The tokens of an expression, those above the line first. -/
def allTokens (s : Split) : List String :=
  s.numerator ++ s.denominator

/-- Trimming makes tokens clean and brings no separator in. -/
theorem isClean_of_mem_tokens {pieces : List (List (List Char))}
    (h : ∀ token ∈ pieces.flatten, ∀ c ∈ token, isSeparator c = false) :
    ∀ token ∈ tokens pieces, IsClean token := by
  intro token htoken
  obtain ⟨chars, hchars, rfl⟩ := List.mem_map.1 htoken
  constructor
  · rw [String.toList_ofList]
    exact fun c hc ↦ h chars hchars c (Text.mem_of_mem_trim hc)
  · rw [String.toList_ofList, Text.trim_trim]

/-- The tokens of an expression are clean. -/
theorem isClean_of_mem_allTokens {expression token : String}
    (h : token ∈ (ofString expression).allTokens) : IsClean token := by
  have hscan := isSeparator_of_mem_scan expression.toList
  have hflatten : ∀ {pieces : List (List (List Char))},
      (∀ piece ∈ pieces, piece ∈ (scan expression.toList).toPieces) →
      ∀ chars ∈ pieces.flatten, ∀ c ∈ chars, isSeparator c = false := by
    intro pieces hpieces chars hchars
    obtain ⟨piece, hpiece, hmem⟩ := List.mem_flatten.1 hchars
    exact hscan chars (List.mem_flatten.2 ⟨piece, hpieces piece hpiece, hmem⟩)
  rcases List.mem_append.1 h with h | h
  · exact isClean_of_mem_tokens (hflatten fun _ ↦ mem_of_mem_evens) token h
  · exact isClean_of_mem_tokens (hflatten fun _ ↦ mem_of_mem_odds) token h

/-! ### Blanks around an expression -/

/-- The same scan with each token changed. -/
def Scan.map (f : List Char → List Char) (s : Scan) : Scan :=
  ⟨f s.token, s.tokens.map f, s.pieces.map (·.map f)⟩

theorem Scan.map_map (f g : List Char → List Char) (s : Scan) :
    (s.map f).map g = s.map fun token ↦ g (f token) := by
  simp [Scan.map, Function.comp_def]

theorem Scan.map_separate {f : List Char → List Char} (hf : f [] = []) (s : Scan) :
    s.separate.map f = (s.map f).separate := by
  simp [Scan.map, Scan.separate, hf]

theorem Scan.map_divide {f : List Char → List Char} (hf : f [] = []) (s : Scan) :
    s.divide.map f = (s.map f).divide := by
  simp [Scan.map, Scan.divide, hf]

theorem Scan.toPieces_map (f : List Char → List Char) (s : Scan) :
    (s.map f).toPieces = s.toPieces.map (·.map f) :=
  rfl

/-- A token without the blanks behind it. -/
def trimEnd (token : List Char) : List Char :=
  token.rdropWhile isBlank

/-- Blanks at the end are not seen. -/
theorem trimEnd_append {after : List Char} (h : ∀ c ∈ after, isBlank c) (token : List Char) :
    trimEnd (token ++ after) = trimEnd token := by
  rw [trimEnd, List.rdropWhile, List.reverse_append,
    List.dropWhile_append_of_pos (by simpa using h)]
  rfl

/-- What is taken off the end are blanks. -/
theorem exists_eq_trimEnd_append (token : List Char) :
    ∃ after, token = trimEnd token ++ after ∧ ∀ c ∈ after, isBlank c :=
  ⟨token.rtakeWhile isBlank, List.rdropWhile_append_rtakeWhile.symm,
    fun _ hc ↦ List.mem_rtakeWhile_imp hc⟩

theorem trim_trimEnd (token : List Char) : trim (trimEnd token) = trim token := by
  obtain ⟨after, heq, hafter⟩ := exists_eq_trimEnd_append token
  conv_rhs => rw [heq, Text.trim_append_right hafter]

/-- A character in front of a token may be put there before or after the blanks at the end are
taken off, also when all that is behind it are blanks. -/
theorem trimEnd_cons_trimEnd (c : Char) (token : List Char) :
    trimEnd (c :: trimEnd token) = trimEnd (c :: token) := by
  obtain ⟨after, heq, hafter⟩ := exists_eq_trimEnd_append token
  conv_rhs => rw [heq, ← List.cons_append, trimEnd_append hafter]

/-- Blanks behind a text are behind its last token. The scan goes on in front of them as if they
were not there, and the token itself may be all blanks. -/
theorem scan_append_blanks {after : List Char} (hafter : ∀ c ∈ after, isBlank c)
    (text : List Char) :
    (scan (text ++ after)).map trimEnd = (scan text).map trimEnd := by
  have hsep : ∀ c ∈ after, isSeparator c = false :=
    fun c hc ↦ isSeparator_of_isBlank (hafter c hc)
  induction text using scan.induct with
  | case1 =>
    have hscan := scan_append hsep []
    rw [List.append_nil] at hscan
    rw [List.nil_append, hscan]
    simpa [Scan.map, scan, Scan.nil] using trimEnd_append hafter []
  | case2 rest ih =>
    rw [List.cons_append, scan_slash, scan_slash, Scan.map_divide rfl, ih, Scan.map_divide rfl]
  | case3 rest ih =>
    rw [List.cons_append, List.cons_append, scan_starStar, scan_starStar, Scan.map_separate rfl,
      ih, Scan.map_separate rfl]
  | case4 rest hrest ih =>
    -- a single star stays one: neither the rest nor a blank starts with another
    have hhead : (rest ++ after).head? ≠ some '*' := by
      rcases rest with - | ⟨c, rest⟩
      · rcases after with - | ⟨c, after⟩
        · simp
        · have := hsep c List.mem_cons_self
          rintro h
          cases h
          simp [isSeparator] at this
      · rintro h
        cases h
        exact hrest rest rfl
    rw [List.cons_append, scan_star hhead, scan.eq_4 rest hrest, Scan.map_separate rfl, ih,
      Scan.map_separate rfl]
  | case5 rest ih =>
    rw [List.cons_append, scan_caret, scan_caret, Scan.map_separate rfl, ih, Scan.map_separate rfl]
  | case6 c rest hslash hstars hstar hcaret ih =>
    have hc : isSeparator c = false := by
      simp only [isSeparator, Bool.or_eq_false_iff, beq_eq_false_iff_ne]
      exact ⟨⟨hslash, hstar⟩, hcaret⟩
    rw [List.cons_append, scan_cons hc, scan_cons hc]
    simp only [Scan.map, Scan.extend, Scan.mk.injEq] at ih ⊢
    -- the token is longer by one character now, which may have nothing but blanks behind it
    refine ⟨?_, ih.2⟩
    rw [← trimEnd_cons_trimEnd, ih.1, trimEnd_cons_trimEnd]

/-- Tokens are trimmed once, and a second time makes no difference. -/
theorem tokens_map_trim (pieces : List (List (List Char))) :
    tokens (pieces.map (·.map trim)) = tokens pieces := by
  rw [tokens, tokens, ← List.map_flatten, List.map_map]
  refine List.map_congr_left fun token _ ↦ ?_
  rw [Function.comp_apply, Text.trim_trim]

/-- A split depends on the tokens without the blanks around them. -/
theorem ofString_eq_of_map_trim {e f : String}
    (h : (scan e.toList).map trim = (scan f.toList).map trim) : ofString e = ofString f := by
  have hpieces := congrArg Scan.toPieces h
  rw [Scan.toPieces_map, Scan.toPieces_map] at hpieces
  have hevens := congrArg (tokens ∘ evens) hpieces
  have hodds := congrArg (tokens ∘ odds) hpieces
  simp only [Function.comp_apply, evens_map, odds_map, tokens_map_trim] at hevens hodds
  rw [ofString, ofString, hevens, hodds]

/-- **Blanks around an expression do not show in its split.** Those in front are in front of the
first token and those behind are behind the last one, and tokens are trimmed. -/
theorem ofString_trimmed (expression : String) :
    ofString (Text.trimmed expression) = ofString expression := by
  refine ofString_eq_of_map_trim ?_
  obtain ⟨before, after, heq, hbefore, hafter⟩ := Text.exists_eq_append_trim expression.toList
  rw [Text.toList_trimmed]
  generalize trim expression.toList = text at heq
  have hend := congrArg (Scan.map trim) (scan_append_blanks hafter text)
  rw [Scan.map_map, Scan.map_map, funext trim_trimEnd] at hend
  rw [heq, List.append_assoc, scan_append fun c hc ↦ isSeparator_of_isBlank (hbefore c hc), ← hend]
  simp only [Scan.map, Text.trim_append_left hbefore]

end DimensionalAnalysis.Split
