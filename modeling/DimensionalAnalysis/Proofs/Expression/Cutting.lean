import DimensionalAnalysis.Proofs.Expression.Grammar

/-!
# Cutting an expression from left to right

The plain account of a split: the text is cut at every division mark, each piece is cut from
left to right at its separators (`Split.cut`), the tokens lose the blanks around them, and the
pieces go above and below the line in turn (`Split.ofPieces`). The splitter, which scans from
the right, and the grammar, which decides by lookahead where a token ends, both come to the same
(`Split.ofString_eq_ofPieces`).

With the pieces at hand the tokens can be counted: a text has one token, and one more for every
division mark and every separator (`length_allTokens`).

From the left the token under construction has to be carried along (`taken`), and from the right
it is simply the front of what was found. The two directions agree since stars pair up from the
left in both: the scan, too, settles what two stars are before it looks at what is behind them.
-/

namespace DimensionalAnalysis.Split

open Text (isBlank trim)

/-! ### The plain account -/

/-- The tokens of a piece, which is cut from left to right; `taken` is the token under
construction. -/
def cut (taken : List Char) : List Char → List (List Char)
  | [] => [taken]
  | '*' :: '*' :: rest => taken :: cut [] rest
  | c :: rest =>
    if c = '*' ∨ c = '^' then taken :: cut [] rest else cut (taken ++ [c]) rest

/-- The number of separators in a text, two adjacent stars being one. -/
def separatorCount : List Char → Nat
  | [] => 0
  | '*' :: '*' :: rest => separatorCount rest + 1
  | c :: rest => if c = '*' ∨ c = '^' then separatorCount rest + 1 else separatorCount rest

/-- Puts the tokens of a piece, without the blanks around them, on the side of the line that its
position tells. -/
def addPiece (split : Split) (piece : List (List Char) × Nat) : Split :=
  let tokens := piece.1.map fun token ↦ String.ofList (trim token)
  if piece.2 % 2 = 0 then { split with numerator := split.numerator ++ tokens }
  else { split with denominator := split.denominator ++ tokens }

/-- The split that has the tokens of some pieces, taken in order. -/
def ofPieces (pieces : List (List (List Char))) : Split :=
  pieces.zipIdx.foldl addPiece ⟨[], []⟩

/-- A new first member moves all others by one position. -/
theorem evens_cons {α : Type} (a : α) (l : List α) : evens (a :: l) = a :: odds l := by
  cases l <;> rfl

/-- And what was at even positions is then at odd ones. -/
theorem odds_cons {α : Type} (a : α) (l : List α) : odds (a :: l) = evens l :=
  rfl

/-- Pieces give their tokens in order. -/
theorem tokens_cons (piece : List (List Char)) (pieces : List (List (List Char))) :
    tokens (piece :: pieces) =
      (piece.map fun token ↦ String.ofList (trim token)) ++ tokens pieces := by
  simp [tokens]

/-- Pieces from position `i` on are put above and below the line in turn, behind what is there
already. -/
theorem foldl_addPiece (pieces : List (List (List Char))) (split : Split) (i : Nat) :
    (pieces.zipIdx i).foldl addPiece split =
      if i % 2 = 0 then ⟨split.numerator ++ tokens (evens pieces),
        split.denominator ++ tokens (odds pieces)⟩
      else ⟨split.numerator ++ tokens (odds pieces),
        split.denominator ++ tokens (evens pieces)⟩ := by
  induction pieces generalizing split i with
  | nil => simp [tokens, evens, odds]
  | cons piece pieces ih =>
    rw [List.zipIdx_cons, List.foldl_cons, ih, addPiece, evens_cons, odds_cons, tokens_cons]
    rcases Nat.mod_two_eq_zero_or_one i with hi | hi
    · simp [hi, Nat.add_mod]
    · simp [hi, Nat.add_mod]

/-- Counting positions puts the pieces where taking every other one puts them. -/
theorem ofPieces_eq (pieces : List (List (List Char))) :
    ofPieces pieces = ⟨tokens (evens pieces), tokens (odds pieces)⟩ := by
  simp [ofPieces, foldl_addPiece]

/-- From left to right a piece has the tokens that the scan finds in it. -/
theorem cut_eq_scan {p : List Char} (h : '/' ∉ p) (taken : List Char) :
    cut taken p = (taken ++ (scan p).token) :: (scan p).tokens := by
  induction taken, p using cut.induct with
  | case1 taken => simp [cut, scan, Scan.nil]
  | case2 taken rest ih =>
    rw [cut, ih (by simp_all), scan_starStar]
    simp [Scan.separate]
  | case3 taken c rest hstars hc ih =>
    rw [cut.eq_3 _ _ _ hstars, if_pos hc, ih (by simp_all)]
    rcases hc with rfl | rfl
    · have hhead : rest.head? ≠ some '*' := fun hhead ↦ by
        obtain ⟨rest', rfl⟩ := List.head?_eq_some_iff.1 hhead
        exact hstars rest' rfl rfl
      simp [scan_star hhead, Scan.separate]
    · simp [scan_caret, Scan.separate]
  | case4 taken c rest hstars hc ih =>
    have hsep : isSeparator c = false := by
      have hslash : c ≠ '/' := fun hslash ↦ h (hslash ▸ List.mem_cons_self)
      simp_all [isSeparator]
    rw [cut.eq_3 _ _ _ hstars, if_neg hc, ih (by simp_all), scan_cons hsep]
    simp [Scan.extend]

/-- The pieces of a scan are those of the text cut at every division mark, each cut from the
left. -/
theorem toPieces_scan_eq_cut (text : List Char) :
    (scan text).toPieces = (text.splitOn '/').map (cut []) := by
  rw [toPieces_scan]
  exact List.map_congr_left fun p hp ↦ (cut_eq_scan (not_mem_of_mem_splitOn hp) []).symm

/-! ### Counting tokens -/

/-- Every division mark closes a piece. -/
theorem length_pieces_scan (text : List Char) :
    (scan text).pieces.length = text.count '/' := by
  induction text using scan.induct with
  | case1 => rfl
  | case2 rest ih => simp [scan_slash, Scan.divide, ih]
  | case3 rest ih => simp [scan_starStar, Scan.separate, ih]
  | case4 rest hrest ih => simp [scan.eq_4 rest hrest, Scan.separate, ih]
  | case5 rest ih => simp [scan_caret, Scan.separate, ih]
  | case6 c rest hslash hstars hstar hcaret ih =>
    rw [scan.eq_6 c rest hslash hstars hstar hcaret, List.count_cons_of_ne (by simpa using hslash)]
    exact ih

/-- Each division mark and each separator makes one token more. -/
theorem length_flatten_scan (text : List Char) :
    (scan text).toPieces.flatten.length = 1 + text.count '/' + separatorCount text := by
  induction text using scan.induct with
  | case1 => rfl
  | case2 rest ih =>
    simp [scan_slash, Scan.divide, Scan.toPieces, separatorCount] at ih ⊢
    omega
  | case3 rest ih =>
    simp [scan_starStar, Scan.separate, Scan.toPieces, separatorCount] at ih ⊢
    omega
  | case4 rest hrest ih =>
    rw [scan.eq_4 rest hrest, separatorCount.eq_3 _ _ fun rest' _ ↦ hrest rest']
    simp [Scan.separate, Scan.toPieces] at ih ⊢
    omega
  | case5 rest ih =>
    simp [scan_caret, Scan.separate, Scan.toPieces, separatorCount] at ih ⊢
    omega
  | case6 c rest hslash hstars hstar hcaret ih =>
    rw [scan.eq_6 c rest hslash hstars hstar hcaret, List.count_cons_of_ne (by simpa using hslash),
      separatorCount.eq_3 _ _ hstars, if_neg (by simp_all)]
    exact ih

/-- Nothing is lost between the two sides of the line. -/
theorem length_flatten_evens_add_odds {α : Type} (l : List (List α)) :
    (evens l).flatten.length + (odds l).flatten.length = l.flatten.length := by
  induction l with
  | nil => rfl
  | cons a l ih =>
    rw [evens_cons, odds_cons, List.flatten_cons, List.flatten_cons, List.length_append,
      List.length_append]
    omega

/-- **The number of tokens**: one, and one more for every division mark and every separator. -/
theorem length_allTokens (s : String) :
    (ofString s).allTokens.length =
      1 + s.toList.count '/' + separatorCount s.toList := by
  rw [← length_flatten_scan, ← length_flatten_evens_add_odds]
  simp only [allTokens, ofString, tokens, List.length_append, List.length_map]

/-- The first piece is above the line, and it has a token, if only an empty one. -/
theorem numerator_ne_nil (s : String) : (ofString s).numerator ≠ [] := by
  simp [ofString, Scan.toPieces, evens_cons, tokens]

/-- Nothing lies below the line exactly when there is no line. -/
theorem denominator_eq_nil_iff (s : String) :
    (ofString s).denominator = [] ↔ '/' ∉ s.toList := by
  have hdenominator : (ofString s).denominator = tokens (evens (scan s.toList).pieces) := rfl
  rw [hdenominator, ← List.count_eq_zero, ← length_pieces_scan, List.length_eq_zero_iff]
  -- every piece has a token, so that there is nothing below the line only if there is no piece
  have hne : ∀ piece ∈ (scan s.toList).toPieces, piece ≠ [] := by
    rw [toPieces_scan]
    simp
  constructor
  · intro h
    cases hpieces : (scan s.toList).pieces with
    | nil => rfl
    | cons piece pieces =>
      have hpiece : piece ≠ [] := hne piece (by simp [Scan.toPieces, hpieces])
      rw [hpieces, evens_cons, tokens_cons] at h
      simp_all
  · intro h
    rw [h]
    rfl

/-! ### The three accounts -/

/-- **The split of a text.** Every text has one parse tree, and its tokens, piece by piece, make
the split; so do the tokens of the text cut at every division mark and then from left to right at
the separators. The tokens hold no separator and no blank at either end. There is a token above
the line; there is none below it exactly when there is no division mark; and there is one token
more than there are division marks and separators. -/
theorem ofString_eq_ofPieces (s : String) :
    (∃ tree : Grammar.Tree,
        (∀ r, Grammar.Matches s.toList Grammar.unitExpression s.toList r ↔
          r = some ([tree], [])) ∧
        ofString s = ofPieces tree.segmentTexts) ∧
      ofString s = ofPieces ((s.toList.splitOn '/').map (cut [])) ∧
      (∀ token ∈ (ofString s).allTokens,
        (∀ c ∈ token.toList, c ≠ '*' ∧ c ≠ '^' ∧ c ≠ '/') ∧
          (∀ c ∈ token.toList.head?, isBlank c = false) ∧
          ∀ c ∈ token.toList.getLast?, isBlank c = false) ∧
      (ofString s).numerator ≠ [] ∧
      ((ofString s).denominator = [] ↔ '/' ∉ s.toList) ∧
      (ofString s).allTokens.length = 1 + s.toList.count '/' + separatorCount s.toList := by
  have hscan : ofString s = ofPieces (scan s.toList).toPieces := (ofPieces_eq _).symm
  obtain ⟨tree, htree, htexts⟩ := Grammar.exists_tree s.toList
  refine ⟨⟨tree, htree, by rw [htexts, hscan]⟩, by rw [← toPieces_scan_eq_cut, hscan], ?_,
    numerator_ne_nil s, denominator_eq_nil_iff s, length_allTokens s⟩
  intro token htoken
  obtain ⟨hsep, htrim⟩ := isClean_of_mem_allTokens htoken
  refine ⟨fun c hc ↦ ?_, Text.isBlank_head?_of_trim_eq htrim,
    Text.isBlank_getLast?_of_trim_eq htrim⟩
  have hc' := hsep c hc
  simp only [isSeparator, Bool.or_eq_false_iff, beq_eq_false_iff_ne] at hc'
  exact ⟨hc'.1.2, hc'.2, hc'.1.1⟩

end DimensionalAnalysis.Split
