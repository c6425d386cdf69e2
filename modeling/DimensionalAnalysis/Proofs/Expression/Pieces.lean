import DimensionalAnalysis.Proofs.Expression.Terms

/-!
# Expressions piece by piece

The pieces between division marks are split one by one (`Split.ofString_eq_pieces`), but the
tokens of every other piece are read as one list. So reading is *almost* a matter of single
pieces. An exponent at the start of a piece, which no piece alone can have, is taken by the unit
that ends the piece before it on the same side of the line: `m/s/2` reads as `m**2/s`.

* Pieces that read alone read together, and nothing else happens to their terms. They are the
  pieces of an expression that reads and has no such exponent.
* In general, the pieces read alone once every such exponent is put behind the piece before it
  (`Term.carry`).
* An expression that starts a piece with an exponent reads only if that unit is there.

All of this is `Expression.ofString_by_pieces`.

The reason is one fact on lists of tokens: two lists read one after the other unless the first
ends in a unit and the second starts with an exponent (`Term.ofTokens_append`). Carrying an
exponent back removes the one exception, because a list that ends in an exponent has nothing
more to take.
-/

namespace DimensionalAnalysis

/-! ### Splitting -/

namespace Split

/-- The pieces of an expression, cut at every division mark. -/
def pieces (s : String) : List String :=
  (s.toList.splitOn '/').map String.ofList

/-- The tokens of a piece, which lie above the line when it is alone. -/
def pieceTokens (p : String) : List String :=
  (ofString p).numerator

/-- A character other than a division mark goes to the first piece. -/
theorem splitOn_slash_cons {c : Char} (h : c ≠ '/') (rest : List Char) :
    (c :: rest).splitOn '/' = (rest.splitOn '/').modifyHead (c :: ·) := by
  rw [List.splitOn_cons_eq_if_modifyHead, if_neg (by simpa using h)]

/-- No division mark is left in a piece. -/
theorem not_mem_of_mem_splitOn {text p : List Char} (h : p ∈ text.splitOn '/') : '/' ∉ p := by
  induction text generalizing p with
  | nil => simp_all
  | cons c rest ih =>
    rw [List.splitOn_cons_eq_if_modifyHead] at h
    obtain ⟨q, qs, hsplit⟩ := List.exists_cons_of_ne_nil (List.splitOn_ne_nil '/' rest)
    rw [hsplit] at h ih
    split at h
    · rcases List.mem_cons.1 h with rfl | h
      · simp
      · exact ih h
    · rename_i hc
      rcases List.mem_cons.1 h with rfl | h
      · simpa [eq_comm] using And.intro (by simpa using hc) (ih List.mem_cons_self)
      · exact ih (List.mem_cons_of_mem _ h)

/-- The characters of a text are those of its first piece until a division mark comes. -/
theorem head?_of_splitOn {text p : List Char} {ps : List (List Char)}
    (h : text.splitOn '/' = p :: ps) {c : Char} (hc : p.head? = some c) : text.head? = some c := by
  cases text with
  | nil =>
    obtain rfl : [] = p := by simpa using congrArg List.head? h
    simp at hc
  | cons d rest =>
    rw [List.splitOn_cons_eq_if_modifyHead] at h
    obtain ⟨q, qs, hsplit⟩ := List.exists_cons_of_ne_nil (List.splitOn_ne_nil '/' rest)
    split at h
    · obtain rfl := (List.cons.inj h).1
      simp at hc
    · rw [hsplit] at h
      obtain rfl := (List.cons.inj h).1
      exact hc

/-- A text is scanned piece by piece. -/
theorem toPieces_scan (text : List Char) :
    (scan text).toPieces = (text.splitOn '/').map fun p ↦ (scan p).token :: (scan p).tokens := by
  -- what stands in front of a text stands in front of its first piece
  induction text using scan.induct with
  | case1 => simp [scan, Scan.nil, Scan.toPieces]
  | case2 rest ih =>
    rw [scan_slash, List.splitOn_cons_eq_if_modifyHead, if_pos (beq_self_eq_true _), List.map_cons,
      ← ih]
    rfl
  | case3 rest ih =>
    obtain ⟨p, ps, hsplit⟩ := List.exists_cons_of_ne_nil (List.splitOn_ne_nil '/' rest)
    rw [hsplit] at ih
    simp only [Scan.toPieces, List.map_cons, List.cons.injEq] at ih
    rw [splitOn_slash_cons (by decide), splitOn_slash_cons (by decide), hsplit, scan_starStar]
    simp [scan_starStar, Scan.toPieces, Scan.separate, ih]
  | case4 rest hrest ih =>
    obtain ⟨p, ps, hsplit⟩ := List.exists_cons_of_ne_nil (List.splitOn_ne_nil '/' rest)
    have hhead : ∀ {t : List Char}, t.head? = some '*' → ∃ t', t = '*' :: t' := by
      rintro (- | ⟨c, t⟩) h
      · simp at h
      · exact ⟨t, by simpa using h⟩
    have hp : p.head? ≠ some '*' := fun hp ↦ by
      obtain ⟨rest', rfl⟩ := hhead (head?_of_splitOn hsplit hp)
      exact hrest rest' rfl
    rw [hsplit] at ih
    simp only [Scan.toPieces, List.map_cons, List.cons.injEq] at ih
    rw [splitOn_slash_cons (by decide), hsplit, scan.eq_4 rest hrest]
    simp [scan_star hp, Scan.toPieces, Scan.separate, ih]
  | case5 rest ih =>
    obtain ⟨p, ps, hsplit⟩ := List.exists_cons_of_ne_nil (List.splitOn_ne_nil '/' rest)
    rw [hsplit] at ih
    simp only [Scan.toPieces, List.map_cons, List.cons.injEq] at ih
    rw [splitOn_slash_cons (by decide), hsplit, scan_caret]
    simp [scan_caret, Scan.toPieces, Scan.separate, ih]
  | case6 c rest hslash hstars hstar hcaret ih =>
    obtain ⟨p, ps, hsplit⟩ := List.exists_cons_of_ne_nil (List.splitOn_ne_nil '/' rest)
    have hc : isSeparator c = false := by
      simp only [isSeparator, Bool.or_eq_false_iff, beq_eq_false_iff_ne]
      exact ⟨⟨hslash, hstar⟩, hcaret⟩
    rw [hsplit] at ih
    simp only [Scan.toPieces, List.map_cons, List.cons.injEq] at ih
    rw [splitOn_slash_cons hslash, hsplit, scan_cons hc]
    simp [scan_cons hc, Scan.toPieces, Scan.extend, ih]

/-- A piece alone has nothing below the line. -/
theorem ofString_of_mem_pieces {s p : String} (h : p ∈ pieces s) :
    ofString p = ⟨pieceTokens p, []⟩ := by
  obtain ⟨text, htext, rfl⟩ := List.mem_map.1 h
  have hsingle := List.splitOn_eq_singleton (not_mem_of_mem_splitOn htext)
  have hscan := toPieces_scan text
  rw [hsingle] at hscan
  rw [pieceTokens, ofString, String.toList_ofList, hscan]
  rfl

/-- The tokens of a piece are what a scan of the piece finds, without the blanks around them. -/
theorem pieceTokens_ofList {text p : List Char} (h : p ∈ text.splitOn '/') :
    pieceTokens (String.ofList p) =
      ((scan p).token :: (scan p).tokens).map fun token ↦ String.ofList (Text.trim token) := by
  have hscan := toPieces_scan p
  rw [List.splitOn_eq_singleton (not_mem_of_mem_splitOn h)] at hscan
  rw [pieceTokens, ofString, String.toList_ofList, hscan]
  simp [tokens, evens]

/-- A piece has a token, if only an empty one. -/
theorem pieceTokens_ne_nil {s p : String} (h : p ∈ pieces s) : pieceTokens p ≠ [] := by
  obtain ⟨text, htext, rfl⟩ := List.mem_map.1 h
  rw [pieceTokens_ofList htext]
  simp

/-- **A split is that of the pieces**, every other one above the line. Cutting at division marks
first and at the other separators afterwards is cutting at all of them at once. -/
theorem ofString_eq_pieces (s : String) :
    ofString s =
      ⟨(evens (pieces s)).flatMap pieceTokens, (odds (pieces s)).flatMap pieceTokens⟩ := by
  have hside : ∀ l ⊆ s.toList.splitOn '/',
      tokens (l.map fun p ↦ (scan p).token :: (scan p).tokens) =
        (l.map String.ofList).flatMap pieceTokens := by
    intro l hl
    rw [tokens, List.map_flatten, List.map_map, List.flatMap_map, ← List.flatMap_def]
    exact List.flatMap_congr fun p hp ↦ (pieceTokens_ofList (hl hp)).symm
  rw [ofString, toPieces_scan, evens_map, odds_map, hside _ fun _ ↦ mem_of_mem_evens,
    hside _ fun _ ↦ mem_of_mem_odds, pieces, evens_map, odds_map]

section Positions

variable {α : Type}

/-- The position of a member among those at even positions. -/
theorem getElem?_evens : ∀ (l : List α) (k : Nat), (evens l)[k]? = l[2 * k]?
  | [], _ => by simp [evens]
  | [_], 0 => rfl
  | [_], k + 1 => by simp [evens, Nat.mul_add]
  | _ :: _ :: _, 0 => rfl
  | _ :: _ :: rest, k + 1 => getElem?_evens rest k

/-- The position of a member among those at odd positions. -/
theorem getElem?_odds (l : List α) (k : Nat) : (odds l)[k]? = l[2 * k + 1]? := by
  rw [odds, getElem?_evens, List.getElem?_tail]

/-- Every member is at an even or at an odd position. -/
theorem mem_evens_or_mem_odds : ∀ {l : List α} {a : α}, a ∈ l → a ∈ evens l ∨ a ∈ odds l
  | [_], _, h => .inl h
  | b :: c :: rest, a, h => by
    rcases List.mem_cons.1 h with rfl | h
    · exact .inl List.mem_cons_self
    · rcases mem_evens_or_mem_odds h with h | h
      · exact .inr h
      · exact .inl (List.mem_cons_of_mem _ h)

/-- What relates two lists member by member relates their members above the line. -/
theorem forall₂_evens {β : Type} {R : α → β → Prop} :
    ∀ {l : List α} {m : List β}, List.Forall₂ R l m → List.Forall₂ R (evens l) (evens m)
  | [], _, .nil => .nil
  | [_], _, .cons h .nil => .cons h .nil
  | _ :: _ :: _, _, .cons h (.cons _ hrest) => .cons h (forall₂_evens hrest)

/-- And those below it. -/
theorem forall₂_odds {β : Type} {R : α → β → Prop} {l : List α} {m : List β}
    (h : List.Forall₂ R l m) : List.Forall₂ R (odds l) (odds m) := by
  cases h with
  | nil => exact .nil
  | cons _ hrest => exact forall₂_evens hrest

/-- The first two members are the first ones above and below the line, and all others have one
before them on their side. -/
theorem mem_drop_of_mem_tail_evens {l : List α} {a : α} (h : a ∈ (evens l).tail) :
    a ∈ l.drop 2 := by
  match l, h with
  | _ :: _ :: _, h => exact mem_of_mem_evens h

/-- Likewise below the line. -/
theorem mem_drop_of_mem_tail_odds {l : List α} {a : α} (h : a ∈ (odds l).tail) :
    a ∈ l.drop 2 := by
  have htail := mem_drop_of_mem_tail_evens h
  rw [← List.drop_one, List.drop_drop] at htail
  exact List.mem_of_mem_drop (i := 1) (by rwa [List.drop_drop])

end Positions

end Split

/-! ### Lists of tokens one after another -/

namespace Term

/-- The first token is an exponent. -/
def startsWithExponent (tokens : List String) : Bool :=
  tokens.head?.any fun token ↦ (exponent? token).isSome

/-- The last token stands for a unit. -/
def endsInUnit (tokens : List String) : Bool :=
  tokens.getLast?.any namesUnit

/-- Tokens that do not start with an exponent start with a unit, or with nothing. -/
theorem startsWithExponent_eq_false_iff {tokens : List String} :
    startsWithExponent tokens = false ↔ ∀ token ∈ tokens.head?, exponent? token = none := by
  rw [startsWithExponent, Option.any_eq_false]
  simp

/-- What reads does not start with an exponent. -/
theorem startsWithExponent_of_ofTokens {tokens : List String} {ts : List Term}
    (h : ofTokens tokens = .ok ts) : startsWithExponent tokens = false := by
  rw [startsWithExponent_eq_false_iff]
  rintro token htoken
  obtain ⟨rest, rfl⟩ := List.head?_eq_some_iff.1 htoken
  by_contra hx
  obtain ⟨x, hx⟩ := Option.ne_none_iff_exists'.1 hx
  simp [ofTokens_stray hx] at h

/-- The last member stays the last one. -/
theorem getLast?_cons_of_mem {α : Type} {l : List α} {a b : α} (h : a ∈ l.getLast?) :
    (b :: l).getLast? = some a := by
  rw [List.getLast?_cons, Option.mem_def.1 h, Option.getD_some]

/-- Two lists of tokens are read one after the other, unless the first ends in a unit that takes
its exponent from the second. If either does not read, neither do both, and the fault of the
first list is the one that is met. -/
theorem ofTokens_append {tokens tail : List String}
    (h : endsInUnit tokens → startsWithExponent tail = false) :
    ofTokens (tokens ++ tail) =
      (do let ts ← ofTokens tokens; let us ← ofTokens tail; pure (ts ++ us)) := by
  have hlater : ∀ {token : String} {rest : List String}, endsInUnit rest →
      endsInUnit (token :: rest) := by
    intro token rest hrest
    obtain ⟨u, hu, hunit⟩ := (Option.any_eq_true _ _).1 hrest
    rw [endsInUnit, getLast?_cons_of_mem hu]
    exact hunit
  induction tokens using tokens_induction with
  | nil =>
    rw [List.nil_append, ofTokens_nil]
    cases ofTokens tail <;> rfl
  | empty tokens ih =>
    rw [List.cons_append, ofTokens_empty, ofTokens_empty, ih fun hends ↦ h (hlater hends)]
  | stray token tokens x hx =>
    rw [List.cons_append, ofTokens_stray hx, ofTokens_stray hx, error_bind]
  | exponent token next tokens x htoken hx ih =>
    rw [List.cons_append, List.cons_append, ofTokens_exponent htoken hx,
      ofTokens_exponent htoken hx, ih fun hends ↦ h (hlater (hlater hends))]
    cases ofTokens tokens <;> cases ofTokens tail <;> rfl
  | unit token tokens htoken hnext ih =>
    -- the unit at the front may be all of the first list, and then the second one follows it
    have hhead : ∀ next ∈ (tokens ++ tail).head?, exponent? next = none := by
      rcases tokens with - | ⟨next, tokens⟩
      · refine startsWithExponent_eq_false_iff.1 (h ?_)
        simpa [endsInUnit] using htoken
      · exact hnext
    rw [List.cons_append, ofTokens_unit htoken hhead, ofTokens_unit htoken hnext,
      ih fun hends ↦ h (hlater hends)]
    cases ofTokens tokens <;> cases ofTokens tail <;> rfl

/-- An exponent that was read belongs to the token before it. -/
theorem mem_of_ofTokens_append_exponent {before after : List String} {token : String} {x : Float}
    {ts : List Term} (hx : exponent? token = some x)
    (h : ofTokens (before ++ token :: after) = .ok ts) :
    ∃ u ∈ before.getLast?, namesUnit u ∧ ⟨u, some x⟩ ∈ ts := by
  induction before using tokens_induction generalizing ts with
  | nil => simp [ofTokens_stray hx] at h
  | empty before ih =>
    rw [List.cons_append, ofTokens_empty] at h
    obtain ⟨u, hu, hunit, hmem⟩ := ih h
    exact ⟨u, getLast?_cons_of_mem hu, hunit, hmem⟩
  | stray first before y hy => simp [ofTokens_stray hy] at h
  | exponent first next before y hfirst hy ih =>
    rw [List.cons_append, List.cons_append, ofTokens_exponent hfirst hy, map_eq_ok_iff] at h
    obtain ⟨rest, hrest, rfl⟩ := h
    obtain ⟨u, hu, hunit, hmem⟩ := ih hrest
    exact ⟨u, getLast?_cons_of_mem (getLast?_cons_of_mem hu), hunit,
      List.mem_cons_of_mem _ hmem⟩
  | unit first before hfirst hnext ih =>
    rcases before with - | ⟨next, before⟩
    · rw [List.singleton_append, ofTokens_exponent hfirst hx, map_eq_ok_iff] at h
      obtain ⟨rest, -, rfl⟩ := h
      exact ⟨first, rfl, hfirst, List.mem_cons_self⟩
    · have hhead : ∀ n ∈ (next :: before ++ token :: after).head?, exponent? n = none := hnext
      rw [List.cons_append, ofTokens_unit hfirst hhead, map_eq_ok_iff] at h
      obtain ⟨rest, hrest, rfl⟩ := h
      obtain ⟨u, hu, hunit, hmem⟩ := ih hrest
      exact ⟨u, getLast?_cons_of_mem hu, hunit, List.mem_cons_of_mem _ hmem⟩

/-! ### Exponents carried back -/

/-- Pieces behind some tokens, where an exponent at the start of a piece is put behind the
tokens before it. -/
def carryInto (tokens : List String) : List (List String) → List (List String)
  | [] => [tokens]
  | next :: rest =>
    if startsWithExponent next then (tokens ++ next.take 1) :: carryInto (next.drop 1) rest
    else tokens :: carryInto next rest

/-- The pieces on one side of the line, where an exponent at the start of a piece is put behind
the piece before it. -/
def carry : List (List String) → List (List String)
  | [] => []
  | tokens :: rest => carryInto tokens rest

/-- Without an exponent at the start of any piece nothing is carried. -/
theorem carryInto_eq_self {tokens : List String} {rest : List (List String)}
    (h : ∀ next ∈ rest, startsWithExponent next = false) :
    carryInto tokens rest = tokens :: rest := by
  induction rest generalizing tokens with
  | nil => rfl
  | cons next rest ih =>
    rw [carryInto, if_neg (by simp [h next List.mem_cons_self]),
      ih fun p hp ↦ h p (List.mem_cons_of_mem _ hp)]

/-- Nor is it in the list of all pieces, whose first one has nothing to carry to. -/
theorem carry_eq_self {l : List (List String)}
    (h : ∀ next ∈ l.tail, startsWithExponent next = false) : carry l = l := by
  cases l with
  | nil => rfl
  | cons tokens rest => exact carryInto_eq_self h

/-- The pieces from some tokens on are read one by one, once exponents are carried. The tokens
stand for the piece at hand, from which an exponent may already have been carried away.

Each piece is split off with `ofTokens_append`, whose exception does not arise: either the piece
behind does not start with an exponent, or its exponent has been carried to the end of these
tokens, which then do not end in a unit. -/
theorem ofTokens_append_flatten {tokens : List String} {rest : List (List String)}
    (hne : ∀ next ∈ rest, next ≠ []) :
    ofTokens (tokens ++ rest.flatten) =
      ((carryInto tokens rest).mapM ofTokens).map List.flatten := by
  have hcons : ∀ (first : List String) (l : List (List String)),
      ((first :: l).mapM ofTokens).map List.flatten =
        (do
          let ts ← ofTokens first
          let us ← (l.mapM ofTokens).map List.flatten
          pure (ts ++ us)) := by
    intro first l
    rw [List.mapM_cons]
    cases ofTokens first <;> cases l.mapM ofTokens <;> rfl
  induction rest generalizing tokens with
  | nil =>
    rw [carryInto, hcons]
    cases h : ofTokens tokens <;> simp [h, Except.map]
  | cons next rest ih =>
    have hrest : ∀ p ∈ rest, p ≠ [] := fun p hp ↦ hne p (List.mem_cons_of_mem _ hp)
    obtain ⟨token, next, rfl⟩ := List.exists_cons_of_ne_nil (hne _ List.mem_cons_self)
    rw [carryInto]
    split
    · -- the tokens now end in an exponent, so nothing that follows can be theirs
      rename_i hstart
      have hends : endsInUnit (tokens ++ [token]) = false := by
        obtain ⟨x, hx⟩ := Option.isSome_iff_exists.1 hstart
        simp [endsInUnit, namesUnit, hx]
      rw [hcons, List.take_one, List.drop_one, List.tail_cons, ← ih hrest, List.flatten_cons,
        List.cons_append, List.append_cons]
      exact ofTokens_append fun h ↦ by simp [hends] at h
    · rename_i hstart
      rw [hcons, ← ih hrest, List.flatten_cons]
      exact ofTokens_append fun _ ↦ Bool.eq_false_iff.2 hstart

/-- **One side of the line is read piece by piece**, with exponents carried back. -/
theorem ofTokens_flatten {l : List (List String)} (hne : ∀ next ∈ l, next ≠ []) :
    ofTokens l.flatten = ((carry l).mapM ofTokens).map List.flatten := by
  cases l with
  | nil => rw [List.flatten_nil, ofTokens_nil]; rfl
  | cons tokens rest =>
    exact ofTokens_append_flatten fun p hp ↦ hne p (List.mem_cons_of_mem _ hp)

end Term

/-! ### Expressions -/

namespace Expression

open Split (evens odds pieces pieceTokens)
open Term (startsWithExponent carry)

/-- A piece alone has no line, and all of its terms are above it. -/
theorem ofString_of_mem_pieces {s p : String} (h : p ∈ pieces s) :
    ofString p = (Term.ofTokens (pieceTokens p)).map fun ts ↦ ⟨ts, []⟩ := by
  rw [ofString, Split.ofString_of_mem_pieces h, Term.ofTokens_nil]
  cases Term.ofTokens (pieceTokens p) <;> rfl

/-- A piece reads alone exactly if its tokens do. -/
theorem exists_ofString_of_mem_pieces_iff {s p : String} (h : p ∈ pieces s) :
    (∃ f, ofString p = .ok f) ↔ ∃ ts, Term.ofTokens (pieceTokens p) = .ok ts := by
  rw [ofString_of_mem_pieces h]
  cases Term.ofTokens (pieceTokens p) <;> simp [Except.map]

/-- The two sides are read piece by piece, with exponents carried back. -/
theorem ofString_eq_carry (s : String) :
    ofString s =
      (do
        let numerator ← (carry ((evens (pieces s)).map pieceTokens)).mapM Term.ofTokens
        let denominator ← (carry ((odds (pieces s)).map pieceTokens)).mapM Term.ofTokens
        pure ⟨numerator.flatten, denominator.flatten⟩) := by
  have hside : ∀ l ⊆ pieces s, Term.ofTokens (l.flatMap pieceTokens) =
      ((carry (l.map pieceTokens)).mapM Term.ofTokens).map List.flatten := by
    intro l hl
    rw [List.flatMap_def]
    refine Term.ofTokens_flatten fun tokens htokens ↦ ?_
    obtain ⟨p, hp, rfl⟩ := List.mem_map.1 htokens
    exact Split.pieceTokens_ne_nil (hl hp)
  rw [ofString, Split.ofString_eq_pieces, hside _ fun _ ↦ Split.mem_of_mem_evens,
    hside _ fun _ ↦ Split.mem_of_mem_odds]
  cases (carry ((evens (pieces s)).map pieceTokens)).mapM Term.ofTokens <;>
    cases (carry ((odds (pieces s)).map pieceTokens)).mapM Term.ofTokens <;> rfl

/-- Nothing is carried when no piece starts with an exponent. -/
theorem ofString_eq_mapM {s : String}
    (h : ∀ p ∈ (pieces s).drop 2, startsWithExponent (pieceTokens p) = false) :
    ofString s =
      (do
        let numerator ← ((evens (pieces s)).map pieceTokens).mapM Term.ofTokens
        let denominator ← ((odds (pieces s)).map pieceTokens).mapM Term.ofTokens
        pure ⟨numerator.flatten, denominator.flatten⟩) := by
  have hside : ∀ l : List String, l.tail ⊆ (pieces s).drop 2 →
      carry (l.map pieceTokens) = l.map pieceTokens := by
    intro l hl
    refine Term.carry_eq_self fun tokens htokens ↦ ?_
    rw [← List.map_tail] at htokens
    obtain ⟨p, hp, rfl⟩ := List.mem_map.1 htokens
    exact h p (hl hp)
  rw [ofString_eq_carry, hside _ fun _ ↦ Split.mem_drop_of_mem_tail_evens,
    hside _ fun _ ↦ Split.mem_drop_of_mem_tail_odds]

/-- A piece that reads alone does not start with an exponent. -/
theorem startsWithExponent_of_ofString {p : String} {f : Expression} (h : ofString p = .ok f) :
    startsWithExponent (pieceTokens p) = false :=
  Term.startsWithExponent_of_ofTokens (ofString_eq_ok_iff.1 h).1

/-- The pieces all read alone when they read together and nothing is carried. The one direction
needs the other half first: it is because they read alone that nothing is carried. -/
theorem exists_ofString_of_pieces_iff (s : String) :
    (∀ p ∈ pieces s, ∃ f, ofString p = .ok f) ↔
      (∃ e, ofString s = .ok e) ∧
        ∀ p ∈ (pieces s).drop 2, startsWithExponent (pieceTokens p) = false := by
  have hside : ∀ l ⊆ pieces s, (∀ p ∈ l, ∃ f, ofString p = .ok f) ↔
      ∃ tss, (l.map pieceTokens).mapM Term.ofTokens = .ok tss := by
    intro l hl
    rw [exists_mapM_eq_ok_iff, List.forall_mem_map]
    exact forall₂_congr fun p hp ↦ exists_ofString_of_mem_pieces_iff (hl hp)
  have hevens := hside (evens (pieces s)) fun _ ↦ Split.mem_of_mem_evens
  have hodds := hside (odds (pieces s)) fun _ ↦ Split.mem_of_mem_odds
  constructor
  · intro h
    have hstart : ∀ p ∈ (pieces s).drop 2, startsWithExponent (pieceTokens p) = false := by
      intro p hp
      obtain ⟨f, hf⟩ := h p (List.mem_of_mem_drop hp)
      exact startsWithExponent_of_ofString hf
    obtain ⟨numerator, hnum⟩ := hevens.1 fun p hp ↦ h p (Split.mem_of_mem_evens hp)
    obtain ⟨denominator, hden⟩ := hodds.1 fun p hp ↦ h p (Split.mem_of_mem_odds hp)
    refine ⟨⟨⟨numerator.flatten, denominator.flatten⟩, ?_⟩, hstart⟩
    rw [ofString_eq_mapM hstart, hnum, hden]
    rfl
  · -- the two sides are read apart, and each piece is on one of them
    rintro ⟨⟨e, he⟩, hstart⟩ p hp
    rw [ofString_eq_mapM hstart] at he
    obtain ⟨numerator, hnum, he⟩ := bind_eq_ok_iff.1 he
    obtain ⟨denominator, hden, -⟩ := bind_eq_ok_iff.1 he
    rcases Split.mem_evens_or_mem_odds hp with hp | hp
    · exact hevens.2 ⟨numerator, hnum⟩ p hp
    · exact hodds.2 ⟨denominator, hden⟩ p hp

/-- Pieces that read alone read together, and their terms stay as they are. -/
theorem ofString_of_forall₂ {s : String} {fs : List Expression}
    (h : List.Forall₂ (fun p f ↦ ofString p = .ok f) (pieces s) fs) :
    ofString s = .ok ⟨(evens fs).flatMap numerator, (odds fs).flatMap numerator⟩ := by
  have hall : ∀ p ∈ pieces s, ∃ f, ofString p = .ok f :=
    exists_mapM_eq_ok_iff.1 ⟨fs, mapM_eq_ok_iff.2 h⟩
  have hside : ∀ {ps : List String} {fs : List Expression},
      List.Forall₂ (fun p f ↦ ofString p = .ok f) ps fs →
      (ps.map pieceTokens).mapM Term.ofTokens = .ok (fs.map numerator) := by
    intro ps fs hread
    rw [mapM_eq_ok_iff, List.forall₂_map_left_iff, List.forall₂_map_right_iff]
    exact hread.imp fun p f hf ↦ (ofString_eq_ok_iff.1 hf).1
  rw [ofString_eq_mapM ((exists_ofString_of_pieces_iff s).1 hall).2,
    hside (Split.forall₂_evens h), hside (Split.forall₂_odds h)]
  rfl

/-- On one side of the line, a piece that starts with an exponent stands behind another piece,
whose last token is the unit that the exponent belongs to. The tokens of that side are split at
the exponent, and what is before it ends in what the piece before ends in. -/
theorem exists_unit_of_startsWithExponent {ps : List String} {ts : List Term}
    (hne : ∀ p ∈ ps, pieceTokens p ≠ []) (h : Term.ofTokens (ps.flatMap pieceTokens) = .ok ts)
    {k : Nat} {p token : String} {x : Float} (hp : ps[k]? = some p)
    (htoken : token ∈ (pieceTokens p).head?) (hx : exponent? token = some x) :
    ∃ k' q u, k = k' + 1 ∧ ps[k']? = some q ∧ u ∈ (pieceTokens q).getLast? ∧ namesUnit u ∧
      ⟨u, some x⟩ ∈ ts := by
  obtain ⟨after, hafter⟩ := List.head?_eq_some_iff.1 htoken
  obtain ⟨hk, rfl⟩ := List.getElem?_eq_some_iff.1 hp
  have hsplit : ps.flatMap pieceTokens = (ps.take k).flatMap pieceTokens ++
      token :: (after ++ (ps.drop (k + 1)).flatMap pieceTokens) := by
    -- the tokens in front of the piece, its exponent, and all others
    conv_lhs => rw [← List.take_append_drop k ps, List.drop_eq_getElem_cons hk]
    rw [List.flatMap_append, List.flatMap_cons, hafter, List.cons_append]
  rw [hsplit] at h
  obtain ⟨u, hu, hunit, hmem⟩ := Term.mem_of_ofTokens_append_exponent hx h
  cases k with
  | zero => simp at hu
  | succ k' =>
    have hk' : k' < ps.length := by omega
    refine ⟨k', ps[k'], u, rfl, List.getElem?_eq_getElem hk', ?_, hunit, hmem⟩
    rw [List.take_succ_eq_append_getElem hk', List.flatMap_append, List.flatMap_singleton,
      List.getLast?_append_of_ne_nil _ (hne _ (List.getElem_mem hk'))] at hu
    exact hu

/-- The terms on the side of the line where the piece at a position stands. -/
def side (e : Expression) (i : Nat) : List Term :=
  if i % 2 = 0 then e.numerator else e.denominator

/-- An exponent at the start of a piece belongs to the unit that ends the piece two before. -/
theorem exists_unit_of_head?_pieceTokens {s : String} {e : Expression} (h : ofString s = .ok e)
    {i : Nat} {p token : String} {x : Float} (hp : (pieces s)[i]? = some p)
    (htoken : (pieceTokens p).head? = some token) (hx : exponent? token = some x) :
    ∃ j q u, i = j + 2 ∧ (pieces s)[j]? = some q ∧ (pieceTokens q).getLast? = some u ∧
      namesUnit u ∧ ⟨u, some x⟩ ∈ e.side i := by
  obtain ⟨hnum, hden⟩ := ofString_eq_ok_iff.1 h
  rw [Split.ofString_eq_pieces] at hnum hden
  -- above or below the line, and two positions in the expression are one position on the side
  rcases Nat.even_or_odd' i with ⟨k, rfl | rfl⟩
  · rw [← Split.getElem?_evens] at hp
    obtain ⟨k', q, u, rfl, hq, hu, hunit, hmem⟩ := exists_unit_of_startsWithExponent
      (fun p hp ↦ Split.pieceTokens_ne_nil (Split.mem_of_mem_evens hp)) hnum hp htoken hx
    refine ⟨2 * k', q, u, by omega, ?_, hu, hunit, ?_⟩
    · rwa [← Split.getElem?_evens]
    · rwa [side, if_pos (by omega)]
  · rw [← Split.getElem?_odds] at hp
    obtain ⟨k', q, u, rfl, hq, hu, hunit, hmem⟩ := exists_unit_of_startsWithExponent
      (fun p hp ↦ Split.pieceTokens_ne_nil (Split.mem_of_mem_odds hp)) hden hp htoken hx
    refine ⟨2 * k' + 1, q, u, by omega, ?_, hu, hunit, ?_⟩
    · rwa [← Split.getElem?_odds]
    · rwa [side, if_neg (by omega)]

/-- **Reading by pieces.** All pieces of an expression read alone exactly when it reads and no
piece from the third on starts with an exponent, and then their terms are its terms, in order. In
general the two sides are read piece by piece once such exponents are carried back, and an
expression in which a piece starts with an exponent reads only if the piece two before ends in a
unit, which has that exponent. -/
theorem ofString_by_pieces (s : String) :
    ((∀ p ∈ pieces s, ∃ f, ofString p = .ok f) ↔
        (∃ e, ofString s = .ok e) ∧
          ∀ p ∈ (pieces s).drop 2, startsWithExponent (pieceTokens p) = false) ∧
      (∀ fs, List.Forall₂ (fun p f ↦ ofString p = .ok f) (pieces s) fs →
        ofString s = .ok ⟨(evens fs).flatMap numerator, (odds fs).flatMap numerator⟩) ∧
      ofString s =
        (do
          let numerator ← (carry ((evens (pieces s)).map pieceTokens)).mapM Term.ofTokens
          let denominator ← (carry ((odds (pieces s)).map pieceTokens)).mapM Term.ofTokens
          pure ⟨numerator.flatten, denominator.flatten⟩) ∧
      ∀ e i p token x, ofString s = .ok e → (pieces s)[i]? = some p →
        (pieceTokens p).head? = some token → exponent? token = some x →
        ∃ j q u, i = j + 2 ∧ (pieces s)[j]? = some q ∧ (pieceTokens q).getLast? = some u ∧
          namesUnit u ∧ ⟨u, some x⟩ ∈ e.side i :=
  ⟨exists_ofString_of_pieces_iff s, fun _ ↦ ofString_of_forall₂, ofString_eq_carry s,
    fun _ _ _ _ _ h hp htoken hx ↦ exists_unit_of_head?_pieceTokens h hp htoken hx⟩

/-- The pieces of an expression do not always read alone: `m/s/2` reads, and `2` does not. -/
theorem ofString_m_per_s_two :
    pieces "m/s/2" = ["m", "s", "2"] ∧
      ofString "m/s/2" = .ok ⟨[⟨"m", some 2.0⟩], [⟨"s", none⟩]⟩ ∧
      ofString "2" = .error (.strayExponent "2") ∧
      ¬((∃ e, ofString "m/s/2" = .ok e) ↔ ∀ p ∈ pieces "m/s/2", ∃ f, ofString p = .ok f) := by
  have hpieces : pieces "m/s/2" = ["m", "s", "2"] := by decide +kernel
  have hread : ofString "m/s/2" = .ok ⟨[⟨"m", some 2.0⟩], [⟨"s", none⟩]⟩ := by decide +kernel
  have hstray : ofString "2" = .error (.strayExponent "2") := by decide +kernel
  refine ⟨hpieces, hread, hstray, fun hiff ↦ ?_⟩
  obtain ⟨f, hf⟩ := hiff.1 ⟨_, hread⟩ "2" (by simp [hpieces])
  simp [hstray] at hf

end Expression

end DimensionalAnalysis
