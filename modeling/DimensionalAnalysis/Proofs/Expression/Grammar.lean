import DimensionalAnalysis.Proofs.Expression.Pieces

/-!
# The grammar of unit expressions

Unit expressions have a parsing expression grammar, with ordered choice, greedy repetition and
negative lookahead, and with nothing skipped between its parts (`Grammar.unitExpression`). Here
it is set beside the scan, which goes through a text once and from the right.

The meaning of a grammar is the relation `Grammar.Matches`, which has a rule for every way in
which a pattern can succeed or fail. A pattern has at most one outcome (`Matches.unique`), so
one derivation says all that the grammar does with a text, also that it comes to an end there.

A token is a repetition whose end is decided by lookahead, and it may be empty. The derivation
is therefore built along the scan, with one fact for what the grammar finds from a position on:
the rest of a token, the tokens behind it in the same segment, and the segments behind those
(`Grammar.Parses`). Every text has a parse tree, with the tokens of the scan (`exists_tree`).

A relation suits better than a function here. Repetition in such a grammar need not come to an
end, so that a function would have to be told when to give up, and whether it was told in time
would be one more thing to prove. Failure has rules of its own, since lookahead and choice
depend on it.
-/

namespace DimensionalAnalysis

namespace Grammar

/-! ### Parsing expression grammars -/

/-- The rules that leave a node in the parse tree. -/
inductive Rule
  | unitExpression
  | segment
  | token
  | finish
deriving DecidableEq

/-- A parse tree: the rule, the text that it matched, and the trees of the rules inside. -/
structure Tree where
  rule : Rule
  text : List Char
  children : List Tree

namespace Tree

/-- The texts of the tokens of a segment. -/
def tokenTexts (segment : Tree) : List (List Char) :=
  (segment.children.filter fun t ↦ t.rule = .token).map text

/-- The texts of the tokens of an expression, segment by segment. -/
def segmentTexts (root : Tree) : List (List (List Char)) :=
  (root.children.filter fun t ↦ t.rule = .segment).map tokenTexts

end Tree

/-- A pattern of a parsing expression grammar. -/
inductive Pattern
  /-- The start of the input. -/
  | start
  /-- Any one character. -/
  | any
  | literal (text : List Char)
  | seq (p q : Pattern)
  /-- The first alternative that matches. -/
  | choice (p q : Pattern)
  /-- As many repetitions as match. -/
  | many (p : Pattern)
  /-- Consumes nothing, where the pattern does not match. -/
  | notAhead (p : Pattern)
  /-- The pattern, with a node for it in the tree. -/
  | node (rule : Rule) (p : Pattern)

/-- What a pattern does at a position of the input, which is given by the text from there on: it
fails, or it leaves some trees and the text behind what it consumed.

The input is there for the pattern that asks for its start. No rule is about a pattern that
neither succeeds nor fails: a repetition that goes on forever has no derivation. -/
inductive Matches (input : List Char) :
    Pattern → List Char → Option (List Tree × List Char) → Prop
  | start : Matches input .start input (some ([], input))
  | start_fail {s} (h : s ≠ input) : Matches input .start s none
  | any (c s) : Matches input .any (c :: s) (some ([], s))
  | any_fail : Matches input .any [] none
  | literal (text s) : Matches input (.literal text) (text ++ s) (some ([], s))
  | literal_fail {text s} (h : ∀ s', s ≠ text ++ s') : Matches input (.literal text) s none
  | seq {p q s ts s' us s''} (hp : Matches input p s (some (ts, s')))
      (hq : Matches input q s' (some (us, s''))) :
      Matches input (.seq p q) s (some (ts ++ us, s''))
  | seq_fail_left {p q s} (hp : Matches input p s none) : Matches input (.seq p q) s none
  | seq_fail_right {p q s ts s'} (hp : Matches input p s (some (ts, s')))
      (hq : Matches input q s' none) : Matches input (.seq p q) s none
  | choice_left {p q s r} (hp : Matches input p s (some r)) :
      Matches input (.choice p q) s (some r)
  | choice_right {p q s r} (hp : Matches input p s none) (hq : Matches input q s r) :
      Matches input (.choice p q) s r
  | many_stop {p s} (hp : Matches input p s none) : Matches input (.many p) s (some ([], s))
  | many_next {p s ts s' us s''} (hp : Matches input p s (some (ts, s')))
      (hrest : Matches input (.many p) s' (some (us, s''))) :
      Matches input (.many p) s (some (ts ++ us, s''))
  | notAhead {p s} (hp : Matches input p s none) : Matches input (.notAhead p) s (some ([], s))
  | notAhead_fail {p s r} (hp : Matches input p s (some r)) : Matches input (.notAhead p) s none
  | node {rule p s ts text s'} (hp : Matches input p s (some (ts, s'))) (hs : s = text ++ s') :
      Matches input (.node rule p) s (some ([⟨rule, text, ts⟩], s'))
  | node_fail {rule p s} (hp : Matches input p s none) : Matches input (.node rule p) s none

namespace Matches

variable {input s : List Char} {p : Pattern}

/-- **A pattern has at most one outcome.** Two derivations for one position end in the same
rule, since the rules of a pattern exclude one another by what its parts do there. -/
theorem unique {r r' : Option (List Tree × List Char)} (h : Matches input p s r)
    (h' : Matches input p s r') : r = r' := by
  induction h generalizing r' with
  | start =>
    cases h' with
    | start => rfl
    | start_fail h => exact absurd rfl h
  | start_fail h =>
    cases h' with
    | start => exact absurd rfl h
    | start_fail => rfl
  | any => cases h'; rfl
  | any_fail => cases h'; rfl
  | literal text s =>
    generalize hs : text ++ s = t at h'
    cases h' with
    | literal _ s' => rw [List.append_cancel_left hs]
    | literal_fail h => exact absurd hs.symm (h s)
  | literal_fail h =>
    cases h' with
    | literal _ s' => exact absurd rfl (h s')
    | literal_fail => rfl
  | seq _ _ ihp ihq =>
    cases h' with
    | seq hp hq =>
      cases ihp hp
      cases ihq hq
      rfl
    | seq_fail_left hp => cases ihp hp
    | seq_fail_right hp hq =>
      cases ihp hp
      cases ihq hq
  | seq_fail_left _ ihp =>
    cases h' with
    | seq hp => cases ihp hp
    | seq_fail_left => rfl
    | seq_fail_right hp => cases ihp hp
  | seq_fail_right _ _ ihp ihq =>
    cases h' with
    | seq hp hq =>
      cases ihp hp
      cases ihq hq
    | seq_fail_left => rfl
    | seq_fail_right => rfl
  | choice_left _ ihp =>
    cases h' with
    | choice_left hp => exact ihp hp
    | choice_right hp => cases ihp hp
  | choice_right _ _ ihp ihq =>
    cases h' with
    | choice_left hp => cases ihp hp
    | choice_right _ hq => exact ihq hq
  | many_stop _ ihp =>
    cases h' with
    | many_stop => rfl
    | many_next hp => cases ihp hp
  | many_next _ _ ihp ihrest =>
    cases h' with
    | many_stop hp => cases ihp hp
    | many_next hp hrest =>
      cases ihp hp
      cases ihrest hrest
      rfl
  | notAhead _ ihp =>
    cases h' with
    | notAhead => rfl
    | notAhead_fail hp => cases ihp hp
  | notAhead_fail _ ihp =>
    cases h' with
    | notAhead hp => cases ihp hp
    | notAhead_fail => rfl
  | node _ hs ihp =>
    cases h' with
    | node hp hs' =>
      cases ihp hp
      rw [List.append_cancel_right (hs.symm.trans hs')]
    | node_fail hp => cases ihp hp
  | node_fail _ ihp =>
    cases h' with
    | node hp => cases ihp hp
    | node_fail => rfl

/-- What a pattern consumes stands in front of what it leaves. -/
theorem exists_append {ts : List Tree} {s' : List Char} (h : Matches input p s (some (ts, s'))) :
    ∃ text, s = text ++ s' := by
  generalize hr : some (ts, s') = r at h
  induction h generalizing ts s' with
  | start | any_fail => cases hr <;> exact ⟨[], rfl⟩
  | any c s => cases hr; exact ⟨[c], rfl⟩
  | literal text s => cases hr; exact ⟨text, rfl⟩
  | seq _ _ ihp ihq =>
    cases hr
    obtain ⟨text, rfl⟩ := ihp rfl
    obtain ⟨text', rfl⟩ := ihq rfl
    exact ⟨text ++ text', (List.append_assoc _ _ _).symm⟩
  | choice_left _ ihp => exact ihp hr
  | choice_right _ _ _ ihq => exact ihq hr
  | many_stop => cases hr; exact ⟨[], rfl⟩
  | many_next _ _ ihp ihrest =>
    cases hr
    obtain ⟨text, rfl⟩ := ihp rfl
    obtain ⟨text', rfl⟩ := ihrest rfl
    exact ⟨text ++ text', (List.append_assoc _ _ _).symm⟩
  | notAhead => cases hr; exact ⟨[], rfl⟩
  | node _ hs => cases hr; exact ⟨_, hs⟩
  | _ => cases hr

end Matches

/-! ### Unit expressions -/

/-- A separator within a segment, the longer one first. -/
def separator : Pattern :=
  .choice (.literal ['*', '*']) (.choice (.literal ['*']) (.literal ['^']))

/-- A division mark. -/
def divide : Pattern :=
  .literal ['/']

/-- A character that cannot start a separator or a division mark. -/
def tokenChar : Pattern :=
  .seq (.notAhead (.choice separator divide)) .any

/-- The characters up to the next separator or division mark, of which there may be none. -/
def token : Pattern :=
  .node .token (.many tokenChar)

/-- The tokens behind the first one of a segment. -/
def laterTokens : Pattern :=
  .many (.seq separator token)

/-- What stands between two division marks, which has a token at least. -/
def segment : Pattern :=
  .node .segment (.seq token laterTokens)

/-- The segments behind the first one. -/
def laterSegments : Pattern :=
  .many (.seq divide segment)

/-- The end of the input, which leaves a node without text. -/
def finish : Pattern :=
  .node .finish (.notAhead .any)

/-- The root of the grammar: all of the input, as segments between division marks. -/
def unitExpression : Pattern :=
  .node .unitExpression (.seq .start (.seq segment (.seq laterSegments finish)))

open Split (isSeparator scan)

variable {input s : List Char}

/-- A text of one character is in front exactly of the texts that start with it. -/
theorem literal_fail_of_head? {c : Char} {text : List Char} (h : s.head? ≠ some c) :
    Matches input (.literal (c :: text)) s none :=
  .literal_fail fun s' hs ↦ h (by rw [hs]; rfl)

/-- The longer separator is tried first and matches. -/
theorem separator_starStar (s : List Char) :
    Matches input separator ('*' :: '*' :: s) (some ([], s)) :=
  .choice_left (.literal ['*', '*'] s)

/-- A single star is left to the second alternative. -/
theorem separator_star (h : s.head? ≠ some '*') :
    Matches input separator ('*' :: s) (some ([], s)) := by
  have hdouble : Matches input (.literal ['*', '*']) ('*' :: s) none :=
    .literal_fail fun s' hs ↦ h (by rw [(List.cons.inj hs).2]; rfl)
  exact .choice_right hdouble (.choice_left (.literal ['*'] s))

/-- A caret is left to the last alternative. -/
theorem separator_caret (s : List Char) : Matches input separator ('^' :: s) (some ([], s)) :=
  .choice_right (literal_fail_of_head? (by simp))
    (.choice_right (literal_fail_of_head? (by simp)) (.literal ['^'] s))

/-- In front of any other character no separator stands. -/
theorem separator_fail (hstar : s.head? ≠ some '*') (hcaret : s.head? ≠ some '^') :
    Matches input separator s none :=
  .choice_right (literal_fail_of_head? hstar)
    (.choice_right (literal_fail_of_head? hstar) (literal_fail_of_head? hcaret))

/-- A character that starts no separator and no division mark belongs to a token. -/
theorem tokenChar_of_isSeparator_eq_false {c : Char} (h : isSeparator c = false) (s : List Char) :
    Matches input tokenChar (c :: s) (some ([], s)) := by
  simp only [isSeparator, Bool.or_eq_false_iff, beq_eq_false_iff_ne] at h
  have hahead : Matches input (.choice separator divide) (c :: s) none :=
    .choice_right (separator_fail (by simpa using h.1.2) (by simpa using h.2))
      (literal_fail_of_head? (by simpa using h.1.1))
  exact .seq (.notAhead hahead) (.any c s)

/-- A token ends in front of a separator. -/
theorem tokenChar_fail_of_separator {r : List Tree × List Char}
    (h : Matches input separator s (some r)) : Matches input tokenChar s none :=
  .seq_fail_left (.notAhead_fail (.choice_left h))

/-- A token ends in front of a division mark. -/
theorem tokenChar_fail_slash (s : List Char) : Matches input tokenChar ('/' :: s) none :=
  .seq_fail_left (.notAhead_fail
    (.choice_right (separator_fail (by simp) (by simp)) (.literal ['/'] s)))

/-- A token ends with the input. -/
theorem tokenChar_fail_nil : Matches input tokenChar [] none :=
  .seq_fail_right
    (.notAhead (.choice_right (separator_fail (by simp) (by simp))
      (literal_fail_of_head? (by simp))))
    .any_fail

/-- What the grammar finds from a position on is what a scan finds there: the characters that
are left of the current token, behind them the tokens of the same segment, and behind those the
other segments. -/
inductive Parses (input : List Char) : List Char → Split.Scan → Prop
  | mk {s rest s₁ s₂ ts us} (hs : s = rest ++ s₁)
      (hrest : Matches input (.many tokenChar) s (some ([], s₁)))
      (htokens : Matches input laterTokens s₁ (some (ts, s₂)))
      (hsegments : Matches input laterSegments s₂ (some (us, [])))
      (hts : ∀ t ∈ ts, t.rule = .token) (hus : ∀ u ∈ us, u.rule = .segment) :
      Parses input s ⟨rest, ts.map Tree.text, us.map Tree.tokenTexts⟩

namespace Parses

variable {found : Split.Scan}

/-- Where no token can go on and no separator stands, only segments can follow. -/
theorem of_laterSegments {us : List Tree} (hchar : Matches input tokenChar s none)
    (hstar : s.head? ≠ some '*') (hcaret : s.head? ≠ some '^')
    (hsegments : Matches input laterSegments s (some (us, [])))
    (hus : ∀ u ∈ us, u.rule = .segment) : Parses input s ⟨[], [], us.map Tree.tokenTexts⟩ := by
  have htokens : Matches input laterTokens s (some ([], s)) :=
    .many_stop (.seq_fail_left (separator_fail hstar hcaret))
  exact .mk (List.nil_append s).symm (.many_stop hchar) htokens hsegments (by simp) hus

/-- At the end of the input nothing is left, which makes one segment of one empty token. -/
theorem nil : Parses input [] .nil := by
  have hsegments : Matches input laterSegments [] (some ([], [])) :=
    .many_stop (.seq_fail_left (literal_fail_of_head? (by simp)))
  exact of_laterSegments tokenChar_fail_nil (by simp) (by simp) hsegments (by simp)

/-- A character in front of what was found goes to the token that starts there. -/
theorem extend {c : Char} (hc : isSeparator c = false) (h : Parses input s found) :
    Parses input (c :: s) (found.extend c) := by
  obtain ⟨hs, hrest, htokens, hsegments, hts, hus⟩ := h
  exact .mk (congrArg (c :: ·) hs) (.many_next (tokenChar_of_isSeparator_eq_false hc _) hrest)
    htokens hsegments hts hus

/-- Behind a separator a token starts. -/
theorem separate {s' : List Char} (hsep : Matches input separator s' (some ([], s)))
    (h : Parses input s found) : Parses input s' found.separate := by
  obtain @⟨rest, s₁, s₂, ts, us, hs, hrest, htokens, hsegments, hts, hus⟩ := h
  have hfirst : Matches input (.seq separator token) s'
      (some ([⟨.token, rest, []⟩], s₁)) := .seq hsep (.node hrest hs)
  have hmore := Parses.mk (List.nil_append s').symm
    (.many_stop (tokenChar_fail_of_separator hsep))
    (.many_next hfirst htokens) hsegments (List.forall_mem_cons.2 ⟨rfl, hts⟩) hus
  exact hmore

/-- A segment starts at every position, and has the tokens that are found there. -/
theorem exists_segment (h : Parses input s found) :
    ∃ u us s', Matches input segment s (some ([u], s')) ∧
      Matches input laterSegments s' (some (us, [])) ∧ u.rule = .segment ∧
      (∀ v ∈ us, v.rule = .segment) ∧ (u :: us).map Tree.tokenTexts = found.toPieces := by
  obtain @⟨rest, s₁, s₂, ts, us, hs, hrest, htokens, hsegments, hts, hus⟩ := h
  have hbody : Matches input (.seq token laterTokens) s
      (some (⟨.token, rest, []⟩ :: ts, s₂)) := .seq (.node hrest hs) htokens
  obtain ⟨text, htext⟩ := hbody.exists_append
  refine ⟨_, us, s₂, .node hbody htext, hsegments, rfl, hus, ?_⟩
  have hfilter : ts.filter (fun t ↦ t.rule = .token) = ts :=
    List.filter_eq_self.2 fun t ht ↦ decide_eq_true (hts t ht)
  simp [Tree.tokenTexts, Split.Scan.toPieces, hfilter]

/-- Behind a division mark a segment starts, and with it a token. -/
theorem divide (h : Parses input s found) : Parses input ('/' :: s) found.divide := by
  obtain ⟨u, us, s', hsegment, hlater, hu, hus, htexts⟩ := h.exists_segment
  have hmark : Matches input Grammar.divide ('/' :: s) (some ([], s)) := .literal ['/'] s
  have hsegments : Matches input laterSegments ('/' :: s) (some (u :: us, [])) :=
    .many_next (.seq hmark hsegment) hlater
  have hmore := of_laterSegments (tokenChar_fail_slash s) (by simp) (by simp) hsegments
    (List.forall_mem_cons.2 ⟨hu, hus⟩)
  rw [htexts] at hmore
  exact hmore

end Parses

/-- **The grammar finds at every position what the scan finds there.** The induction goes along
the scan, from the end of the input to its start, and adds one character or one separator in
front. -/
theorem parses_scan (input s : List Char) : Parses input s (scan s) := by
  induction s using Split.scan.induct with
  | case1 => exact .nil
  | case2 rest ih =>
    rw [Split.scan_slash]
    exact ih.divide
  | case3 rest ih =>
    rw [Split.scan_starStar]
    exact ih.separate (separator_starStar rest)
  | case4 rest hrest ih =>
    -- two stars are a case of their own, so that no other star follows this one
    have hhead : rest.head? ≠ some '*' := fun hhead ↦ by
      obtain ⟨rest', rfl⟩ := List.head?_eq_some_iff.1 hhead
      exact hrest rest' rfl
    rw [Split.scan_star hhead]
    exact ih.separate (separator_star hhead)
  | case5 rest ih =>
    rw [Split.scan_caret]
    exact ih.separate (separator_caret rest)
  | case6 c rest hslash hstars hstar hcaret ih =>
    have hc : isSeparator c = false := by
      simp only [isSeparator, Bool.or_eq_false_iff, beq_eq_false_iff_ne]
      exact ⟨⟨hslash, hstar⟩, hcaret⟩
    rw [Split.scan_cons hc]
    exact ih.extend hc

/-- **Every text is an expression**, with one parse tree, whose tokens are those of the scan. -/
theorem exists_tree (input : List Char) :
    ∃ tree : Tree, (∀ r, Matches input unitExpression input r ↔ r = some ([tree], [])) ∧
      tree.segmentTexts = (scan input).toPieces := by
  -- the segments cover the input, so that the end of the input follows them
  obtain ⟨u, us, s', hsegment, hlater, hu, hus, htexts⟩ :=
    (parses_scan input input).exists_segment
  have hfinish : Matches input finish [] (some ([⟨.finish, [], []⟩], [])) :=
    .node (.notAhead .any_fail) rfl
  have hroot : Matches input unitExpression input
      (some ([⟨.unitExpression, input, u :: (us ++ [⟨.finish, [], []⟩])⟩], [])) :=
    .node (.seq .start (.seq hsegment (.seq hlater hfinish))) (List.append_nil input).symm
  refine ⟨_, fun r ↦ ⟨fun h ↦ h.unique hroot, fun h ↦ h ▸ hroot⟩, ?_⟩
  have hfilter : us.filter (fun t ↦ t.rule = .segment) = us :=
    List.filter_eq_self.2 fun t ht ↦ decide_eq_true (hus t ht)
  rw [← htexts]
  simp [Tree.segmentTexts, hfilter, hu]

end Grammar

end DimensionalAnalysis
