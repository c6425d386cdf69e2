import DimensionalAnalysis.Proofs.Json.Numerals
import DimensionalAnalysis.Proofs.Json.Strings

/-!
# Values read back from JSON

What is written is read as it was (`read_chars`), whatever is nested in it, as long as its numbers
are numerals and its strings and names consist of characters (`IsWritable`).

A value inside another one is followed by a comma, a bracket or a brace, none of which continues a
numeral. So the induction is about values in front of any rest that does not (`ReadsBack`). The
fuel goes down by one with each value that is opened and with each item that is passed, and twice
the length of the text is always enough for that.
-/

namespace DimensionalAnalysis.Json

/-- The numbers in the value are numerals, and its strings and names consist of characters.

A number that is no numeral has no text that could be read, and a surrogate without a partner is
written as some other character. Nothing else can go wrong, since the names of an object may be
repeated. -/
inductive IsWritable : Json → Prop
  | null : IsWritable null
  | bool (b : Bool) : IsWritable (bool b)
  | number {numeral : List Char} (h : IsNumeral numeral) : IsWritable (number numeral)
  | string (s : String) : IsWritable (ofString s)
  | array {items : List Json} (h : ∀ item ∈ items, IsWritable item) : IsWritable (array items)
  | object {members : List (List ℕ × Json)}
      (hnames : ∀ member ∈ members, ∃ name, member.1 = pointsOf name)
      (h : ∀ member ∈ members, IsWritable member.2) : IsWritable (object members)

/-- What is written for a number is a numeral or null. -/
theorem isWritable_ofNumber (format : LawfulFormat) (x : Float) :
    (ofNumber format x).IsWritable := by
  rw [ofNumber]
  split
  · exact .number (format.isNumeral_write ‹_›)
  · exact .null

/-- An object of named members is writable if their values are. -/
theorem isWritable_ofMembers {members : List (String × Json)}
    (h : ∀ member ∈ members, member.2.IsWritable) : (ofMembers members).IsWritable := by
  refine .object (fun member hmember ↦ ?_) fun member hmember ↦ ?_
  all_goals obtain ⟨⟨name, value⟩, hmem, rfl⟩ := List.mem_map.1 hmember
  · exact ⟨name, rfl⟩
  · exact h _ hmem

/-- The value is read from its text, in front of whatever does not continue a numeral. -/
def ReadsBack (value : Json) : Prop :=
  ∀ ⦃f rest⦄, 2 * (chars value).length ≤ f + 1 → EndsNumeral rest →
    readValue (f + 1) (chars value ++ rest) = some (value, rest)

/-! ### What values start and end with -/

/-- A character that is not blank is not skipped. -/
theorem skipSpace_cons {c : Char} (hc : isSpace c = false) (text : List Char) :
    skipSpace (c :: text) = c :: text := by
  simp [skipSpace, hc]

/-- Numerals do not start with a blank. -/
theorem isSpace_of_startsNumeral {c : Char} (hc : c = '-' ∨ c.isDigit) : isSpace c = false := by
  by_contra hspace
  simp only [isSpace, Bool.not_eq_false, Bool.or_eq_true, beq_iff_eq] at hspace
  rcases hspace with ((rfl | rfl) | rfl) | rfl <;> simp at hc

/-- No value starts with a blank or with the bracket that closes an array. -/
theorem IsWritable.exists_chars_eq {value : Json} (h : value.IsWritable) :
    ∃ c text, chars value = c :: text ∧ isSpace c = false ∧ c ≠ ']' := by
  cases h with
  | null => exact ⟨_, _, rfl, rfl, by decide⟩
  | bool b => cases b <;> exact ⟨_, _, rfl, rfl, by decide⟩
  | number h =>
    obtain ⟨c, text, rfl, hc⟩ := h.exists_cons
    refine ⟨c, text, rfl, isSpace_of_startsNumeral hc, ?_⟩
    rintro rfl
    simp at hc
  | string s => exact ⟨_, _, rfl, rfl, by decide⟩
  | array h => exact ⟨_, _, rfl, rfl, by decide⟩
  | object hnames h => exact ⟨_, _, rfl, rfl, by decide⟩

/-- Nothing that stands behind a value inside another one continues a numeral. -/
theorem endsNumeral_cons {c : Char} (hc : c ∈ [',', ']', '}']) (rest : List Char) :
    EndsNumeral (c :: rest) := by
  intro c' hc'
  obtain rfl : c = c' := by simpa using hc'
  simp only [List.mem_cons, List.not_mem_nil, or_false] at hc
  rcases hc with rfl | rfl | rfl <;> decide

section Reading

variable {f : ℕ} {rest : List Char}

/-! ### Numbers and strings -/

/-- A numeral is read as a number with the text of the numeral, not with its value. The value is up
to the number format. -/
theorem readValue_number {numeral : List Char} (h : IsNumeral numeral)
    (hrest : EndsNumeral rest) :
    readValue (f + 1) (numeral ++ rest) = some (number numeral, rest) := by
  have hread := readNumeral_append h hrest
  obtain ⟨c, text, rfl, hc⟩ := h.exists_cons
  rw [List.cons_append] at hread ⊢
  rw [readValue, skipSpace_cons (isSpace_of_startsNumeral hc)]
  -- no other value starts with a minus or a digit
  split
  all_goals first
    | (rename_i heq; obtain rfl := (List.cons.inj heq).1; simp at hc)
    | simp [hread]

/-- A string between quotes is read as that string. -/
theorem readValue_string (s : String) :
    readValue (f + 1) (stringText (pointsOf s) ++ rest) = some (ofString s, rest) := by
  rw [stringText, List.append_assoc, List.cons_append, readValue, skipSpace_cons rfl]
  simp [readString_pointsOf, ofString]

/-! ### Items -/

variable {item : Json} {items : List Json} {text more : List Char}

/-- The only item that is left is written in front of the bracket. -/
theorem itemChars_singleton (item : Json) : itemChars [item] = chars item ++ [']'] :=
  rfl

/-- Any other item is followed by a comma and by the items behind it. -/
theorem itemChars_cons (item next : Json) (items : List Json) :
    itemChars (item :: next :: items) = chars item ++ ',' :: itemChars (next :: items) :=
  rfl

/-- Items start as the first of them does. -/
theorem exists_itemChars_eq (h : item.IsWritable) (items : List Json) :
    ∃ c text, itemChars (item :: items) = c :: text ∧ isSpace c = false ∧ c ≠ ']' := by
  obtain ⟨c, text, htext, hc⟩ := h.exists_chars_eq
  rcases items with - | ⟨next, items⟩
  · exact ⟨c, text ++ [']'], by rw [itemChars_singleton, htext, List.cons_append], hc⟩
  · exact ⟨c, text ++ ',' :: itemChars (next :: items),
      by rw [itemChars_cons, htext, List.cons_append], hc⟩

/-- The last item of an array is followed by the bracket that closes the array. -/
theorem readItems_last (h : readValue f (text ++ ']' :: rest) = some (item, ']' :: rest)) :
    readItems (f + 1) (text ++ ']' :: rest) = some ([item], rest) := by
  rw [readItems, h]
  rfl

/-- Any other item is followed by a comma, and the items behind it are read with the same fuel as
the item. -/
theorem readItems_cons (h : readValue f (text ++ ',' :: more) = some (item, ',' :: more))
    (hmore : readItems f more = some (items, rest)) :
    readItems (f + 1) (text ++ ',' :: more) = some (item :: items, rest) := by
  rw [readItems, h]
  simp [skipSpace_cons (c := ',') rfl, hmore]

/-- Items are read up to the bracket behind them. -/
theorem readItems_append (hne : items ≠ []) (h : ∀ item ∈ items, item.ReadsBack)
    (hf : 2 * (itemChars items).length ≤ f + 1) :
    readItems (f + 1) (itemChars items ++ rest) = some (items, rest) := by
  induction items generalizing f with
  | nil => exact absurd rfl hne
  | cons item items ih =>
    obtain ⟨hitem, hitems⟩ := List.forall_mem_cons.1 h
    rcases items with - | ⟨next, items⟩
    · rw [itemChars_singleton, List.length_append, List.length_singleton] at hf
      obtain ⟨f, rfl⟩ : ∃ g, f = g + 1 := ⟨f - 1, by omega⟩
      rw [itemChars_singleton, List.append_assoc, List.singleton_append]
      exact readItems_last (hitem (by omega) (endsNumeral_cons (by simp) rest))
    · rw [itemChars_cons, List.length_append, List.length_cons] at hf
      obtain ⟨f, rfl⟩ : ∃ g, f = g + 1 := ⟨f - 1, by omega⟩
      rw [itemChars_cons, List.append_assoc, List.cons_append]
      exact readItems_cons (hitem (by omega) (endsNumeral_cons (by simp) _))
        (ih (List.cons_ne_nil _ _) hitems (by omega))

/-! ### Members -/

variable {value : Json} {members : List (List ℕ × Json)}

/-- The only member that is left is written in front of the brace. -/
theorem memberChars_singleton (points : List ℕ) (value : Json) :
    memberChars [(points, value)] = stringText points ++ ':' :: (chars value ++ ['}']) := by
  rw [memberChars, List.append_assoc, List.cons_append]

/-- Any other member is followed by a comma and by the members behind it. -/
theorem memberChars_cons (points : List ℕ) (value : Json) (next : List ℕ × Json)
    (members : List (List ℕ × Json)) :
    memberChars ((points, value) :: next :: members) =
      stringText points ++ ':' :: (chars value ++ ',' :: memberChars (next :: members)) := by
  rw [memberChars, List.append_assoc, List.cons_append]
  simp

/-- Members start with the quote of a name. -/
theorem exists_memberChars_eq (hne : members ≠ []) :
    ∃ text, memberChars members = '\"' :: text := by
  obtain ⟨⟨points, value⟩, members, rfl⟩ := List.exists_cons_of_ne_nil hne
  cases members <;> exact ⟨_, rfl⟩

/-- The name of a member is read, and what is left is its value and what comes behind it. -/
theorem readMembers_name (name : String) (text : List Char) :
    readMembers (f + 1) (stringText (pointsOf name) ++ ':' :: text) = (do
      let (value, rest) ← readValue f text
      match skipSpace rest with
      | '}' :: rest => pure ([(pointsOf name, value)], rest)
      | ',' :: rest =>
        let (members, rest) ← readMembers f rest
        pure ((pointsOf name, value) :: members, rest)
      | _ => none) := by
  rw [stringText, List.append_assoc, List.cons_append, readMembers, skipSpace_cons rfl]
  simp only [List.cons_append, List.nil_append, readString_pointsOf]
  rfl

/-- The last member of an object is followed by the brace that closes the object. -/
theorem readMembers_last (name : String)
    (h : readValue f (text ++ '}' :: rest) = some (value, '}' :: rest)) :
    readMembers (f + 1) (stringText (pointsOf name) ++ ':' :: (text ++ '}' :: rest)) =
      some ([(pointsOf name, value)], rest) := by
  rw [readMembers_name, h]
  rfl

/-- Any other member is followed by a comma, and the members behind it are read with the same fuel
as its value. -/
theorem readMembers_cons (name : String)
    (h : readValue f (text ++ ',' :: more) = some (value, ',' :: more))
    (hmore : readMembers f more = some (members, rest)) :
    readMembers (f + 1) (stringText (pointsOf name) ++ ':' :: (text ++ ',' :: more)) =
      some ((pointsOf name, value) :: members, rest) := by
  rw [readMembers_name, h]
  simp [skipSpace_cons (c := ',') rfl, hmore]

/-- Members are read up to the brace behind them. -/
theorem readMembers_append (hne : members ≠ [])
    (hnames : ∀ member ∈ members, ∃ name, member.1 = pointsOf name)
    (h : ∀ member ∈ members, member.2.ReadsBack) (hf : 2 * (memberChars members).length ≤ f + 1) :
    readMembers (f + 1) (memberChars members ++ rest) = some (members, rest) := by
  induction members generalizing f with
  | nil => exact absurd rfl hne
  | cons member members ih =>
    obtain ⟨points, value⟩ := member
    rw [List.forall_mem_cons] at hnames h
    obtain ⟨⟨name, hname⟩, hnames⟩ := hnames
    obtain ⟨hvalue, hmembers⟩ := h
    obtain rfl : points = pointsOf name := hname
    change value.ReadsBack at hvalue
    rcases members with - | ⟨next, members⟩
    · rw [memberChars_singleton, List.length_append, List.length_cons, List.length_append] at hf
      obtain ⟨f, rfl⟩ : ∃ g, f = g + 1 := ⟨f - 1, by omega⟩
      rw [memberChars_singleton, List.append_assoc, List.cons_append, List.append_assoc]
      exact readMembers_last name (hvalue (by omega) (endsNumeral_cons (by simp) rest))
    · rw [memberChars_cons, List.length_append, List.length_cons, List.length_append,
        List.length_cons] at hf
      obtain ⟨f, rfl⟩ : ∃ g, f = g + 1 := ⟨f - 1, by omega⟩
      rw [memberChars_cons, List.append_assoc, List.cons_append, List.append_assoc]
      exact readMembers_cons name (hvalue (by omega) (endsNumeral_cons (by simp) _))
        (ih (List.cons_ne_nil _ _) hnames hmembers (by omega))

/-! ### Arrays and objects -/

/-- An array that does not close at once is read as its items are. -/
theorem readValue_items {c : Char} (hspace : isSpace c = false) (hclose : c ≠ ']')
    (h : readItems f (c :: text) = some (items, rest)) :
    readValue (f + 1) ('[' :: c :: text) = some (array items, rest) := by
  rw [readValue, skipSpace_cons rfl]
  simp [skipSpace_cons hspace, hclose, h]

/-- An object that does not close at once is read as its members are. -/
theorem readValue_members (h : readMembers f ('\"' :: text) = some (members, rest)) :
    readValue (f + 1) ('{' :: '\"' :: text) = some (object members, rest) := by
  rw [readValue, skipSpace_cons rfl]
  simp [skipSpace_cons (c := '\"') rfl, h]

end Reading

/-- An array is read back if its items are. -/
theorem readsBack_array {items : List Json} (hwritable : ∀ item ∈ items, item.IsWritable)
    (h : ∀ item ∈ items, item.ReadsBack) : (array items).ReadsBack := by
  intro f rest hf _
  rw [chars, List.length_cons] at hf
  obtain ⟨f, rfl⟩ : ∃ g, f = g + 1 := ⟨f - 1, by omega⟩
  rw [chars, List.cons_append]
  rcases items with - | ⟨item, items⟩
  · rfl
  · have hread : readItems (f + 1) (itemChars (item :: items) ++ rest) =
        some (item :: items, rest) := readItems_append (List.cons_ne_nil _ _) h (by omega)
    -- the reader looks for the closing bracket first, and finds an item instead
    obtain ⟨c, text, htext, hspace, hclose⟩ :=
      exists_itemChars_eq (hwritable item List.mem_cons_self) items
    rw [htext] at hread ⊢
    exact readValue_items hspace hclose hread

/-- An object is read back if the values of its members are. -/
theorem readsBack_object {members : List (List ℕ × Json)}
    (hnames : ∀ member ∈ members, ∃ name, member.1 = pointsOf name)
    (h : ∀ member ∈ members, member.2.ReadsBack) : (object members).ReadsBack := by
  intro f rest hf _
  rw [chars, List.length_cons] at hf
  obtain ⟨f, rfl⟩ : ∃ g, f = g + 1 := ⟨f - 1, by omega⟩
  rw [chars, List.cons_append]
  rcases eq_or_ne members [] with rfl | hne
  · rfl
  · have hread : readMembers (f + 1) (memberChars members ++ rest) = some (members, rest) :=
      readMembers_append hne hnames h (by omega)
    obtain ⟨text, htext⟩ := exists_memberChars_eq hne
    rw [htext] at hread ⊢
    exact readValue_members hread

/-- **Values are read back** from their texts, wherever these stand. -/
theorem IsWritable.readsBack {value : Json} (h : value.IsWritable) : value.ReadsBack := by
  induction h with
  | null => exact fun _ _ _ _ ↦ rfl
  | bool b =>
    cases b
    · exact fun _ _ _ _ ↦ rfl
    · exact fun _ _ _ _ ↦ rfl
  | number h => exact fun _ _ _ hrest ↦ readValue_number h hrest
  | string s => exact fun _ _ _ _ ↦ readValue_string s
  | array hitems ih => exact readsBack_array hitems ih
  | object hnames _ ih => exact readsBack_object hnames ih

/-- **What is written is read as it was**, up to its end. The names of members keep their order,
and a name that occurs twice is read twice. -/
theorem read_chars {value : Json} (h : value.IsWritable) :
    read (chars value) = some (value, []) := by
  have hread : readValue (2 * (chars value).length + 2) (chars value ++ []) = some (value, []) :=
    h.readsBack (by omega) (by simp [EndsNumeral])
  rwa [List.append_nil] at hread

end DimensionalAnalysis.Json
