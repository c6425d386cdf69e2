import DimensionalAnalysis.Proofs.Quantity.Assignment
import DimensionalAnalysis.Proofs.Quantity.Faults

/-!
# Untyped quantities

An expression without any symbol is not a unit, and whoever sets it makes the quantity untyped.
A unit text should therefore **have a symbol**. Arithmetic keeps this, since it only adds terms
and turns them over, and so does reading back, which sets the unit anew.

A conversion is the exception. It takes the target for a unit whatever it is, so that a
dimensionless unit such as `m/m` may be converted to the empty text. This is the only way to a unit
without a symbol, and such a unit is lost when the quantity is read back
(`Quantity.hasSymbol_run_iff`).
-/

namespace DimensionalAnalysis

/-- The text reads, and has a symbol. A text of exponents alone does not read, so what has no
symbol has no terms at all. -/
def Measure.HasSymbol (m : Measure) : Prop :=
  ∃ e, Expression.ofString m.text = .ok e ∧ e.isEmpty = false

/-- The unit text has a symbol, if there is a unit. -/
def Quantity.HasSymbol (q : Quantity) : Prop :=
  ∀ m, q.measure = some m → m.HasSymbol

/-! ### Expressions that are not empty -/

namespace Expression

/-- A product is empty if both of its factors are. -/
theorem isEmpty_product (e f : Expression) : (e.product f).isEmpty = (e.isEmpty && f.isEmpty) := by
  rw [Bool.eq_iff_iff]
  simp only [isEmpty, product, Bool.and_eq_true, List.isEmpty_iff, List.append_eq_nil_iff]
  tauto

/-- So is a quotient. -/
theorem isEmpty_quotient (e f : Expression) :
    (e.quotient f).isEmpty = (e.isEmpty && f.isEmpty) := by
  rw [Bool.eq_iff_iff]
  simp only [isEmpty, quotient, Bool.and_eq_true, List.isEmpty_iff, List.append_eq_nil_iff]
  tauto

/-- An inverse is empty if what is inverted is. -/
theorem isEmpty_inverted (e : Expression) : e.inverted.isEmpty = e.isEmpty := by
  rw [inverted]
  split
  · rename_i h
    simp [isEmpty, h]
  · exact Bool.and_comm _ _

/-- Reading back makes one term or two of each, and never none. -/
theorem isEmpty_reread (e : Expression) : e.reread.isEmpty = e.isEmpty := by
  have hreread : ∀ t : Term, t.reread ≠ [] := by
    intro t
    rw [Term.reread]
    repeat' split
    all_goals simp
  have hside : ∀ ts : List Term, (ts.flatMap Term.reread).isEmpty = ts.isEmpty := by
    intro ts
    cases ts <;> simp [hreread]
  rw [isEmpty, reread, hside, hside, isEmpty]

/-- Arithmetic adds terms and turns them over. -/
theorem isClosed_isEmpty : IsClosed fun e ↦ e.isEmpty = false where
  product he _ := by rw [isEmpty_product, he, Bool.false_and]
  quotient he _ := by rw [isEmpty_quotient, he, Bool.false_and]
  inverted he := by rw [isEmpty_inverted, he]
  reread he := by rw [isEmpty_reread, he]

end Expression

/-- A measure has the symbols of the expression that it was resolved from. -/
theorem Measure.hasSymbol_iff_of_ofString {m : Measure} {s : String} {e : Expression}
    (h : ofString (Text.trimmed s) = .ok m) (he : Expression.ofString s = .ok e) :
    m.HasSymbol ↔ e.isEmpty = false := by
  simp [HasSymbol, ofString_of_ofString_trimmed h he]

/-! ### Setting units -/

namespace Quantity

variable {q r : Quantity} {s : String}

/-- What setting a unit does: an expression without any symbol takes the unit away. -/
theorem setUnit_eq_ok (h : q.setUnit s = .ok r) :
    ∃ e, Expression.ofString s = .ok e ∧ r.isUntyped = e.isEmpty ∧ r.HasSymbol := by
  rw [setUnit_eq] at h
  obtain ⟨e, he, h⟩ := bind_eq_ok_iff.1 h
  obtain ⟨t, -, h⟩ := bind_eq_ok_iff.1 h
  obtain rfl := Except.ok.inj h
  refine ⟨e, he, ?_⟩
  cases hempty : e.isEmpty with
  | true => exact ⟨rfl, fun m hm ↦ by simp at hm⟩
  | false =>
    refine ⟨rfl, fun m hm ↦ ?_⟩
    obtain rfl := Option.some.inj hm
    exact ⟨e, (Expression.ofString_trimmed s).trans he, hempty⟩

/-- A quantity that is made from parts has its unit set, and so it has no unit without a symbol.
-/
theorem hasSymbol_of_ofParts {x : Float} {unit : Option String} (h : ofParts x unit = .ok r) :
    r.HasSymbol := by
  cases unit with
  | none =>
    obtain rfl := Except.ok.inj h
    exact fun m hm ↦ by simp [untyped] at hm
  | some s =>
    obtain ⟨-, -, -, hsymbol⟩ := setUnit_eq_ok h
    exact hsymbol

/-- A conversion neither gives nor takes a unit. -/
theorem isUntyped_of_convert (h : q.convert s = .ok r) : r.isUntyped = q.isUntyped := by
  rw [convert] at h
  split at h
  · rw [Except.ok.inj h]
  · rename_i m hm
    obtain ⟨n, -, h⟩ := bind_eq_ok_iff.1 h
    obtain ⟨factor, -, h⟩ := bind_eq_ok_iff.1 h
    rw [← Except.ok.inj h, isUntyped, isUntyped, hm]
    rfl

/-- Reading back takes the unit away exactly if it has no symbol. -/
theorem isUntyped_reload_iff (format : Json.LawfulFormat) (h : q.reload format = .ok r) :
    r.isUntyped = q.isUntyped ↔ q.HasSymbol := by
  obtain ⟨-, hx⟩ := (reload_eq_ok_iff format).1 h
  rw [unit?] at hx
  cases hm : q.measure with
  | none =>
    rw [hm] at hx
    obtain rfl := Except.ok.inj hx
    simp [isUntyped, untyped, HasSymbol, hm]
  | some m =>
    rw [hm] at hx
    obtain ⟨e, he, huntyped, -⟩ := setUnit_eq_ok hx
    rw [huntyped, isUntyped, hm]
    simp [HasSymbol, hm, Measure.HasSymbol, he]

end Quantity

/-! ### Runs -/

namespace Command

variable {c : Command} {qs : List Quantity} {r : Quantity}

/-- The command converts a quantity that has a unit to an expression without any symbol. -/
def ConvertsToBlank (qs : List Quantity) (c : Command) : Prop :=
  ∃ i target q r e, c = .convert i target ∧ qs[i]? = some q ∧ q.isUntyped = false ∧
    q.convert target = .ok r ∧ Expression.ofString target = .ok e ∧ e.isEmpty

/-- No other command makes a unit without a symbol. Arithmetic keeps the symbols of the old
units, so that only the commands have to be looked at that supply an expression. -/
theorem hasSymbol_of_result (hqs : ∀ q ∈ qs, q.HasSymbol) (hc : ¬c.ConvertsToBlank qs)
    (h : c.result qs = some r) : r.HasSymbol := by
  intro m hm
  refine Measure.reads_of_yields Expression.isClosed_isEmpty (fun s e hs hread he ↦ ?_)
    (yields_of_result hqs h hm)
  have hsymbol : r.HasSymbol → e.isEmpty = false := fun hr ↦
    (Measure.hasSymbol_iff_of_ofString hread he).1 (hr m hm)
  cases c with
  | withUnit x s =>
    have h : (Quantity.untyped x).setUnit s = .ok r := toOption_eq_some_iff.1 h
    obtain ⟨-, -, -, hr⟩ := Quantity.setUnit_eq_ok h
    exact hsymbol hr
  | setUnit i s =>
    obtain ⟨q, -, h⟩ := Option.bind_eq_some_iff.1 h
    obtain ⟨-, -, -, hr⟩ := Quantity.setUnit_eq_ok (toOption_eq_some_iff.1 h)
    exact hsymbol hr
  | read format text =>
    obtain ⟨_, _, x, unit, -, -, hx⟩ := Quantity.ofText_eq_ok (toOption_eq_some_iff.1 h)
    exact hsymbol (Quantity.hasSymbol_of_ofParts hx)
  | convert i target =>
    obtain ⟨q, hq, h⟩ := Option.bind_eq_some_iff.1 h
    rw [toOption_eq_some_iff] at h
    obtain rfl := Option.some.inj hs
    have htyped : q.isUntyped = false := by
      rw [← Quantity.isUntyped_of_convert h, Quantity.isUntyped, hm, Option.isNone_some]
    by_contra hempty
    rw [Bool.not_eq_false] at hempty
    exact hc ⟨i, target, q, r, e, rfl, hq, htyped, h, he, hempty⟩
  -- the other commands supply no expression
  | _ => simp [expression?] at hs

/-- And such a command does make one. -/
theorem ConvertsToBlank.exists_result (h : c.ConvertsToBlank qs) :
    ∃ r, c.result qs = some r ∧ ¬r.HasSymbol := by
  obtain ⟨i, target, q, r, e, rfl, hq, htyped, hr, he, hempty⟩ := h
  refine ⟨r, by simp [result, hq, hr, Except.toOption], fun hsymbol ↦ ?_⟩
  rw [← Quantity.isUntyped_of_convert hr, Quantity.isUntyped, Option.isNone_eq_false_iff] at htyped
  obtain ⟨m, hm⟩ := Option.isSome_iff_exists.1 htyped
  have := (Measure.hasSymbol_iff_of_ofString (Quantity.ofString_of_convert hr hm) he).1
    (hsymbol m hm)
  simp [hempty] at this

end Command

namespace Quantity

/-- **Conversions to expressions without any symbol are the only way to a unit without one.** In
every run each unit text reads; all of them have a symbol exactly if no command makes such a
conversion; and the quantities whose unit is there after reading back as before are those whose
unit text has a symbol.

Whether a command makes such a conversion depends on the quantities that there are when it is
its turn, which is why the run is split in front of it. -/
theorem hasSymbol_run_iff (cs : List Command) :
    (∀ q ∈ Command.run cs, q.IsReadable) ∧
    ((∀ q ∈ Command.run cs, q.HasSymbol) ↔
      ∀ pre c post, cs = pre ++ c :: post → ¬c.ConvertsToBlank (Command.run pre)) ∧
    ∀ format : Json.LawfulFormat, ∀ q ∈ Command.run cs, ∀ r, q.reload format = .ok r →
      (r.isUntyped = q.isUntyped ↔ q.HasSymbol) := by
  refine ⟨fun _ ↦ isReadable_of_mem_run, ⟨?_, fun h ↦ ?_⟩,
    fun format _ _ _ ↦ isUntyped_reload_iff format⟩
  · -- the quantity that the conversion makes is kept to the end of the run
    rintro h pre c post rfl hblank
    obtain ⟨r, hr, hsymbol⟩ := hblank.exists_result
    exact hsymbol (h r (Command.mem_run_of_result hr))
  · exact Command.forall_mem_run fun pre c post hcs hqs _ ↦
      Command.hasSymbol_of_result hqs (h pre c post hcs)

/-- Metres by metres, converted to the empty text: a unit, and none after reading back. -/
theorem not_hasSymbol_of_mem_run_empty :
    ∃ q ∈ Command.run [.withUnit 1.0 "m/m", .convert 0 ""],
      ∃ m, q.measure = some m ∧ m.text = "" ∧ ¬m.HasSymbol ∧
        ∃ r, q.reload .exact = .ok r ∧ q.isUntyped = false ∧ r.isUntyped = true := by
  obtain ⟨cs, hcs⟩ : ∃ cs : List Command, cs =
    [.withUnit 1.0 "m/m", .convert 0 ""] := ⟨_, rfl⟩
  rw [← hcs]
  have hlast : (Command.run cs)[1]?.any fun q ↦ q.measure.any (·.text = "") &&
      (q.reload .exact).toOption.any Quantity.isUntyped := by
    rw [hcs]
    decide +kernel
  simp only [Option.any_eq_true, Bool.and_eq_true, decide_eq_true_eq] at hlast
  obtain ⟨q, hq, ⟨m, hm, htext⟩, r, hr, huntyped⟩ := hlast
  refine ⟨q, List.mem_of_getElem? hq, m, hm, htext, ?_, r, toOption_eq_some_iff.1 hr,
    by simp [isUntyped, hm], huntyped⟩
  rintro ⟨e, he, hne⟩
  have hempty : Expression.ofString "" = .ok ⟨[], []⟩ := by decide +kernel
  obtain rfl := Except.ok.inj (hempty.symm.trans (htext ▸ he))
  simp [Expression.isEmpty] at hne

end Quantity

end DimensionalAnalysis
