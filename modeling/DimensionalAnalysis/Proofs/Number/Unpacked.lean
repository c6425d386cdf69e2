import Mathlib

/-!
# Doubles as sign, significand and exponent

Core computes on doubles by unpacking their bits, and packs each result again. Packing and
unpacking are inverse to one another: `pack_unpack` on all doubles, and `unpack_pack` on the
unpacked forms that are **canonical**, which is what unpacking gives (`canonical_unpack`). Hence
a double is its unpacked form, and a canonical result of a computation is the double it is
packed into.

An unpacked form that is not canonical is packed as well. Beyond the range of exponents it
becomes an infinity (`unpack_pack_of_lt_exponent`), and in every case the sign is handled apart
from the rest, so that the negative of a form is packed as the negative of the double
(`unpack_pack_neg`).
-/

namespace DimensionalAnalysis.Number

open Float.Model (Format UnpackedFloat)
open Float.Model.UnpackedFloat

/-- Significands and exponents of the nonzero finite doubles: the significand has all of its
53 bits unless the exponent is the smallest one. -/
structure Canonical (m : Nat) (e : Int) : Prop where
  pos : 0 < m
  lt : m < 2 ^ 53
  minExponent_le : -1074 ≤ e
  le_maxExponent : e ≤ 971
  normal : 2 ^ 52 ≤ m ∨ e = -1074

/-- An unpacked form as unpacking gives it. -/
def IsCanonical : UnpackedFloat → Prop
  | .finite _ m e _ => Canonical m e
  | _ => True

/-! ### Components -/

section Components

variable (s : Sign) (x : BitVec 11) (m : BitVec 52)

/-- Reading the bit of a sign gives the sign. -/
@[simp]
theorem ofBitVec_toBitVec : Sign.ofBitVec s.toBitVec = s := by
  cases s <;> rfl

/-- Writing the sign that a bit stands for gives the bit. -/
@[simp]
theorem toBitVec_ofBitVec (v : BitVec 1) : (Sign.ofBitVec v).toBitVec = v := by
  revert v
  decide

/-- The sign is the first bit. Core has this for exponents and significands but not for signs.
-/
@[simp]
theorem unpackSign_packComponents {spec : Format} {sign : Sign}
    {exponent : BitVec spec.exponentBits} {mantissa : BitVec spec.mantissaBitsWithoutImplicit} :
    unpackSign (packComponents spec sign exponent mantissa) = sign.toBitVec := by
  refine BitVec.eq_of_getElem_eq fun i hi ↦ ?_
  obtain rfl : i = 0 := by omega
  simp [unpackSign, packComponents, BitVec.getLsbD_append, BitVec.getLsbD_eq_getElem,
    BitVec.getElem_append]

/-- Any 64 bits are the three fields that they are cut into. -/
theorem packComponents_unpack (b : BitVec 64) :
    packComponents Format.binary64 (Sign.ofBitVec (@unpackSign Format.binary64 b))
      (@unpackExponent Format.binary64 b) (@unpackMantissa Format.binary64 b) = b := by
  refine BitVec.eq_of_getElem_eq fun i hi ↦ ?_
  rw [packComponents, toBitVec_ofBitVec]
  simp only [unpackSign, unpackExponent, unpackMantissa, BitVec.extractLsb]
  grind

/-- The leading bit that a normal double does not store counts `2 ^ 52`. -/
theorem toNat_one_append : (1#1 ++ m).toNat = 2 ^ 52 + m.toNat := by
  rw [BitVec.toNat_append, ← Nat.shiftLeft_add_eq_or_of_lt m.isLt]
  rfl

/-- The form of a double by its three fields. All ones in the exponent are an infinity or a NaN,
all zeros a zero or a subnormal double, and anything else a normal double with the leading bit
restored. -/
theorem unpack_packComponents :
    unpack Format.binary64 (packComponents Format.binary64 s x m) =
      if x = -1#11 then if m = 0#52 then .infinity s else .notANumber
      else if x = 0#11 then
        if h : m = 0#52 then .zero s
        else .finite s m.toNat (-1074) (by simpa [BitVec.toNat_pos, BitVec.pos_iff_ne_zero])
      else .finite s (2 ^ 52 + m.toNat) (x.toNat - 1075) (by omega) := by
  unfold unpack
  simp only [unpackSign_packComponents, unpackExponent_packComponents,
    unpackMantissa_packComponents, ofBitVec_toBitVec]
  split
  · rfl
  · split
    · split
      · rfl
      · subst x
        rfl
    · congr 1
      exact toNat_one_append m

end Components

/-! ### Finite doubles -/

section Finite

variable {s : Sign} {m : Nat} {e : Int}

/-- A significand has at most 53 bits. -/
theorem Canonical.log2_lt (h : Canonical m e) : m.log2 < 53 :=
  (Nat.log2_lt h.pos.ne').2 h.lt

/-- A normal double is packed without its leading bit, and with the exponent shifted to be
positive. -/
theorem pack_normal (h : Canonical m e) (hm : 2 ^ 52 ≤ m) :
    pack Format.binary64 (.finite s m e h.pos) =
      packComponents Format.binary64 s (BitVec.ofNat 11 (e + 1075).toNat) (BitVec.ofNat 52 m) := by
  have hlog : m.log2 = 52 := by
    have := (Nat.le_log2 h.pos.ne').2 hm
    have := h.log2_lt
    omega
  have hexp : e + 1023 + 52 = e + 1075 := by omega
  have hlow := h.minExponent_le
  have hhigh := h.le_maxExponent
  simp only [pack, Format.exponentBias, Format.mantissaBits, hlog]
  norm_num
  rw [hexp, if_neg (by omega)]

/-- A subnormal double is packed with its significand as it is and a zero for the exponent. -/
theorem pack_subnormal (hpos : 0 < m) (hm : m < 2 ^ 52) :
    pack Format.binary64 (.finite s m (-1074) hpos) =
      packComponents Format.binary64 s 0#11 (BitVec.ofNat 52 m) := by
  have hlog : m.log2 < 52 := (Nat.log2_lt hpos.ne').2 hm
  simp only [pack, Format.exponentBias, Format.mantissaBits]
  norm_num
  omega

/-- A finite canonical form comes back. The fields of normal and of subnormal doubles are told
apart by the exponent alone, which is why the two cases need that it is neither all ones nor
zero, and that the significand is not zero, respectively. -/
theorem unpack_pack_finite (h : Canonical m e) :
    unpack Format.binary64 (pack Format.binary64 (.finite s m e h.pos)) = .finite s m e h.pos := by
  have hlow := h.minExponent_le
  have hhigh := h.le_maxExponent
  by_cases hm : 2 ^ 52 ≤ m
  · -- a normal double: the exponent field is neither all ones nor zero
    rw [pack_normal h hm, unpack_packComponents]
    have hx : (BitVec.ofNat 11 (e + 1075).toNat).toNat = (e + 1075).toNat := by
      rw [BitVec.toNat_ofNat, Nat.mod_eq_of_lt (by omega)]
    have hones : BitVec.ofNat 11 (e + 1075).toNat ≠ -1#11 := by
      intro heq
      have := congrArg BitVec.toNat heq
      rw [hx] at this
      have : (e + 1075).toNat = 2047 := this
      omega
    have hzero : BitVec.ofNat 11 (e + 1075).toNat ≠ 0#11 := by
      intro heq
      have := congrArg BitVec.toNat heq
      rw [hx] at this
      have : (e + 1075).toNat = 0 := this
      omega
    have hmant : 2 ^ 52 + (BitVec.ofNat 52 m).toNat = m := by
      have := h.lt
      rw [BitVec.toNat_ofNat]
      omega
    rw [if_neg hones, if_neg hzero]
    congr 1
    omega
  · -- a subnormal double: the exponent field is zero and the significand is not
    obtain rfl : e = -1074 := h.normal.resolve_left hm
    have hmant : (BitVec.ofNat 52 m).toNat = m := by
      rw [BitVec.toNat_ofNat, Nat.mod_eq_of_lt (by omega)]
    have hzero : BitVec.ofNat 52 m ≠ 0#52 := by
      intro heq
      have := congrArg BitVec.toNat heq
      rw [hmant] at this
      exact h.pos.ne' this
    rw [pack_subnormal h.pos (by omega), unpack_packComponents, if_neg (by decide), if_pos rfl,
      dif_neg hzero]
    congr 1

end Finite

/-! ### Packing and unpacking -/

/-- What a double unpacks into is canonical, and packs into the same bits.

Both are shown in one pass over the fields of the bits, as they need the same cases. That the
bits are those of a double is used for a NaN only: of all bit patterns that stand for one, a
double has the one that packing produces. -/
theorem unpack_spec (f : Float.Model) :
    IsCanonical f.unpack ∧ pack Format.binary64 f.unpack = f.toBits.toBitVec := by
  have hvalid := f.valid.eq_packedNaN
  unfold Float.Model.unpack
  generalize f.toBits.toBitVec = b at hvalid
  obtain ⟨s, x, m, rfl⟩ : ∃ (s : Sign) (x : BitVec 11) (m : BitVec 52), b =
      packComponents Format.binary64 s x m := ⟨_, _, _, (packComponents_unpack b).symm⟩
  simp only [unpackExponent_packComponents, unpackMantissa_packComponents] at hvalid
  rw [unpack_packComponents]
  -- the exponent field is all ones, zero or in between; only a NaN needs the bits to be valid
  split
  · subst x
    split
    · subst m
      exact ⟨trivial, rfl⟩
    · exact ⟨trivial, (hvalid rfl ‹_›).symm⟩
  · split
    · subst x
      split
      · subst m
        exact ⟨trivial, rfl⟩
      · rename_i hm
        have hpos : 0 < m.toNat := by simpa [BitVec.toNat_pos, BitVec.pos_iff_ne_zero]
        refine ⟨⟨hpos, by omega, by omega, by omega, .inr rfl⟩, ?_⟩
        rw [pack_subnormal hpos m.isLt, BitVec.ofNat_toNat, BitVec.setWidth_eq]
    · rename_i hones hzero
      have hne : x.toNat ≠ 2047 := fun h ↦ hones (BitVec.eq_of_toNat_eq h)
      have hne' : x.toNat ≠ 0 := fun h ↦ hzero (BitVec.eq_of_toNat_eq h)
      have hcanonical : Canonical (2 ^ 52 + m.toNat) (x.toNat - 1075) :=
        ⟨by omega, by omega, by omega, by omega, .inl (by omega)⟩
      refine ⟨hcanonical, ?_⟩
      rw [pack_normal hcanonical (by omega)]
      congr 1
      · refine BitVec.eq_of_toNat_eq ?_
        rw [BitVec.toNat_ofNat]
        omega
      · refine BitVec.eq_of_toNat_eq ?_
        rw [BitVec.toNat_ofNat]
        omega

/-- Unpacking gives canonical forms only. -/
theorem canonical_unpack (f : Float.Model) : IsCanonical f.unpack :=
  (unpack_spec f).1

/-- Packing what was unpacked gives the double back. -/
theorem pack_unpack (f : Float.Model) : Float.Model.pack f.unpack = f := by
  obtain ⟨bits, valid⟩ := f
  simp only [Float.Model.pack, (unpack_spec ⟨bits, valid⟩).2]

/-- Unpacking what was packed gives the canonical form back. -/
theorem unpack_pack {u : UnpackedFloat} (h : IsCanonical u) : (Float.Model.pack u).unpack = u := by
  show unpack Format.binary64 (pack Format.binary64 u) = u
  cases u with
  | infinity s => cases s <;> rfl
  | notANumber => rfl
  | zero s => cases s <;> rfl
  | finite s m e hm => exact unpack_pack_finite h

/-- A form beyond the range of exponents is packed as an infinity. -/
theorem unpack_pack_of_lt_exponent {s : Sign} {m : Nat} {e : Int} (hm : 0 < m) (he : 971 < e) :
    (Float.Model.pack (.finite s m e hm)).unpack = .infinity s := by
  have hpack : pack Format.binary64 (.finite s m e hm) = pack Format.binary64 (.infinity s) := by
    have hbias : Format.binary64.exponentBias = 1023 := rfl
    have hmantissa : Format.binary64.mantissaBitsWithoutImplicit = 52 := rfl
    have hbits : Format.binary64.exponentBits = 11 := rfl
    rw [pack, pack]
    refine if_pos ?_
    rw [hbias, hmantissa, hbits]
    omega
  have heq : Float.Model.pack (.finite s m e hm) = .pack (.infinity s) := by
    simp only [Float.Model.pack, hpack]
  rw [heq]
  exact unpack_pack trivial

/-- A sign is packed as it is, so that the opposite one is unpacked as the opposite. -/
theorem unpack_packComponents_neg (s : Sign) (x : BitVec 11) (m : BitVec 52) :
    unpack Format.binary64 (packComponents Format.binary64 (-s) x m) =
      (unpack Format.binary64 (packComponents Format.binary64 s x m)).neg := by
  rw [unpack_packComponents, unpack_packComponents]
  split_ifs <;> rfl

/-- Packing the negative of a form, canonical or not, gives the negative of what is packed. -/
theorem unpack_pack_neg (u : UnpackedFloat) :
    (Float.Model.pack u.neg).unpack = (Float.Model.pack u).unpack.neg := by
  cases u with
  | infinity s => cases s <;> rfl
  | notANumber => rfl
  | zero s => cases s <;> rfl
  | finite s m e hm =>
    show unpack Format.binary64 (pack Format.binary64 (.finite (-s) m e hm)) =
      (unpack Format.binary64 (pack Format.binary64 (.finite s m e hm))).neg
    simp only [pack]
    -- beyond the range of exponents, with all bits of a significand, or with fewer
    split_ifs <;> exact unpack_packComponents_neg s _ _

/-- A double is its unpacked form. -/
theorem unpack_injective {f g : Float.Model} (h : f.unpack = g.unpack) : f = g := by
  rw [← pack_unpack f, h, pack_unpack]

end DimensionalAnalysis.Number
