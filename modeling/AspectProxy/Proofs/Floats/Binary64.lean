import AspectProxy.Decimal
import Mathlib.Tactic.Ring

/-!
Finite binary64 values as bits, as parts and as unpacked values. Negation changes the sign of the parts alone, so it leaves
a value finite.
-/

namespace AspectProxy

open Float.Model Float.Model.UnpackedFloat

/-- The parts of a binary64 value: the mantissa has 53 binary digits, or fewer on the least grid. -/
structure Canonical (m : Nat) (e : Int) : Prop where
  pos : 0 < m
  fits : m < 2 ^ 53
  least : -1074 ≤ e
  full : 2 ^ 52 ≤ m ∨ e = -1074

section Fields

variable (b : BitVec Format.binary64.numBits)

/-- A bit pattern is of no number where all bits of its exponent are set. -/
theorem isFinite_unpack : (unpack Format.binary64 b).isFinite = true ↔ unpackExponent b ≠ -1#_ := by
  unfold UnpackedFloat.unpack
  dsimp only
  by_cases special : unpackExponent b = -1#_
  · rw [if_pos special]
    split <;> exact iff_of_false Bool.false_ne_true (· special)
  · rw [if_neg special]
    refine iff_of_true ?_ special
    by_cases small : unpackExponent b = 0#_
    · rw [if_pos small]
      by_cases none : unpackMantissa b = 0#_
      · rw [dif_pos none]
        rfl
      · rw [dif_neg none]
        rfl
    · rw [if_neg small]
      rfl

/-- The number with a magnitude and a sign. -/
def BinaryParts.unpacked (p : BinaryParts) (sign : Sign) : UnpackedFloat :=
  if some : 0 < p.mantissa then .finite sign p.mantissa p.exponent some else .zero sign

/-- The mantissa and the exponent of a bit pattern that is of a number. -/
def partsOf : BinaryParts :=
  if (unpackExponent b).toNat = 0 then ⟨(unpackMantissa b).toNat, -1074⟩
  else ⟨2 ^ 52 + (unpackMantissa b).toNat, (unpackExponent b).toNat - 1075⟩

variable {b}

theorem BinaryParts.unpacked_of_pos {p : BinaryParts} (some : 0 < p.mantissa) (sign : Sign) :
    p.unpacked sign = .finite sign p.mantissa p.exponent some :=
  dif_pos some

theorem BinaryParts.unpacked_of_eq_zero {p : BinaryParts} (none : p.mantissa = 0) (sign : Sign) :
    p.unpacked sign = .zero sign :=
  dif_neg (by omega)

theorem finite_congr {sign : Sign} {m m' : Nat} {e e' : Int} {h : 0 < m} {h' : 0 < m'} (mantissa : m = m')
    (exponent : e = e') : UnpackedFloat.finite sign m e h = .finite sign m' e' h' := by
  subst mantissa exponent
  rfl

theorem unpack_eq (finite : unpackExponent b ≠ -1#_) :
    unpack Format.binary64 b = (partsOf b).unpacked (.ofBitVec (unpackSign b)) := by
  have bias : Format.binary64.exponentBias = 1023 := by decide
  have least : unpackExponent b = 0#_ ↔ (unpackExponent b).toNat = 0 := by
    rw [← BitVec.toNat_inj, BitVec.toNat_zero]
  have none : unpackMantissa b = 0#_ ↔ (unpackMantissa b).toNat = 0 := by
    rw [← BitVec.toNat_inj, BitVec.toNat_zero]
  unfold UnpackedFloat.unpack
  dsimp only
  rw [if_neg finite]
  by_cases small : (unpackExponent b).toNat = 0
  · have parts : partsOf b = ⟨(unpackMantissa b).toNat, -1074⟩ := if_pos small
    rw [if_pos (least.mpr small)]
    by_cases zero : (unpackMantissa b).toNat = 0
    · rw [dif_pos (none.mpr zero), BinaryParts.unpacked_of_eq_zero (by rw [parts]; exact zero)]
    · have some : 0 < (partsOf b).mantissa := by rw [parts]; exact Nat.pos_of_ne_zero zero
      rw [dif_neg (none.not.mpr zero), BinaryParts.unpacked_of_pos some]
      exact finite_congr (by rw [parts]) (by rw [parts, bias, small]; rfl)
  · have parts : partsOf b = ⟨2 ^ 52 + (unpackMantissa b).toNat, (unpackExponent b).toNat - 1075⟩ := if_neg small
    have some : 0 < (partsOf b).mantissa := by rw [parts]; exact Nat.add_pos_left (by decide) _
    rw [if_neg (least.not.mpr small), BinaryParts.unpacked_of_pos some]
    refine finite_congr ?_ (by rw [parts, bias]; rfl)
    rw [parts, BitVec.toNat_append, ← Nat.shiftLeft_add_eq_or_of_lt (unpackMantissa b).isLt]
    rfl

theorem canonical_partsOf (finite : unpackExponent b ≠ -1#_) (some : 0 < (partsOf b).mantissa) :
    Canonical (partsOf b).mantissa (partsOf b).exponent ∧ (partsOf b).exponent ≤ 971 := by
  have special : (unpackExponent b).toNat ≠ 2047 := fun all => finite (BitVec.eq_of_toNat_eq (all.trans (by decide)))
  have power : (unpackExponent b).toNat < 2 ^ 11 := (unpackExponent b).isLt
  have fraction : (unpackMantissa b).toNat < 2 ^ 52 := (unpackMantissa b).isLt
  rw [partsOf] at *
  split at some <;> simp only [*, if_true, if_false] at *
  · exact ⟨⟨some, by omega, by omega, .inr rfl⟩, by decide⟩
  · exact ⟨⟨some, by omega, by omega, .inl (by omega)⟩, by omega⟩

end Fields

section Packing

variable {m : Nat} {e : Int} {sign : Sign}

/-- The exponent field of a packed value. There is none for a value without the leading digit. -/
def exponentField (m : Nat) (e : Int) : Nat :=
  if 2 ^ 52 ≤ m then (e + 1075).toNat else 0

theorem pack_finite (h : Canonical m e) (small : e ≤ 971) : pack Format.binary64 (.finite sign m e h.pos) =
    packComponents Format.binary64 sign (.ofNat _ (exponentField m e)) (.ofNat _ m) := by
  have bias : Format.binary64.exponentBias = 1023 := by decide
  have bits : Format.binary64.mantissaBits = 53 := rfl
  have digits : m.log2 + 1 = 53 ↔ 2 ^ 52 ≤ m := by
    have upper : m.log2 < 53 := (Nat.log2_lt (Nat.ne_of_gt h.pos)).mpr h.fits
    have full : 52 ≤ m.log2 ↔ 2 ^ 52 ≤ m := Nat.le_log2 (Nat.ne_of_gt h.pos)
    omega
  have least := h.least
  unfold UnpackedFloat.pack
  dsimp only
  simp only [bits, digits, bias, exponentField]
  rw [if_neg (by omega)]
  split
  · congr 2
    omega
  · rfl

theorem exponentField_lt (h : Canonical m e) (small : e ≤ 971) : exponentField m e < 2047 := by
  have least := h.least
  rw [exponentField]
  split <;> omega

/-- Packed values are finite. -/
theorem unpackExponent_pack_finite (h : Canonical m e) (small : e ≤ 971) :
    unpackExponent (pack Format.binary64 (.finite sign m e h.pos)) ≠ -1#_ := by
  have field := exponentField_lt h small
  rw [pack_finite h small, unpackExponent_packComponents]
  intro all
  have value := congrArg BitVec.toNat all
  simp at value
  omega

theorem unpackExponent_pack_unpacked {b : BitVec Format.binary64.numBits} (finite : unpackExponent b ≠ -1#_) (sign : Sign) :
    unpackExponent (pack Format.binary64 ((partsOf b).unpacked sign)) ≠ -1#_ := by
  rcases Nat.eq_zero_or_pos (partsOf b).mantissa with none | some
  · rw [BinaryParts.unpacked_of_eq_zero none]
    cases sign <;> decide
  · rw [BinaryParts.unpacked_of_pos some]
    obtain ⟨canonical, small⟩ := canonical_partsOf finite some
    exact unpackExponent_pack_finite canonical small

end Packing

theorem unpacked_neg (p : BinaryParts) (sign : Sign) : (p.unpacked sign).neg = p.unpacked (-sign) := by
  rcases Nat.eq_zero_or_pos p.mantissa with none | some
  · rw [BinaryParts.unpacked_of_eq_zero none, BinaryParts.unpacked_of_eq_zero none]
    rfl
  · rw [BinaryParts.unpacked_of_pos some, BinaryParts.unpacked_of_pos some]
    rfl

/-- The bits of a value. -/
def bitsOf (x : Float) : BitVec Format.binary64.numBits :=
  x.toBits.toBitVec

theorem isFinite_iff {x : Float} : x.isFinite = true ↔ unpackExponent (bitsOf x) ≠ -1#_ :=
  isFinite_unpack (bitsOf x)

theorem isFinite_neg {x : Float} (finite : x.isFinite = true) : (-x).isFinite = true := by
  have special := isFinite_iff.mp finite
  change (unpack Format.binary64 (pack Format.binary64 (unpack Format.binary64 (bitsOf x)).neg)).isFinite = true
  rw [unpack_eq special, unpacked_neg, isFinite_unpack]
  exact unpackExponent_pack_unpacked special _

end AspectProxy
