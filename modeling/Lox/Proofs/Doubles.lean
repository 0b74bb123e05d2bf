import Mathlib
import Lox.Decimal.Notation

/-! # The sign of a double and the bits below it

A finite double is told by its sign and the sixty-three bits below the sign (`exists_double`): it is the double
without sign that has these bits, or the negation of that one, with the sign of zero kept apart.  So a numeral of
a finite double is a numeral of the bits, with a sign before it. -/

namespace Lox.Decimal

open Float.Model Float.Model.UnpackedFloat

/-! ### Encoded doubles -/

section encoded

variable {b c : BitVec Format.binary64.numBits}

theorem toNat_unpackMantissa (b : BitVec Format.binary64.numBits) :
    (unpackMantissa b).toNat = b.toNat % Nat.pow 2 52 := by
  rw [unpackMantissa_def, BitVec.extractLsb'_toNat]
  rfl

theorem toNat_unpackExponent (b : BitVec Format.binary64.numBits) :
    (unpackExponent b).toNat = b.toNat / Nat.pow 2 52 % 2048 := by
  rw [unpackExponent_def, BitVec.extractLsb'_toNat, Nat.shiftRight_eq_div_pow]
  rfl

theorem toNat_unpackSign (b : BitVec Format.binary64.numBits) :
    (unpackSign b).toNat = b.toNat / Nat.pow 2 63 % 2 := by
  rw [unpackSign_def, BitVec.extractLsb'_toNat, Nat.shiftRight_eq_div_pow]
  rfl

/-- An encoded double is finite when what stands below its sign is less than infinity has there. -/
theorem isFinite_unpack : (unpack Format.binary64 b).isFinite = true ↔ b.toNat % Nat.pow 2 63 < infinityBits := by
  have hexp : unpackExponent b = -1#11 ↔ ¬ b.toNat % Nat.pow 2 63 < infinityBits := by
    rw [← BitVec.toNat_inj, toNat_unpackExponent]
    change _ = 2047 ↔ ¬ _ < 2047 * 4503599627370496
    simp only [Nat.pow_eq, Nat.reducePow]
    omega
  unfold UnpackedFloat.unpack
  dsimp only
  split
  · rename_i h
    split <;> simp [UnpackedFloat.isFinite, hexp.mp h]
  · rename_i h
    rw [hexp, not_not] at h
    split
    · split <;> simp [UnpackedFloat.isFinite, h]
    · simp [UnpackedFloat.isFinite, h]

/-- With the other sign, an encoded double is the negation. -/
theorem unpack_neg (h : c.toNat = b.toNat + Nat.pow 2 63) :
    (unpack Format.binary64 b).neg = unpack Format.binary64 c := by
  have hlt : c.toNat < 18446744073709551616 := c.isLt
  simp only [Nat.pow_eq, Nat.reducePow] at h
  have hm : unpackMantissa c = unpackMantissa b := by
    rw [← BitVec.toNat_inj, toNat_unpackMantissa, toNat_unpackMantissa]
    simp only [Nat.pow_eq, Nat.reducePow]
    omega
  have he : unpackExponent c = unpackExponent b := by
    rw [← BitVec.toNat_inj, toNat_unpackExponent, toNat_unpackExponent]
    simp only [Nat.pow_eq, Nat.reducePow]
    omega
  have hs : unpackSign b = 0#1 := by
    rw [← BitVec.toNat_inj, toNat_unpackSign]
    simp only [Nat.pow_eq, Nat.reducePow, BitVec.toNat_ofNat]
    omega
  have hs' : unpackSign c = 1#1 := by
    rw [← BitVec.toNat_inj, toNat_unpackSign]
    simp only [Nat.pow_eq, Nat.reducePow, BitVec.toNat_ofNat]
    omega
  unfold UnpackedFloat.unpack
  simp only [hm, he, hs, hs']
  split
  · split <;> rfl
  split
  · split <;> rfl
  · rfl

end encoded

/-! ### Doubles without sign -/

section magnitude

variable {bits : Nat}

/-- Up to infinity, bits without sign are those of the double that they stand for. -/
theorem toBits_ofBits (h : bits ≤ infinityBits) : (Float.ofBits (UInt64.ofNat bits)).toBits = UInt64.ofNat bits := by
  have hbits : bits ≤ 9218868437227405312 := h
  have hnat : (UInt64.ofNat bits).toBitVec.toNat = bits := Nat.mod_eq_of_lt (by omega)
  have hnan : @isNaNBits Format.binary64 (UInt64.ofNat bits).toBitVec = false := by
    rw [isNaNBits, decide_eq_false_iff_not, ← BitVec.toNat_inj, ne_eq, ← BitVec.toNat_inj, toNat_unpackExponent,
      toNat_unpackMantissa, hnat]
    change ¬ (_ = 2047 ∧ ¬ _ = 0)
    simp only [Nat.pow_eq, Nat.reducePow]
    omega
  refine UInt64.toBitVec_inj.mp ?_
  change UnpackedFloat.pack Format.binary64 (UnpackedFloat.unpack Format.binary64 _) = _
  rw [pack_unpack, hnan]
  rfl

theorem toNat_toBits_ofBits (h : bits ≤ infinityBits) : (Float.ofBits (UInt64.ofNat bits)).toBits.toNat = bits := by
  have hbits : bits ≤ 9218868437227405312 := h
  rw [toBits_ofBits h, UInt64.toNat_ofNat_of_lt']
  change bits < 18446744073709551616
  omega

/-- A double without sign has the magnitude of its bits. -/
theorem classify_ofBits (h : bits < infinityBits) :
    classify (Float.ofBits (UInt64.ofNat bits)) = .finite false (.ofBits bits) := by
  have hbits : bits < 9218868437227405312 := h
  have hmod : bits % Nat.pow 2 63 = bits := Nat.mod_eq_of_lt (by simp only [Nat.pow_eq, Nat.reducePow]; omega)
  have hsign : decide (Nat.pow 2 63 ≤ bits) = false :=
    decide_eq_false (by simp only [Nat.pow_eq, Nat.reducePow]; omega)
  unfold classify
  simp only [toNat_toBits_ofBits h.le, hmod, hsign, if_pos h]

end magnitude

/-! ### Finite doubles -/

/-- The double with a sign and bits below it. -/
def double (negative : Bool) (bits : Nat) : Float :=
  if negative then -Float.ofBits (UInt64.ofNat bits) else Float.ofBits (UInt64.ofNat bits)

theorem isFinite_iff {x : Float} : x.isFinite = true ↔ x.toBits.toNat % Nat.pow 2 63 < infinityBits := isFinite_unpack

/-- A finite double is its magnitude with its sign. -/
theorem exists_double {x : Float} (h : x.isFinite = true) :
    ∃ negative bits,
      bits < infinityBits ∧ classify x = .finite negative (.ofBits bits) ∧ x = double negative bits := by
  have hrest := isFinite_iff.mp h
  refine ⟨decide (Nat.pow 2 63 ≤ x.toBits.toNat), x.toBits.toNat % Nat.pow 2 63, hrest, if_pos hrest, ?_⟩
  have hlt : x.toBits.toNat < 18446744073709551616 := x.toBits.toNat_lt
  unfold double
  split
  · rename_i hneg
    have hneg := of_decide_eq_true hneg
    have hflip : x.toBits.toBitVec.toNat =
        (UInt64.ofNat (x.toBits.toNat % Nat.pow 2 63)).toBitVec.toNat + Nat.pow 2 63 := by
      change _ = x.toBits.toNat % Nat.pow 2 63 % 18446744073709551616 + _
      simp only [Nat.pow_eq, Nat.reducePow, UInt64.toNat_toBitVec] at hneg ⊢
      omega
    refine Float.toBits_inj.mp (UInt64.toBitVec_inj.mp ?_)
    change _ = UnpackedFloat.pack Format.binary64 (unpack Format.binary64 (Float.ofBits _).toBits.toBitVec).neg
    rw [toBits_ofBits hrest.le, unpack_neg hflip]
    exact (pack_unpack_of_valid x.toModel.valid).symm
  · rename_i hpos
    have hpos : ¬ Nat.pow 2 63 ≤ x.toBits.toNat := fun hle => hpos (decide_eq_true hle)
    rw [Nat.mod_eq_of_lt (Nat.lt_of_not_le hpos), UInt64.ofNat_toNat, Float.ofBits_toBits]

end Lox.Decimal
