import Mathlib
import SpeechGrammar.Weight.Single

/-!
# Weights of single precision

Machine numbers are given by a model that unpacks them into sign, mantissa and
exponent and packs them again.  Packing what was unpacked gives the same bits,
which no import narrower than the whole library has as a lemma.  So adding a
number to zero gives that number, save that both zeros give the positive one.

A numeral without a sign is read as a number of single precision by its bit
pattern.  The pattern never goes beyond that of infinity: the sign bit is
clear, and where all bits of the exponent are set no bit of the fraction is.
So what is read is neither negative nor undefined, however many digits and
whatever exponent the numeral has.
-/

namespace SpeechGrammar

namespace Binary32

open Float.Model (Format UnpackedFloat)
open Float.Model.UnpackedFloat (unpackMantissa unpackExponent unpackSign)

theorem unpack_zero : (0 : Float32).toModel.unpack = .zero .positive := by
  rfl

theorem zero_add_eq (number : Float32) :
    0 + number =
      .ofModel (.pack (.add Format.binary32 (.zero .positive) number.toModel.unpack)) := by
  rw [← unpack_zero]
  rfl

/-- What unpacks to anything but a zero stays as it is when it is added to zero. -/
theorem zero_add_of_unpack_ne {number : Float32}
    (hnumber : ∀ sign, number.toModel.unpack ≠ .zero sign) : 0 + number = number := by
  have hadd : UnpackedFloat.add Format.binary32 (.zero .positive) number.toModel.unpack =
      number.toModel.unpack := by
    cases hunpacked : number.toModel.unpack with
    | zero sign => exact absurd hunpacked (hnumber sign)
    | infinity sign => rfl
    | notANumber => rfl
    | finite sign mantissa exponent hpos => rfl
  rw [zero_add_eq, hadd]
  obtain ⟨⟨bits, hvalid⟩⟩ := number
  simp only [Float32.Model.pack, Float32.Model.unpack, UnpackedFloat.pack_unpack_of_valid hvalid]

/-- A defined number that is added to zero stays equal to itself. -/
theorem zero_add_beq {number : Float32} (hnumber : number.isNaN = false) :
    (0 + number == number) = true := by
  by_cases hzero : ∃ sign, number.toModel.unpack = .zero sign
  · obtain ⟨sign, hsign⟩ := hzero
    change ((0 + number).toModel.unpack.compare number.toModel.unpack == some .eq) = true
    rw [zero_add_eq, hsign]
    cases sign <;> rfl
  · rw [zero_add_of_unpack_ne (not_exists.mp hzero), Float32.beq_self_iff]
    rw [Float32.isNaN_eq_decide_eq_nan] at hnumber
    exact of_decide_eq_false hnumber

def infinityBits : Nat := 255 * Nat.pow 2 23

theorem toNat_unpackMantissa (bits : BitVec Format.binary32.numBits) :
    (unpackMantissa bits).toNat = bits.toNat % 2 ^ 23 := by
  rw [UnpackedFloat.unpackMantissa_def, BitVec.extractLsb'_toNat, Nat.shiftRight_zero]

theorem toNat_unpackExponent (bits : BitVec Format.binary32.numBits) :
    (unpackExponent bits).toNat = bits.toNat / 2 ^ 23 % 2 ^ 8 := by
  rw [UnpackedFloat.unpackExponent_def, BitVec.extractLsb'_toNat, Nat.shiftRight_eq_div_pow]

theorem toNat_unpackSign (bits : BitVec Format.binary32.numBits) :
    (unpackSign bits).toNat = bits.toNat / 2 ^ 31 % 2 := by
  rw [UnpackedFloat.unpackSign_def, BitVec.extractLsb'_toNat, Nat.shiftRight_eq_div_pow]
  rfl

section Pattern

variable {bits : BitVec Format.binary32.numBits}

theorem unpackSign_eq_zero (hbits : bits.toNat ≤ infinityBits) : unpackSign bits = 0#1 := by
  apply BitVec.eq_of_toNat_eq
  rw [toNat_unpackSign]
  simp [infinityBits] at hbits ⊢
  omega

/-- Only infinity has all bits of the exponent set. -/
theorem unpackMantissa_eq_zero (hbits : bits.toNat ≤ infinityBits)
    (hexponent : unpackExponent bits = -1#_) : unpackMantissa bits = 0#_ := by
  have hfield := congrArg BitVec.toNat hexponent
  rw [toNat_unpackExponent] at hfield
  apply BitVec.eq_of_toNat_eq
  rw [toNat_unpackMantissa]
  change _ = 255 at hfield
  simp [infinityBits] at hbits ⊢
  omega

theorem valid_of_le (hbits : bits.toNat ≤ infinityBits) : Format.binary32.Valid bits :=
  ⟨fun hexponent hmantissa => absurd (unpackMantissa_eq_zero hbits hexponent) hmantissa⟩

/-- Zero is at most every number with a pattern up to that of infinity. -/
theorem zero_le_unpack (hbits : bits.toNat ≤ infinityBits) :
    (UnpackedFloat.zero .positive).le (UnpackedFloat.unpack Format.binary32 bits) = true := by
  have hsign : Float.Model.UnpackedFloat.Sign.ofBitVec (unpackSign bits) = .positive := by
    rw [unpackSign_eq_zero hbits]
    rfl
  unfold UnpackedFloat.unpack
  dsimp only
  rw [hsign]
  split
  · rename_i hexponent
    rw [if_pos (unpackMantissa_eq_zero hbits hexponent)]
    rfl
  · split
    · split
      · rfl
      · rfl
    · rfl

end Pattern

theorem le_iff {low high : Float32} :
    low ≤ high ↔ low.toModel.unpack.le high.toModel.unpack = true := by
  change decide (low.toModel ≤ high.toModel) = true ↔ _
  rw [decide_eq_true_iff]
  rfl

theorem le_notANumber (low : UnpackedFloat) : low.le .notANumber = false := by
  cases low with
  | notANumber => rfl
  | infinity sign => cases sign <;> rfl
  | zero sign => rfl
  | finite sign mantissa exponent hpos => cases sign <;> rfl

/-- What is at least some number is a number. -/
theorem isNaN_eq_false_of_le {low high : Float32} (hle : low ≤ high) : high.isNaN = false := by
  rw [le_iff] at hle
  change high.toModel.unpack.isNaN = false
  cases hunpacked : high.toModel.unpack with
  | notANumber =>
      rw [hunpacked, le_notANumber] at hle
      cases hle
  | infinity sign => rfl
  | zero sign => rfl
  | finite sign mantissa exponent hpos => rfl

theorem unpack_ofBits {pattern : UInt32} (hvalid : Format.binary32.Valid pattern.toBitVec) :
    (Float32.ofBits pattern).toModel.unpack =
      UnpackedFloat.unpack Format.binary32 pattern.toBitVec := by
  change UnpackedFloat.unpack _ (UnpackedFloat.pack _ (UnpackedFloat.unpack _ _)) = _
  rw [UnpackedFloat.pack_unpack_of_valid hvalid]

theorem zero_le_ofBits {pattern : UInt32} (hpattern : pattern.toNat ≤ infinityBits) :
    0 ≤ Float32.ofBits pattern := by
  have hbits : pattern.toBitVec.toNat ≤ infinityBits := hpattern
  rw [le_iff, unpack_ofBits (valid_of_le hbits)]
  exact zero_le_unpack hbits

theorem bitsOfQuotient_le (numerator denominator : Nat) :
    bitsOfQuotient numerator denominator ≤ infinityBits :=
  Nat.min_le_right _ _

/-- What a numeral without a sign stands for is at least zero. -/
theorem zero_le_ofDecimal (digits : Nat) (exponent : Int) : 0 ≤ ofDecimal digits exponent := by
  unfold ofDecimal
  apply zero_le_ofBits
  refine (Nat.mod_le _ _).trans ?_
  split
  · exact Nat.zero_le _
  · split
    · exact Nat.le_refl _
    · exact bitsOfQuotient_le _ _

end Binary32

namespace SingleLog

/-- Two weights are equal as numbers, both zeros being one, or they are the same weight. -/
def Alike (first second : SingleLog) : Prop :=
  (first.number == second.number) = true ∨ first = second

theorem zero_add_alike (weight : SingleLog) : Alike (0 + weight) weight := by
  cases hnumber : weight.number.isNaN with
  | false => exact .inl (Binary32.zero_add_beq hnumber)
  | true =>
      right
      have hne : ∀ sign, weight.number.toModel.unpack ≠ .zero sign := by
        intro sign hsign
        change weight.number.toModel.unpack.isNaN = true at hnumber
        rw [hsign] at hnumber
        cases hnumber
      obtain ⟨number, isLast⟩ := weight
      change SingleLog.add ⟨0, false⟩ ⟨number, isLast⟩ = _
      have hzero : (0 : Float32).isNaN = false := rfl
      simp only [SingleLog.add, Binary32.zero_add_of_unpack_ne hne, hzero, hnumber]
      rfl

end SingleLog

end SpeechGrammar
