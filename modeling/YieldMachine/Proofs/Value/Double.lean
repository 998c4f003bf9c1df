import Mathlib
import YieldMachine.Value.Arithmetic

/-!
# Doubles as bits and as numbers

A double that is a number is given back by it, so what only the bits tell apart is not a number.
Turning the sign bit is negation.

`orderFloats` is the comparison of IEEE 754. Two doubles have an order unless one of them is
not a number, exchanging them turns it round, and they are equal as numbers when their order
says so. What an integer is promoted to is always a number.

    Double.ofFloat_toFloat : x.isNaN = false → ofFloat x.toFloat = x
    Double.toFloat_neg : x.neg.toFloat = -x.toFloat
    orderFloats_swap : orderFloats b a = (orderFloats a b).map Ordering.swap
    promote_isNaN : (promote n).isNaN = false
-/

namespace YieldMachine

open Float.Model

/-! ## Unpacked doubles -/

theorem unpacked_swap (a b : UnpackedFloat) : b.compare a = (a.compare b).map Ordering.swap := by
  cases a with
  | notANumber => cases b <;> rfl
  | infinity s =>
    cases b with
    | infinity s' => cases s <;> cases s' <;> rfl
    | notANumber | zero | finite => cases s <;> rfl
  | zero =>
    cases b with
    | infinity s' | finite s' => cases s' <;> rfl
    | notANumber | zero => rfl
  | finite s m e =>
    cases b with
    | infinity s' => cases s <;> cases s' <;> rfl
    | notANumber | zero => cases s <;> rfl
    | finite s' m' e' =>
      -- of one sign, the exponents decide and then the mantissas
      have hsize : (compare e' e).then (compare m' m) =
          ((compare e e').then (compare m m')).swap := by
        rw [Ordering.swap_then, Int.compare_swap, Nat.compare_swap]
      cases s <;> cases s' <;>
        simp only [UnpackedFloat.compare, hsize, Option.map_some, Ordering.swap]

theorem unpacked_eq_none (a b : UnpackedFloat) :
    a.compare b = none ↔ a.isNaN = true ∨ b.isNaN = true := by
  fun_cases UnpackedFloat.compare a b <;> simp_all [UnpackedFloat.isNaN]

theorem isNaN_unpack_packComponents {s : UnpackedFloat.Sign} {e : BitVec 11} {m : BitVec 52}
    (h : e = -1#11 → m = 0#52) :
    (UnpackedFloat.unpack .binary64 (UnpackedFloat.packComponents .binary64 s e m)).isNaN =
      false := by
  unfold UnpackedFloat.unpack
  simp only [UnpackedFloat.unpackExponent_packComponents,
    UnpackedFloat.unpackMantissa_packComponents]
  split
  · next he => rw [if_pos (h he)]; rfl
  · split
    · split <;> rfl
    · rfl

/-- What is packed from a number is a number: its exponent is not the one kept for the others. -/
theorem isNaN_unpack_pack {a : UnpackedFloat} (h : a.isNaN = false) :
    (UnpackedFloat.unpack .binary64 (UnpackedFloat.pack .binary64 a)).isNaN = false := by
  cases a with
  | notANumber => cases h
  | infinity s => exact isNaN_unpack_packComponents fun _ => rfl
  | zero s => exact isNaN_unpack_packComponents fun h => absurd h (by decide)
  | finite s m e =>
    unfold UnpackedFloat.pack
    dsimp only
    split
    · exact isNaN_unpack_packComponents fun _ => rfl
    · next hsmall =>
      split
      · refine isNaN_unpack_packComponents fun h => absurd (congrArg BitVec.toNat h) ?_
        rw [BitVec.toNat_ofNat, Nat.mod_eq_of_lt (Nat.lt_of_not_le (mt Nat.le_succ_of_le hsmall))]
        exact fun hfull => hsmall (by rw [hfull]; decide)
      · exact isNaN_unpack_packComponents fun h => absurd h (by decide)

theorem isNaN_round (s : UnpackedFloat.Sign) (m : Nat) (e : Int) :
    (UnpackedFloat.round .binary64 s m e).isNaN = false := by
  unfold UnpackedFloat.round UnpackedFloat.roundWithAccuracy
  dsimp only
  split <;> rfl

theorem isNaN_ofInt (n : Int) : (UnpackedFloat.ofInt .binary64 n).isNaN = false := by
  unfold UnpackedFloat.ofInt UnpackedFloat.normalize
  split
  · exact isNaN_round _ _ _
  · rfl
  · exact isNaN_round _ _ _

/-! ## Bits -/

theorem model_ofBits_toBits (f : Float.Model) : Float.Model.ofBits f.toBits = f := by
  obtain ⟨b, hb⟩ := f
  unfold Float.Model.ofBits pack
  congr 1
  rw [UnpackedFloat.pack_unpack]
  split
  · next h =>
    -- the one not-a-number that is valid is the one that is packed
    rw [UnpackedFloat.isNaNBits, decide_eq_true_iff] at h
    rw [← hb.eq_packedNaN h.1 h.2]
  · rfl

theorem unpack_of_isNaNBits {b : BitVec 64}
    (h : @UnpackedFloat.isNaNBits .binary64 b = true) :
    UnpackedFloat.unpack .binary64 b = .notANumber := by
  rw [UnpackedFloat.isNaNBits, decide_eq_true_iff] at h
  unfold UnpackedFloat.unpack
  dsimp only
  rw [if_pos h.1, if_neg h.2]

theorem unpack_ofBits (b : UInt64) :
    (Float.Model.ofBits b).unpack = UnpackedFloat.unpack .binary64 b.toBitVec := by
  unfold Float.Model.ofBits pack unpack
  dsimp only
  rw [UnpackedFloat.pack_unpack]
  split
  · next h => rw [UnpackedFloat.unpack_packedNaN, unpack_of_isNaNBits h]
  · rfl

theorem sign_flip (s : BitVec 1) :
    UnpackedFloat.Sign.ofBitVec (s ^^^ 1#1) = -UnpackedFloat.Sign.ofBitVec s := by
  obtain rfl | rfl := BitVec.eq_zero_or_eq_one s <;> rfl

/-- The sign bit is the sign, and nothing else depends on it. -/
theorem unpack_flip (b : BitVec 64) :
    UnpackedFloat.unpack .binary64 (b ^^^ 0x8000000000000000#64) =
      (UnpackedFloat.unpack .binary64 b).neg := by
  have hexponent : @UnpackedFloat.unpackExponent .binary64 (b ^^^ 0x8000000000000000#64) =
      @UnpackedFloat.unpackExponent .binary64 b := by
    unfold UnpackedFloat.unpackExponent
    rw [BitVec.extractLsb_xor]
    exact congrArg (BitVec.cast _) BitVec.xor_zero
  have hmantissa : @UnpackedFloat.unpackMantissa .binary64 (b ^^^ 0x8000000000000000#64) =
      @UnpackedFloat.unpackMantissa .binary64 b := by
    unfold UnpackedFloat.unpackMantissa
    rw [BitVec.extractLsb_xor]
    exact congrArg (BitVec.cast _) BitVec.xor_zero
  have hsign : UnpackedFloat.Sign.ofBitVec
      (@UnpackedFloat.unpackSign .binary64 (b ^^^ 0x8000000000000000#64)) =
        -UnpackedFloat.Sign.ofBitVec (@UnpackedFloat.unpackSign .binary64 b) := by
    unfold UnpackedFloat.unpackSign
    rw [BitVec.extractLsb_xor]
    exact sign_flip _
  unfold UnpackedFloat.unpack
  simp only [hexponent, hmantissa, hsign]
  split
  · split <;> rfl
  · split
    · split <;> rfl
    · rfl

namespace Double

@[simp] theorem toFloat_ofFloat (x : Float) : (ofFloat x).toFloat = x :=
  congrArg Float.ofModel (model_ofBits_toBits x.toModel)

/-- A double that is a number is given back by it. -/
theorem ofFloat_toFloat {x : Double} (h : x.isNaN = false) : ofFloat x.toFloat = x := by
  obtain ⟨b⟩ := x
  have hnumber : (Float.Model.ofBits b).unpack.isNaN = false := h
  rw [unpack_ofBits] at hnumber
  apply Double.ext
  show (Float.Model.ofBits b).toBits = b
  unfold Float.Model.ofBits pack
  dsimp only
  rw [UnpackedFloat.pack_unpack]
  split
  · next hbits =>
    rw [unpack_of_isNaNBits hbits] at hnumber
    cases hnumber
  · rfl

/-- Turning the sign bit is negation, of what is not a number, too. -/
theorem toFloat_neg (x : Double) : x.neg.toFloat = -x.toFloat := by
  obtain ⟨b⟩ := x
  refine congrArg Float.ofModel ?_
  show pack (UnpackedFloat.unpack .binary64 (b ^^^ 0x8000000000000000).toBitVec) =
    pack (Float.Model.ofBits b).unpack.neg
  rw [unpack_ofBits]
  exact congrArg pack (unpack_flip b.toBitVec)

end Double

/-! ## Order -/

/-- An integer is a number as a double, too. -/
theorem promote_isNaN (n : Int64) : (promote n).isNaN = false :=
  isNaN_unpack_pack (isNaN_ofInt n.toInt)

theorem float_lt_iff (a b : Float) :
    a < b ↔ a.toModel.unpack.compare b.toModel.unpack = some .lt := by
  show decide (a.toModel < b.toModel) = true ↔ _
  rw [decide_eq_true_iff]
  exact beq_iff_eq

theorem float_beq_iff (a b : Float) :
    (a == b) = true ↔ a.toModel.unpack.compare b.toModel.unpack = some .eq := by
  show (a.toModel.unpack.compare b.toModel.unpack == some .eq) = true ↔ _
  exact beq_iff_eq

theorem orderFloats_eq (a b : Float) :
    orderFloats a b = a.toModel.unpack.compare b.toModel.unpack := by
  unfold orderFloats
  simp only [float_lt_iff, float_beq_iff]
  rw [unpacked_swap a.toModel.unpack b.toModel.unpack]
  cases a.toModel.unpack.compare b.toModel.unpack with
  | none => simp
  | some order => cases order <;> simp

/-- Exchanging two doubles turns their order round. -/
theorem orderFloats_swap (a b : Float) : orderFloats b a = (orderFloats a b).map Ordering.swap := by
  rw [orderFloats_eq, orderFloats_eq, unpacked_swap]

theorem orderFloats_eq_none (a b : Float) :
    orderFloats a b = none ↔ a.isNaN = true ∨ b.isNaN = true := by
  rw [orderFloats_eq]
  exact unpacked_eq_none _ _

/-- Doubles are equal as numbers when neither is below the other. -/
theorem float_beq_eq (a b : Float) : (a == b) = (orderFloats a b == some .eq) := by
  rw [Bool.eq_iff_iff, float_beq_iff, orderFloats_eq, beq_iff_eq]

end YieldMachine
