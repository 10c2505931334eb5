import Bitpack.Element.Codec
import Bitpack.Proofs.Word.Bits

/-!
Integer elements through integer scalars. A slot and a scalar share their low bits, whatever the sign
of either, so that a scalar which is wide enough carries the slot unchanged.
-/
namespace Bitpack

theorem Slot.getLsbD_signExtend {raw : BitVec 64} {bits i : Nat} (hi : i < bits)
    (hbits : bits ≤ 64) : (signExtend raw bits).getLsbD i = raw.getLsbD i := by
  unfold signExtend
  rw [if_neg (by omega)]
  split
  · rfl
  · rw [BitVec.getLsbD_sshiftRight, if_pos (by omega), BitVec.getLsbD_shiftLeft,
      Nat.add_sub_cancel_left]
    simp only [show 64 - bits + i < 64 by omega, show ¬64 - bits + i < 64 - bits by omega,
      show ¬64 ≤ i by omega, decide_true, decide_false, Bool.not_false, Bool.true_and]

namespace Scalar

variable {d : Dtype}

theorem getLsbD_toSigned (hd : d.isFloat = false) (x : Scalar d) {i : Nat} (hi : i < d.width)
    (hi' : i < 64) : x.toSigned.getLsbD i = x.getLsbD i := by
  cases d with
  | int size =>
      rw [toSigned, BitVec.getLsbD_signExtend, if_pos hi]
      simp only [hi', decide_true, Bool.true_and]
  | uint size =>
      rw [toSigned, BitVec.getLsbD_setWidth]
      simp only [hi', decide_true, Bool.true_and]
  | float format => cases hd

variable [Platform]

theorem getLsbD_ofSigned (hd : d.isFloat = false) (carrier : BitVec 64) {i : Nat}
    (hi : i < d.width) : (ofSigned d carrier).getLsbD i = carrier.getLsbD i := by
  cases d with
  | int size =>
      rw [ofSigned, BitVec.getLsbD_setWidth]
      simp only [hi, decide_true, Bool.true_and]
  | uint size =>
      rw [ofSigned, BitVec.getLsbD_setWidth]
      simp only [hi, decide_true, Bool.true_and]
  | float format => cases hd

theorem ofUnsigned_eq_ofSigned (hd : d.isFloat = false) (carrier : BitVec 64) :
    ofUnsigned d carrier = ofSigned d carrier := by
  cases d with
  | int size => rfl
  | uint size => rfl
  | float format => cases hd

end Scalar

namespace ElementType

variable {d : Dtype}

theorem wholeBits_eq_toSigned (e : ElementType) (hd : d.isFloat = false) (x : Scalar d) :
    e.wholeBits x = x.toSigned := by
  cases d with
  | int size => rfl
  | uint size => rfl
  | float format => cases hd

variable [Platform]

theorem toNat_encode_lt (e : ElementType) (x : Scalar d) : (e.encode x).toNat < 2 ^ e.bits := by
  apply Nat.lt_pow_two_of_testBit
  intro i hi
  rw [BitVec.testBit_toNat, encode, BitVec.getLsbD_and, Slot.getLsbD_mask]
  simp only [show ¬i < e.bits by omega, false_and, decide_false, Bool.and_false]

theorem getLsbD_encode {e : ElementType} (he : e.kind = .integer) (hd : d.isFloat = false)
    (x : Scalar d) {i : Nat} (hi : i < e.bits) (hi' : i < d.width) :
    (e.encode x).getLsbD i = x.getLsbD i := by
  have hle := e.bits_le
  have hcast : e.castBits x = x.toSigned := by
    cases e with
    | int width => exact wholeBits_eq_toSigned _ hd x
    | uint width => exact wholeBits_eq_toSigned _ hd x
    | bipolar => cases he
    | fixed width intBits le => cases he
    | float32 => cases he
    | float16 => cases he
  rw [encode, BitVec.getLsbD_and, hcast, Slot.getLsbD_mask,
    Scalar.getLsbD_toSigned hd x hi' (by omega)]
  simp [hi, show i < 64 by omega]

theorem getLsbD_ofSlot {e : ElementType} (he : e.kind = .integer) (hd : d.isFloat = false)
    (raw : BitVec 64) {i : Nat} (hi : i < e.bits) (hi' : i < d.width) :
    (e.ofSlot d raw).getLsbD i = raw.getLsbD i := by
  cases e with
  | int width => exact (Scalar.getLsbD_ofSigned hd _ hi').trans (Slot.getLsbD_signExtend hi width.le)
  | uint width =>
      rw [ofSlot, Scalar.ofUnsigned_eq_ofSigned hd]
      exact Scalar.getLsbD_ofSigned hd raw hi'
  | bipolar => cases he
  | fixed width intBits le => cases he
  | float32 => cases he
  | float16 => cases he

theorem encode_decode {e : ElementType} (he : e.kind = .integer) (hd : d.isFloat = false)
    (hwidth : e.bits ≤ d.width) (raw : BitVec 64) :
    e.encode (e.decode d raw) = raw &&& Slot.mask e.bits := by
  apply BitVec.eq_of_getLsbD_eq
  intro i _
  by_cases hi : i < e.bits
  · have hi' : i < d.width := Nat.lt_of_lt_of_le hi hwidth
    rw [getLsbD_encode he hd _ hi hi']
    exact getLsbD_ofSlot he hd _ hi hi'
  · have hlt := Nat.lt_of_lt_of_le (e.toNat_encode_lt (e.decode d raw))
      (Nat.pow_le_pow_right (by decide) (Nat.le_of_not_lt hi))
    rw [← BitVec.testBit_toNat, Nat.testBit_lt_two_pow hlt]
    simp [hi]

theorem toNat_encode_decode {e : ElementType} (he : e.kind = .integer) (hd : d.isFloat = false)
    (hwidth : e.bits ≤ d.width) {n : Nat} (hn : n < 2 ^ e.bits) :
    (e.encode (e.decode d (BitVec.ofNat 64 n))).toNat = n := by
  apply Nat.eq_of_testBit_eq
  intro i
  rw [encode_decode he hd hwidth, BitVec.testBit_toNat, BitVec.getLsbD_and, BitVec.getLsbD_ofNat,
    Slot.getLsbD_mask]
  have hle := e.bits_le
  by_cases hi : i < e.bits
  · simp [hi, show i < 64 by omega]
  · rw [Nat.testBit_lt_two_pow (Nat.lt_of_lt_of_le hn
      (Nat.pow_le_pow_right (by decide) (Nat.le_of_not_lt hi)))]
    simp

end ElementType

end Bitpack
