import Bitpack.Element.Basic
import Bitpack.Scalar.Cast

/-!
The codec between a scalar and the raw bits of a slot. Encoding casts the scalar to the element type
without any range check and keeps the bits of the result; decoding reads the bits as the element
type and casts the element to the scalar type.
-/
namespace Bitpack

namespace Slot

def mask (bits : Nat) : BitVec 64 :=
  if 64 ≤ bits then BitVec.allOnes 64 else BitVec.ofNat 64 (2 ^ bits - 1)

def signExtend (raw : BitVec 64) (bits : Nat) : BitVec 64 :=
  if bits = 0 then 0
  else if 64 ≤ bits then raw
  else (raw <<< (64 - bits)).sshiftRight (64 - bits)

end Slot

namespace ElementType

/-- The integer of a scalar modulo `2^64`. A float that is not below zero goes to an unsigned slot
with the full unsigned range. -/
def wholeBits (e : ElementType) {d : Dtype} (x : Scalar d) : BitVec 64 :=
  match d, x with
  | .int size, x => Scalar.toSigned (d := .int size) x
  | .uint size, x => Scalar.toUnsigned (d := .uint size) x
  | .float format, x =>
    if !e.isSigned && (Scalar.toDouble (d := .float format) x).isNonneg then
      Scalar.toUnsigned (d := .float format) x
    else Scalar.toSigned (d := .float format) x

/-- The bits of the cast value, before those above the slot are cleared. -/
def castBits [Platform] (e : ElementType) {d : Dtype} (x : Scalar d) : BitVec 64 :=
  match e with
  | int _ => e.wholeBits x
  | uint _ => e.wholeBits x
  | bipolar => if x.toDouble.isNonneg then 1 else 0
  | fixed _ _ _ => BitVec.ofInt 64 ((x.toDouble.scale e.fracBits).floor (-2 ^ 63) (2 ^ 63 - 1))
  | float32 => (FloatFormat.single.ofDouble x.toDouble).setWidth 64
  | float16 => (FloatFormat.half.ofDouble x.toDouble).setWidth 64

def encode [Platform] (e : ElementType) {d : Dtype} (x : Scalar d) : BitVec 64 :=
  e.castBits x &&& Slot.mask e.bits

/-- The element that a slot without foreign bits holds, cast to a scalar. -/
def ofSlot [Platform] (e : ElementType) (d : Dtype) (raw : BitVec 64) : Scalar d :=
  match e with
  | int width => .ofSigned d (Slot.signExtend raw width.bits)
  | uint _ => .ofUnsigned d raw
  | bipolar => .ofSigned d (if raw.getLsbD 0 then 1 else -1)
  | fixed width _ _ =>
    .ofDouble d ((Scalar.doubleOfInt (Slot.signExtend raw width.bits).toInt).scale (-e.fracBits))
  | float32 => .ofDouble d (FloatFormat.single.value (raw.setWidth _))
  | float16 => .ofDouble d (FloatFormat.half.value (raw.setWidth _))

def decode [Platform] (e : ElementType) (d : Dtype) (raw : BitVec 64) : Scalar d :=
  e.ofSlot d (raw &&& Slot.mask e.bits)

def showSlot [Platform] (e : ElementType) (raw : BitVec 64) : String :=
  match e.kind with
  | .integer =>
    if e.isSigned then toString (Slot.signExtend raw e.bits).toInt else toString raw.toNat
  | .bipolar => if raw.getLsbD 0 then "+1" else "-1"
  | .fixedPoint => (e.decode (.float .double) raw).plainText
  | .float => (e.decode (.float .double) raw).plainText

end ElementType

end Bitpack
