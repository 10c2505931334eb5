import Bitpack.Element.Codec
import Bitpack.Error

/-!
Packed words: bit strings of a fixed width in limbs of 64 bits, the least significant limb first. A
slice of up to 64 bits is read and written in place, over two limbs where it crosses a border. Slot
`i` of `b`-bit slots is the slice from bit `i · b` to bit `i · b + b - 1`.
-/
namespace Bitpack

structure Word where
  width : Nat
  limbs : List (BitVec 64)
  deriving DecidableEq, Repr

namespace Word

def limbCount (width : Nat) : Nat :=
  (width + 63) / 64

def limbValue : List (BitVec 64) → Nat
  | [] => 0
  | limb :: rest => limb.toNat + 2 ^ 64 * limbValue rest

def value (w : Word) : Nat :=
  limbValue w.limbs

/-- As many limbs as the width needs, and no bit at or above the width. -/
structure WellFormed (w : Word) : Prop where
  length_limbs : w.limbs.length = limbCount w.width
  value_lt : w.value < 2 ^ w.width

def zero (width : Nat) : Word :=
  ⟨width, List.replicate (limbCount width) 0⟩

def isZero (w : Word) : Bool :=
  w.limbs.all (· == 0)

def limb (w : Word) (i : Nat) : BitVec 64 :=
  w.limbs.getD i 0

def resize (limbs : List (BitVec 64)) (count : Nat) : List (BitVec 64) :=
  limbs.take count ++ List.replicate (count - limbs.length) 0

def ofLimbs (width : Nat) (limbs : List (BitVec 64)) : Except Error Word :=
  let w : Word := ⟨width, resize limbs (limbCount width)⟩
  if (limbs.drop (limbCount width)).any (· != 0) then .error (.format (.wordOverflow width))
  else if width % 64 ≠ 0 ∧ w.limb (limbCount width - 1) >>> (width % 64) ≠ 0 then
    .error (.format (.wordOverflow width))
  else .ok w

def slotRange (i elementBits : Nat) : Nat × Nat :=
  (i * elementBits, (i + 1) * elementBits - 1)

def checkRange (w : Word) (lo length : Nat) : Except RangeFault Unit :=
  if 64 < length then .error (.tooLong length)
  else if w.width < lo + length then .error (.outside lo (lo + length) w.width)
  else .ok ()

def slice (w : Word) (lo length : Nat) : BitVec 64 :=
  let offset := lo % 64
  let low := w.limb (lo / 64) >>> offset
  let all := if 64 < offset + length then low ||| w.limb (lo / 64 + 1) <<< (64 - offset) else low
  all &&& Slot.mask length

/-- The word with a slice overwritten by the low bits of a value. -/
def splice (w : Word) (lo length : Nat) (bits : BitVec 64) : Word :=
  let offset := lo % 64
  let i := lo / 64
  let mask := Slot.mask length
  let kept := bits &&& mask
  let limbs := w.limbs.set i ((w.limb i &&& ~~~(mask <<< offset)) ||| kept <<< offset)
  if 64 < offset + length then
    let spill := Slot.mask (offset + length - 64)
    ⟨w.width, limbs.set (i + 1) ((w.limb (i + 1) &&& ~~~spill) ||| kept >>> (64 - offset))⟩
  else ⟨w.width, limbs⟩

/-- Reading a slice that the word has; an empty slice is zero. -/
def bits (w : Word) (lo length : Nat) : Except RangeFault (BitVec 64) := do
  w.checkRange lo length
  return if length = 0 then 0 else w.slice lo length

def setBits (w : Word) (lo length : Nat) (bits : BitVec 64) : Except RangeFault Word := do
  w.checkRange lo length
  return if length = 0 then w else w.splice lo length bits

def slot (w : Word) (i elementBits : Nat) : Except RangeFault (BitVec 64) :=
  w.bits (slotRange i elementBits).1 elementBits

def setSlot (w : Word) (i elementBits : Nat) (raw : BitVec 64) : Except RangeFault Word :=
  w.setBits (slotRange i elementBits).1 elementBits raw

end Word

end Bitpack
