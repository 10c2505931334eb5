import Bitpack.Size

/-!
How a shape is laid out in words, and the options of packing. All axes but the last are outer positions,
one word each; the last axis is cut into equal blocks. The slots of a word are visited block by block,
and reversal acts inside each block, so that no element leaves its block.
-/
namespace Bitpack

structure Layout where
  outer : Nat
  inner : Nat
  blocks : Nat
  deriving DecidableEq, Repr

namespace Layout

def innerFull (l : Layout) : Nat :=
  l.inner * l.blocks

def elementCount [Platform] (l : Layout) : Except Error Nat :=
  Size.mul l.outer l.innerFull

def reserve [Platform] (l : Layout) (bytes : Nat) : Except Error Unit := do
  Size.reserve (← l.elementCount) bytes

def wordBits [Platform] (l : Layout) (elementBits : Nat) : Except Error Nat :=
  Size.mul l.innerFull elementBits

/-- The last axis must be a multiple of the number of blocks. -/
def ofShape [Platform] (shape : List Nat) (blocks : Nat) : Except Error Layout :=
  match shape.getLast? with
  | none => .error (.shape .noDimension)
  | some last =>
    if blocks = 0 then .error (.shape .noBlock)
    else if last % blocks ≠ 0 then .error (.indivisible last blocks)
    else do
      let outer ← Size.product shape.dropLast
      return ⟨outer, last / blocks, blocks⟩

def slotIndex (position inner : Nat) (reverse : Bool) : Nat :=
  if reverse then inner - position - 1 else position

def blockSlotIndex (block position inner : Nat) (reverse : Bool) : Nat :=
  block * inner + slotIndex position inner reverse

def slotOrder (l : Layout) (reverse : Bool) : List Nat :=
  (List.range l.blocks).flatMap fun block =>
    (List.range l.inner).map fun position => blockSlotIndex block position l.inner reverse

end Layout

namespace Packing

structure Options where
  /-- Whether the elements of a block are stored from the last slot down. -/
  reverseInner : Bool
  repetitions : Nat
  /-- Into how many blocks the last axis is cut. -/
  blocks : Nat
  deriving DecidableEq, Repr

def Options.default : Options :=
  ⟨true, 1, 1⟩

end Packing

end Bitpack
