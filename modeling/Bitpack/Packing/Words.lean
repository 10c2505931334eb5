import Bitpack.Layout
import Bitpack.Streaming.Transfer
import Bitpack.Tensor

/-!
Tensors as streams of packed words: one word for each outer position, one slot for each element.
-/
namespace Bitpack.Packing

open Streaming (Transfer Event)

variable [Platform] {d : Dtype}

/-- The width of the words of a shape, which does not depend on the number of blocks. -/
def wordBits (shape : List Nat) (e : ElementType) : Except Error Nat := do
  let layout ← Layout.ofShape shape 1
  layout.wordBits e.bits

/-- The values of one outer position with the slots that they go to. -/
def placed (layout : Layout) (options : Options) (row : List (Scalar d)) : List (Scalar d × Nat) :=
  row.zip (layout.slotOrder options.reverseInner)

/-- The zero word with every value of a row encoded into its slot. -/
def fillWord (e : ElementType) (width : Nat) (row : List (Scalar d × Nat)) :
    Except RangeFault Word :=
  row.foldlM (fun word (value, slot) => word.setSlot slot e.bits (e.encode value)) (Word.zero width)

def inRange {α : Type} : Except RangeFault α → Except Error α
  | .ok a => .ok a
  | .error fault => .error (.range fault)

def packRow (e : ElementType) (width outer : Nat) (row : List (Scalar d × Nat)) :
    Transfer Word Unit := do
  Transfer.reportAll <| row.map fun (value, slot) => .packedElement d value e (e.encode value) slot
  let word ← Transfer.lift (inRange (fillWord e width row))
  Transfer.report (.packedWord outer word)
  Transfer.emit word

def packRows (layout : Layout) (width : Nat) (e : ElementType) (options : Options) (outer : Nat) :
    List (List (Scalar d)) → Transfer Word Unit
  | [] => pure ()
  | row :: rest => do
    packRow e width outer (placed layout options row)
    packRows layout width e options (outer + 1) rest

def pack (t : Tensor d) (e : ElementType) (options : Options) : Transfer Word Unit := do
  let layout ← Transfer.lift (Layout.ofShape t.shape options.blocks)
  let width ← Transfer.lift (layout.wordBits e.bits)
  Transfer.report (.packing layout width e)
  packRows layout width e options 0 (Tensor.rows layout.innerFull layout.outer t.values)

def unpackSlots (d : Dtype) (e : ElementType) (word : Word) :
    List Nat → Transfer Word (List (Scalar d))
  | [] => pure []
  | slot :: rest => do
    let raw ← Transfer.lift (inRange (word.slot slot e.bits))
    let value := e.decode d raw
    Transfer.report (.unpackedElement d value e raw slot)
    return value :: (← unpackSlots d e word rest)

/-- The values of the next word, which must be wide enough; it may be wider. -/
def unpackRow (d : Dtype) (layout : Layout) (width : Nat) (e : ElementType) (options : Options)
    (outer : Nat) : Transfer Word (List (Scalar d)) := do
  let word ← Transfer.receive
  if word.width < width then Transfer.fail (.wordWidth width word.width)
  else
    Transfer.report (.unpackedWord outer word)
    unpackSlots d e word (layout.slotOrder options.reverseInner)

def unpackRows (d : Dtype) (layout : Layout) (width : Nat) (e : ElementType) (options : Options) :
    Nat → Nat → Transfer Word (List (Scalar d))
  | 0, _ => pure []
  | count + 1, outer => do
    let row ← unpackRow d layout width e options outer
    return row ++ (← unpackRows d layout width e options count (outer + 1))

def unpack (d : Dtype) (shape : List Nat) (e : ElementType) (options : Options) :
    Transfer Word (Tensor d) := do
  let layout ← Transfer.lift (Layout.ofShape shape options.blocks)
  let width ← Transfer.lift (layout.wordBits e.bits)
  Transfer.report (.unpacking layout width e)
  Transfer.lift (layout.reserve d.bytes)
  let values ← unpackRows d layout width e options layout.outer 0
  Transfer.lift (Tensor.ofValues shape values)

end Bitpack.Packing
