import Bitpack.Layout
import Bitpack.Streaming.Transfer
import Bitpack.Tensor

/-!
Tensors as streams of vectors: one lane for each element, cast to the type of the lanes. Packing
fills the lanes in order and leaves the rest zero; unpacking reads one vector for each block, at the
lanes of that block.
-/
namespace Bitpack.Packing

open Streaming (Transfer Event)

variable [Platform] {d : Dtype}

def fillLanes (lane : Dtype) (lanes : Nat) (row : List (Scalar d)) : Vector (Scalar lane) lanes :=
  Vector.ofFn fun i => (row[i.val]?).elim 0 (Scalar.cast lane)

def packVectorRows (lane : Dtype) (lanes : Nat) (outer : Nat) :
    List (List (Scalar d)) → Transfer (Vector (Scalar lane) lanes) Unit
  | [] => pure ()
  | row :: rest => do
    let vector := fillLanes lane lanes row
    Transfer.report (.packedVector outer lane vector.toList)
    Transfer.emit vector
    packVectorRows lane lanes (outer + 1) rest

/-- Pushes one vector for each outer position; neither blocks nor reversal change it. -/
def packVectors (t : Tensor d) (lane : Dtype) (lanes : Nat) (options : Options) :
    Transfer (Vector (Scalar lane) lanes) Unit := do
  let layout ← Transfer.lift (Layout.ofShape t.shape 1)
  if lanes < layout.inner then Transfer.fail (.shape (.innerTooWide layout.inner lanes))
  else
    Transfer.report (.packingVectors layout lanes)
    if options.reverseInner then Transfer.report .reverseIgnored
    packVectorRows lane lanes 0 (Tensor.rows layout.inner layout.outer t.values)

def readLane {lane : Dtype} {lanes : Nat} (vector : Vector (Scalar lane) lanes) (i : Nat) :
    Except Error (Scalar lane) :=
  match vector[i]? with
  | some x => .ok x
  | none => .error (.range (.lane i lanes))

def unpackBlock (d : Dtype) {lane : Dtype} {lanes : Nat} (layout : Layout) (options : Options)
    (outer block : Nat) : Transfer (Vector (Scalar lane) lanes) (List (Scalar d)) := do
  let vector ← Transfer.receive
  Transfer.report (.unpackedVector outer block lane vector.toList)
  Transfer.lift <| (List.range layout.inner).mapM fun position => do
    let i := Layout.blockSlotIndex block position layout.inner options.reverseInner
    return Scalar.cast d (← readLane vector i)

def unpackBlocks (d : Dtype) {lane : Dtype} {lanes : Nat} (layout : Layout) (options : Options) :
    List (Nat × Nat) → Transfer (Vector (Scalar lane) lanes) (List (Scalar d))
  | [] => pure []
  | (outer, block) :: rest => do
    let values ← unpackBlock d layout options outer block
    return values ++ (← unpackBlocks d layout options rest)

/-- The blocks of a layout in the order of their vectors. -/
def blockOrder (layout : Layout) : List (Nat × Nat) :=
  (List.range layout.outer).flatMap fun outer =>
    (List.range layout.blocks).map fun block => (outer, block)

def unpackVectors (d : Dtype) {lane : Dtype} {lanes : Nat} (shape : List Nat) (options : Options) :
    Transfer (Vector (Scalar lane) lanes) (Tensor d) := do
  let layout ← Transfer.lift (Layout.ofShape shape options.blocks)
  if lanes < layout.innerFull then Transfer.fail (.shape (.lastTooWide layout.innerFull lanes))
  else
    Transfer.report (.unpackingVectors layout lanes)
    Transfer.lift (layout.reserve d.bytes)
    let values ← unpackBlocks d layout options (blockOrder layout)
    Transfer.lift (Tensor.ofValues shape values)

end Bitpack.Packing
