import Bitpack.Npy.Store
import Bitpack.Packing.Vectors
import Bitpack.Packing.Words

/-!
Whole files to streams and back, as often as the options say. Replays share nothing but the stream:
every one loads the file again, or saves it again.
-/
namespace Bitpack.Packing

open Streaming (Transfer Event Replay)

/-- A stream between two replays: the items queued in it, and the events so far. -/
structure Station (ω : Type) where
  items : List ω
  events : List Event

/-- Work on files and a stream. An error leaves both as they are when it arises. -/
abbrev Job (ω : Type) (m : Type → Type) := ExceptT Error (StateT (Station ω) m)

variable [Platform] {m : Type → Type} [Monad m] [Files m] {ω : Type}

namespace Job

def stream {α : Type} (p : Transfer ω α) : Job ω m α := do
  let station ← get
  let o := p.run station.items
  set (Station.mk o.items (station.events ++ o.events))
  ExceptT.mk (pure o.result)

def report (event : Event) : Job ω m Unit :=
  stream (Transfer.report event)

def files {α : Type} (access : ExceptT Error m α) : Job ω m α :=
  ExceptT.mk (StateT.lift access.run)

end Job

def loadTensor (d : Dtype) (path : Path) : Job ω m (Tensor d) := do
  let array ← Job.files (NpyArray.load path)
  Job.report (.loaded path.text array.wordSize array.valueCount array.header.descr)
  if array.header.descr.kind ≠ d.kind then Job.report (.reinterpreted array.header.descr d)
  let values ← ExceptT.mk (pure (array.values d))
  ExceptT.mk (pure (Tensor.ofValues array.shape values))

/-- Runs a job `count` times, from replay number `index` of `total`. -/
def replayed (which : Replay) (total : Nat) (job : Job ω m Unit) : Nat → Nat → Job ω m Unit
  | 0, _ => pure ()
  | count + 1, index => do
    Job.report (.replay which index total)
    job
    replayed which total job count (index + 1)

def replays (which : Replay) (options : Options) (job : Job ω m Unit) : Job ω m Unit :=
  replayed which options.repetitions job options.repetitions 0

def npyToWords (d : Dtype) (path : Path) (e : ElementType) (options : Options) : Job Word m Unit :=
  replays .npyToWords options do
    let t ← loadTensor d path
    Job.stream (pack t e options)

def wordsToNpy (d : Dtype) (shape : List Nat) (path : Path) (e : ElementType) (options : Options) :
    Job Word m Unit :=
  replays .wordsToNpy options do
    let t ← Job.stream (unpack d shape e options)
    Job.files (NpyArray.save path t.shape t.values)

def npyToVectors (d : Dtype) (path : Path) (lane : Dtype) (lanes : Nat) (options : Options) :
    Job (Vector (Scalar lane) lanes) m Unit :=
  replays .npyToVectors options do
    let t ← loadTensor d path
    Job.stream (packVectors t lane lanes options)

def vectorsToNpy (d : Dtype) (shape : List Nat) (path : Path) (lane : Dtype) (lanes : Nat)
    (options : Options) : Job (Vector (Scalar lane) lanes) m Unit :=
  replays .vectorsToNpy options do
    let t ← Job.stream (unpackVectors d shape options)
    Job.files (NpyArray.save path t.shape t.values)

end Bitpack.Packing
