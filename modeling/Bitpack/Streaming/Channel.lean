import Bitpack.Streaming.Transfer

/-!
Channels: a queue of bounded length between any number of sinks and one source. A call that neither
succeeds nor fails at once waits; with no capacity every push waits until a pop takes its item.
-/
namespace Bitpack.Streaming

inductive Attempt (α : Type) where
  | finished (result : α)
  | refused (fault : StreamFault)
  | waits
  deriving DecidableEq, Repr

structure Channel (ω : Type) where
  capacity : Nat
  items : List ω
  sinks : List Nat
  issued : Nat
  hasSource : Bool
  deriving DecidableEq, Repr

namespace Channel

variable {ω : Type}

def new (capacity : Nat) : Channel ω :=
  ⟨capacity, [], [0], 1, true⟩

def send (c : Channel ω) (item : ω) : Attempt (Channel ω) :=
  if !c.hasSource then .refused .readerGone
  else if c.items.length < c.capacity then .finished { c with items := c.items ++ [item] }
  else .waits

def receive (c : Channel ω) : Attempt (ω × Channel ω) :=
  match c.items with
  | item :: rest => .finished (item, { c with items := rest })
  | [] => if c.sinks = [] then .refused .writerGone else .waits

def cloneSink (c : Channel ω) : Nat × Channel ω :=
  (c.issued, { c with sinks := c.sinks ++ [c.issued], issued := c.issued + 1 })

def dropSink (c : Channel ω) (sink : Nat) : Channel ω :=
  { c with sinks := c.sinks.erase sink }

/-- Without its source a channel forgets its items. -/
def dropSource (c : Channel ω) : Channel ω :=
  { c with items := [], hasSource := false }

structure Outcome (ω α : Type) where
  result : Attempt (Except Error α)
  channel : Channel ω
  events : List Event

end Channel

/-- Runs a transfer on a channel that nobody else uses at that time. -/
def Transfer.runOn {ω α : Type} : Transfer ω α → Channel ω → Channel.Outcome ω α
  | done result, c => ⟨.finished result, c, []⟩
  | push item next, c =>
    match c.send item with
    | .finished c' => next.runOn c'
    | .refused fault => ⟨.finished (.error (.stream fault)), c, []⟩
    | .waits => ⟨.waits, c, []⟩
  | pop next, c =>
    match c.receive with
    | .finished (item, c') => (next item).runOn c'
    | .refused fault => ⟨.finished (.error (.stream fault)), c, []⟩
    | .waits => ⟨.waits, c, []⟩
  | note event next, c =>
    let o := next.runOn c
    ⟨o.result, o.channel, event :: o.events⟩

end Bitpack.Streaming
