import Bitpack.Streaming.Event

/-!
Transfers that push items into a stream, pop items from one and report events. A transfer is a value,
so that the same packing and unpacking runs on a queue, on a channel, or in steps between others.
-/
namespace Bitpack.Streaming

inductive Transfer (ω α : Type) where
  | done (result : Except Error α)
  | push (item : ω) (next : Transfer ω α)
  | pop (next : ω → Transfer ω α)
  | note (event : Event) (next : Transfer ω α)

namespace Transfer

variable {ω α β : Type}

def andThen (p : Transfer ω α) (f : α → Transfer ω β) : Transfer ω β :=
  match p with
  | done (.ok a) => f a
  | done (.error e) => done (.error e)
  | push item next => push item (next.andThen f)
  | pop next => pop fun item => (next item).andThen f
  | note event next => note event (next.andThen f)

instance : Monad (Transfer ω) where
  pure a := done (.ok a)
  bind := andThen

def lift (result : Except Error α) : Transfer ω α :=
  done result

def fail (e : Error) : Transfer ω α :=
  done (.error e)

def emit (item : ω) : Transfer ω Unit :=
  push item (done (.ok ()))

def receive : Transfer ω ω :=
  pop fun item => done (.ok item)

def report (event : Event) : Transfer ω Unit :=
  note event (done (.ok ()))

def reportAll (events : List Event) : Transfer ω Unit :=
  events.foldr note (done (.ok ()))

/-- What a transfer leaves behind: its result, the items still queued and its events in order. -/
structure Outcome (ω α : Type) where
  result : Except Error α
  items : List ω
  events : List Event

/-- Runs a transfer on a queue without limit, which is empty to a reader at its end. -/
def run : Transfer ω α → List ω → Outcome ω α
  | done result, items => ⟨result, items, []⟩
  | push item next, items => next.run (items ++ [item])
  | pop _, [] => ⟨.error (.stream .empty), [], []⟩
  | pop next, item :: items => (next item).run items
  | note event next, items =>
    let o := next.run items
    ⟨o.result, o.items, event :: o.events⟩

end Transfer

end Bitpack.Streaming
