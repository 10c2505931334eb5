import Bitpack.Streaming.Transfer

/-!
A producer and a consumer at the two ends of a bounded channel. Either end closes when its transfer
is done: a producer then finds no reader, and a consumer finds no writer once the items in flight
are taken. `Step` allows every interleaving; `run` is the one in which the producer goes first
whenever it can.
-/
namespace Bitpack.Streaming

structure Pipe (ω α β : Type) where
  capacity : Nat
  items : List ω
  producer : Transfer ω α
  consumer : Transfer ω β

namespace Pipe

variable {ω α β : Type}

/-- One step of one side, or of both where an item goes from hand to hand, and the items that the
consumer takes in it. How long the reader stays after the consumer is done is left open, so that a
push may still find room. -/
inductive Step : Pipe ω α β → List ω → Pipe ω α β → Prop where
  | produceNote {capacity : Nat} {items : List ω} {event : Event} {next : Transfer ω α}
      {consumer : Transfer ω β} :
      Step ⟨capacity, items, .note event next, consumer⟩ [] ⟨capacity, items, next, consumer⟩
  | consumeNote {capacity : Nat} {items : List ω} {event : Event} {producer : Transfer ω α}
      {next : Transfer ω β} :
      Step ⟨capacity, items, producer, .note event next⟩ [] ⟨capacity, items, producer, next⟩
  | send {capacity : Nat} {items : List ω} {item : ω} {next : Transfer ω α}
      {consumer : Transfer ω β} :
      items.length < capacity →
      Step ⟨capacity, items, .push item next, consumer⟩ []
        ⟨capacity, items ++ [item], next, consumer⟩
  | receive {capacity : Nat} {items : List ω} {item : ω} {producer : Transfer ω α}
      {next : ω → Transfer ω β} :
      Step ⟨capacity, item :: items, producer, .pop next⟩ [item]
        ⟨capacity, items, producer, next item⟩
  | handOver {item : ω} {producer : Transfer ω α} {next : ω → Transfer ω β} :
      Step ⟨0, [], .push item producer, .pop next⟩ [item] ⟨0, [], producer, next item⟩
  | readerGone {capacity : Nat} {items : List ω} {item : ω} {next : Transfer ω α}
      {result : Except Error β} :
      Step ⟨capacity, items, .push item next, .done result⟩ []
        ⟨capacity, items, .done (.error (.stream .readerGone)), .done result⟩
  | writerGone {capacity : Nat} {result : Except Error α} {next : ω → Transfer ω β} :
      Step ⟨capacity, [], .done result, .pop next⟩ []
        ⟨capacity, [], .done result, .done (.error (.stream .writerGone))⟩

/-- The producer after as many pushes as there is room for, and the items in flight. -/
def fill (capacity : Nat) : Transfer ω α → List ω → Transfer ω α × List ω
  | .done result, items => (.done result, items)
  | .note _ next, items => fill capacity next items
  | .pop next, items => (.pop next, items)
  | .push item next, items =>
    if items.length < capacity then fill capacity next (items ++ [item])
    else (.push item next, items)

def abandoned : Transfer ω α → Except Error α
  | .done result => result
  | .note _ next => abandoned next
  | .push _ _ => .error (.stream .readerGone)
  | .pop _ => .error (.stream .writerGone)

/-- Both results, the producer's first. It pushes ahead before every step of the consumer. -/
def run (capacity : Nat) :
    Transfer ω β → Transfer ω α × List ω → Except Error α × Except Error β
  | .done result, (producer, _) => (abandoned producer, result)
  | .note _ next, state => run capacity next state
  | .push _ next, state => run capacity next state
  | .pop next, (producer, item :: rest) => run capacity (next item) (fill capacity producer rest)
  | .pop next, (.push item producer, []) => run capacity (next item) (fill capacity producer [])
  | .pop _, (producer, []) => (abandoned producer, .error (.stream .writerGone))

def results (p : Pipe ω α β) : Except Error α × Except Error β :=
  run p.capacity p.consumer (fill p.capacity p.producer p.items)

end Pipe

end Bitpack.Streaming
