import Bitpack.Proofs.Streaming.Run
import Bitpack.Streaming.Pipe

/-!
Pipes whose two ends agree. Where the consumer needs exactly the items that the producer pushes, no
interleaving loses, repeats or reorders one of them, none is stuck before both sides are done, and all
end alike.
-/
namespace Bitpack.Streaming

variable {ω α β : Type}

namespace Transfer

/-- A transfer that pops nothing. -/
def OnlyPushes : Transfer ω α → Prop
  | done _ => True
  | push _ next => next.OnlyPushes
  | pop _ => False
  | note _ next => next.OnlyPushes

def OnlyPops : Transfer ω α → Prop
  | done _ => True
  | push _ _ => False
  | pop next => ∀ item, (next item).OnlyPops
  | note _ next => next.OnlyPops

def pushes : Transfer ω α → List ω
  | done _ => []
  | push item next => item :: next.pushes
  | pop _ => []
  | note _ next => next.pushes

theorem OnlyPushes.bind {p : Transfer ω α} {f : α → Transfer ω β} (hp : p.OnlyPushes)
    (hf : ∀ a, (f a).OnlyPushes) : (p >>= f).OnlyPushes := by
  change (p.andThen f).OnlyPushes
  induction p with
  | done result =>
      cases result with
      | ok a => exact hf a
      | error e => trivial
  | push item next ih => exact ih hp
  | pop next ih => exact hp.elim
  | note event next ih => exact ih hp

theorem OnlyPops.bind {p : Transfer ω α} {f : α → Transfer ω β} (hp : p.OnlyPops)
    (hf : ∀ a, (f a).OnlyPops) : (p >>= f).OnlyPops := by
  change (p.andThen f).OnlyPops
  induction p with
  | done result =>
      cases result with
      | ok a => exact hf a
      | error e => trivial
  | push item next ih => exact hp.elim
  | pop next ih => exact fun item => ih item (hp item)
  | note event next ih => exact ih hp

theorem onlyPushes_reportAll (events : List Event) :
    (reportAll events : Transfer ω Unit).OnlyPushes := by
  induction events with
  | nil => trivial
  | cons event rest ih => exact ih

theorem OnlyPushes.settle_eq {p : Transfer ω α} (hp : p.OnlyPushes) (queue : List ω) :
    p.settle queue = ((p.settle []).1, queue ++ p.pushes) := by
  induction p generalizing queue with
  | done result => exact Prod.ext rfl (List.append_nil queue).symm
  | push item next ih =>
      have hfirst : (push item next).settle [] = ((next.settle []).1, [item] ++ next.pushes) :=
        ih hp [item]
      have hqueued : (push item next).settle queue =
          ((next.settle []).1, (queue ++ [item]) ++ next.pushes) :=
        ih hp (queue ++ [item])
      simp [hfirst, hqueued, pushes]
  | pop next ih => exact hp.elim
  | note event next ih => exact ih hp queue

end Transfer

namespace Pipe

/-- What steps lead to, with all the items that the consumer took on the way. -/
inductive Reaches (start : Pipe ω α β) : List ω → Pipe ω α β → Prop
  | start : Reaches start [] start
  | step {received taken : List ω} {s s' : Pipe ω α β} :
      Reaches start received s → Step s taken s' → Reaches start (received ++ taken) s'

theorem Reaches.trans {p q r : Pipe ω α β} {received received' : List ω}
    (hp : Reaches p received q) (hq : Reaches q received' r) :
    Reaches p (received ++ received') r := by
  induction hq with
  | start => simpa using hp
  | step _ hstep ih => simpa using ih.step hstep

theorem Step.reaches {s s' : Pipe ω α β} {taken : List ω} (hstep : Step s taken s') :
    Reaches s taken s' :=
  Reaches.start.step hstep

/-- The items taken so far, those in flight and those that are still to be pushed are the same list at
all times, and both sides are on their way to their results. -/
structure Carries (words : List ω) (a : α) (b : β) (received : List ω) (s : Pipe ω α β) : Prop where
  bounded : s.items.length ≤ s.capacity
  onlyPushes : s.producer.OnlyPushes
  onlyPops : s.consumer.OnlyPops
  producer_ends : (s.producer.settle []).1 = .ok a
  consumer_ends : s.consumer.settle (s.items ++ s.producer.pushes) = (.ok b, [])
  words_eq : received ++ s.items ++ s.producer.pushes = words

section

variable {words received taken : List ω} {a : α} {b : β} {s s' : Pipe ω α β}

theorem Carries.step (h : Carries words a b received s) (hstep : Step s taken s') :
    Carries words a b (received ++ taken) s' := by
  obtain ⟨hbounded, hpushes, hpops, hproducer, hconsumer, hwords⟩ := h
  cases hstep with
  | produceNote =>
      exact ⟨hbounded, hpushes, hpops, hproducer, hconsumer, by rw [List.append_nil]; exact hwords⟩
  | consumeNote =>
      exact ⟨hbounded, hpushes, hpops, hproducer, hconsumer, by rw [List.append_nil]; exact hwords⟩
  | @send capacity items item next consumer hroom =>
      have hnext : (Transfer.push item next).settle [] = ((next.settle []).1, [item] ++ next.pushes) :=
        Transfer.OnlyPushes.settle_eq (p := next) hpushes [item]
      simp only [hnext] at hproducer
      refine ⟨by rw [List.length_append]; exact hroom, hpushes, hpops, hproducer, ?_, ?_⟩
      · simpa [Transfer.pushes] using hconsumer
      · simpa [Transfer.pushes] using hwords
  | @receive capacity items item producer next =>
      refine ⟨Nat.le_of_succ_le hbounded, hpushes, hpops item, hproducer, hconsumer, ?_⟩
      simpa using hwords
  | @handOver item producer next =>
      have hnext : (Transfer.push item producer).settle [] =
          ((producer.settle []).1, [item] ++ producer.pushes) :=
        Transfer.OnlyPushes.settle_eq (p := producer) hpushes [item]
      simp only [hnext] at hproducer
      exact ⟨hbounded, hpushes, hpops item, hproducer, hconsumer, by simpa [Transfer.pushes] using hwords⟩
  | @readerGone capacity items item next result =>
      -- A consumer that is done has left nothing to be pushed.
      have hleft : items ++ item :: next.pushes = [] := congrArg Prod.snd hconsumer
      simp at hleft
  | @writerGone capacity result next => cases hconsumer

theorem Carries.of_reaches {start : Pipe ω α β} (hstart : Carries words a b [] start)
    (hreaches : Reaches start received s) : Carries words a b received s := by
  induction hreaches with
  | start => exact hstart
  | step _ hstep ih => exact ih.step hstep

/-- A side that waits waits for the other one. -/
theorem Carries.progress (h : Carries words a b received s) :
    (∃ result result', s.producer = .done result ∧ s.consumer = .done result') ∨
      ∃ taken s', Step s taken s' := by
  obtain ⟨capacity, items, producer, consumer⟩ := s
  obtain ⟨-, hpushes, hpops, -, hconsumer, -⟩ := h
  cases producer with
  | note event next => exact .inr ⟨_, _, .produceNote⟩
  | pop next => exact hpushes.elim
  | done result =>
      cases consumer with
      | done result' => exact .inl ⟨result, result', rfl, rfl⟩
      | push item next => exact hpops.elim
      | note event next => exact .inr ⟨_, _, .consumeNote⟩
      | pop next =>
          cases items with
          | nil => cases hconsumer
          | cons item rest => exact .inr ⟨_, _, .receive⟩
  | push item next =>
      cases consumer with
      | done result' => exact .inr ⟨_, _, .readerGone⟩
      | push item next => exact hpops.elim
      | note event next => exact .inr ⟨_, _, .consumeNote⟩
      | pop next =>
          cases items with
          | cons item rest => exact .inr ⟨_, _, .receive⟩
          | nil =>
              rcases Nat.eq_zero_or_pos capacity with rfl | hpos
              · exact .inr ⟨_, _, .handOver⟩
              · exact .inr ⟨_, _, .send hpos⟩

theorem Carries.of_done (h : Carries words a b received s) {result : Except Error α}
    {result' : Except Error β} (hproducer : s.producer = .done result)
    (hconsumer : s.consumer = .done result') :
    result = .ok a ∧ result' = .ok b ∧ s.items = [] ∧ received = words := by
  obtain ⟨capacity, items, producer, consumer⟩ := s
  cases hproducer
  cases hconsumer
  obtain ⟨hresult', hitems⟩ := Prod.mk.inj h.consumer_ends
  have hempty : items = [] := (List.append_nil items).symm.trans hitems
  refine ⟨h.producer_ends, hresult', hempty, ?_⟩
  simpa [Transfer.pushes, hempty] using h.words_eq

end

theorem step_after_last_iff {capacity : Nat} {result : Except Error α} {taken : List ω}
    {s : Pipe ω α ω} :
    Step ⟨capacity, [], .done result, Transfer.receive⟩ taken s ↔
      taken = [] ∧ s = ⟨capacity, [], .done result, .done (.error (.stream .writerGone))⟩ := by
  constructor
  · intro hstep
    cases hstep
    exact ⟨rfl, rfl⟩
  · rintro ⟨rfl, rfl⟩
    exact .writerGone

def Ahead (capacity : Nat) (producer : Transfer ω α) (items : List ω) : Prop :=
  match producer with
  | .done _ => True
  | .push _ _ => capacity ≤ items.length
  | .pop _ => False
  | .note _ _ => False

theorem reaches_fill (capacity : Nat) {producer : Transfer ω α} (hpushes : producer.OnlyPushes)
    (items : List ω) (consumer : Transfer ω β) :
    (fill capacity producer items).1.OnlyPushes ∧
      Ahead capacity (fill capacity producer items).1 (fill capacity producer items).2 ∧
      Reaches ⟨capacity, items, producer, consumer⟩ []
        ⟨capacity, (fill capacity producer items).2, (fill capacity producer items).1, consumer⟩ := by
  induction producer generalizing items with
  | done result => exact ⟨trivial, trivial, .start⟩
  | pop next ih => exact hpushes.elim
  | note event next ih =>
      obtain ⟨hnext, hahead, hreaches⟩ := ih hpushes items
      exact ⟨hnext, hahead, Step.produceNote.reaches.trans hreaches⟩
  | push item next ih =>
      unfold fill
      split
      · rename_i hroom
        obtain ⟨hnext, hahead, hreaches⟩ := ih hpushes (items ++ [item])
        exact ⟨hnext, hahead, (Step.send hroom).reaches.trans hreaches⟩
      · rename_i hfull
        exact ⟨hpushes, Nat.le_of_not_lt hfull, .start⟩

theorem reaches_abandoned {producer : Transfer ω α} (hpushes : producer.OnlyPushes) (capacity : Nat)
    (items : List ω) (result : Except Error β) :
    Reaches ⟨capacity, items, producer, .done result⟩ []
      ⟨capacity, items, .done (abandoned producer), .done result⟩ := by
  induction producer with
  | done result => exact .start
  | push item next ih => exact Step.readerGone.reaches
  | pop next ih => exact hpushes.elim
  | note event next ih => exact Step.produceNote.reaches.trans (ih hpushes)

theorem reaches_run {capacity : Nat} {consumer : Transfer ω β} (hpops : consumer.OnlyPops)
    {producer : Transfer ω α} (hpushes : producer.OnlyPushes) {items : List ω}
    (hahead : Ahead capacity producer items) :
    ∃ received left, Reaches ⟨capacity, items, producer, consumer⟩ received
      ⟨capacity, left, .done (run capacity consumer (producer, items)).1,
        .done (run capacity consumer (producer, items)).2⟩ := by
  induction consumer generalizing producer items with
  | done result => exact ⟨[], items, reaches_abandoned hpushes capacity items result⟩
  | push item next ih => exact hpops.elim
  | note event next ih =>
      obtain ⟨received, left, hreaches⟩ := ih hpops hpushes hahead
      exact ⟨_, left, Step.consumeNote.reaches.trans hreaches⟩
  | pop next ih =>
      cases items with
      | cons item rest =>
          obtain ⟨hfilled, hahead', hfill⟩ := reaches_fill capacity hpushes rest (next item)
          obtain ⟨received, left, hreaches⟩ := ih item (hpops item) hfilled hahead'
          exact ⟨_, left, Step.receive.reaches.trans (hfill.trans hreaches)⟩
      | nil =>
          cases producer with
          | done result => exact ⟨_, [], Step.writerGone.reaches⟩
          | pop next => exact hpushes.elim
          | note event next => exact hahead.elim
          | push item producer =>
              -- The producer would have gone on if there were room for one item.
              obtain rfl : capacity = 0 := Nat.le_zero.mp hahead
              obtain ⟨hfilled, hahead', hfill⟩ :=
                reaches_fill 0 (show producer.OnlyPushes from hpushes) [] (next item)
              obtain ⟨received, left, hreaches⟩ := ih item (hpops item) hfilled hahead'
              exact ⟨_, left, Step.handOver.reaches.trans (hfill.trans hreaches)⟩

/-- The schedule that is run is one of the interleavings. -/
theorem reaches_results {p : Pipe ω α β} (hpushes : p.producer.OnlyPushes)
    (hpops : p.consumer.OnlyPops) :
    ∃ received left, Reaches p received
      ⟨p.capacity, left, .done p.results.1, .done p.results.2⟩ := by
  obtain ⟨hfilled, hahead, hfill⟩ := reaches_fill p.capacity hpushes p.items p.consumer
  obtain ⟨received, left, hreaches⟩ := reaches_run hpops hfilled hahead
  exact ⟨received, left, hfill.trans hreaches⟩

theorem Carries.results_eq {words : List ω} {a : α} {b : β} {p : Pipe ω α β}
    (h : Carries words a b [] p) : p.results = (.ok a, .ok b) := by
  obtain ⟨received, left, hreaches⟩ := reaches_results h.onlyPushes h.onlyPops
  obtain ⟨hproducer, hconsumer, -, -⟩ := (h.of_reaches hreaches).of_done rfl rfl
  exact Prod.ext hproducer hconsumer

end Pipe

end Bitpack.Streaming
