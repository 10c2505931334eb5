import Bitpack.Streaming.Transfer

/-!
Runs of transfers on a queue, without their events: every effect of a transfer read as what it makes
of the queue.
-/
namespace Bitpack.Streaming.Transfer

variable {ω α β : Type}

/-- The result of a transfer on a queue, and the items that it leaves. -/
def settle (p : Transfer ω α) (items : List ω) : Except Error α × List ω :=
  ((p.run items).result, (p.run items).items)

@[simp] theorem settle_pure (a : α) (items : List ω) :
    settle (pure a : Transfer ω α) items = (.ok a, items) :=
  rfl

@[simp] theorem settle_lift (result : Except Error α) (items : List ω) :
    settle (lift result : Transfer ω α) items = (result, items) :=
  rfl

@[simp] theorem settle_fail (e : Error) (items : List ω) :
    settle (fail e : Transfer ω α) items = (.error e, items) :=
  rfl

@[simp] theorem settle_emit (item : ω) (items : List ω) :
    settle (emit item) items = (.ok (), items ++ [item]) :=
  rfl

@[simp] theorem settle_receive_nil : settle (receive : Transfer ω ω) [] = (.error (.stream .empty), []) :=
  rfl

@[simp] theorem settle_receive_cons (item : ω) (items : List ω) :
    settle receive (item :: items) = (.ok item, items) :=
  rfl

@[simp] theorem settle_report (event : Event) (items : List ω) :
    settle (report event : Transfer ω Unit) items = (.ok (), items) :=
  rfl

@[simp] theorem settle_reportAll (events : List Event) (items : List ω) :
    settle (reportAll events : Transfer ω Unit) items = (.ok (), items) := by
  induction events with
  | nil => rfl
  | cons event rest ih => exact ih

theorem settle_bind (p : Transfer ω α) (f : α → Transfer ω β) (items : List ω) :
    settle (p >>= f) items =
      match settle p items with
      | (.ok a, rest) => settle (f a) rest
      | (.error e, rest) => (.error e, rest) := by
  change settle (p.andThen f) items = _
  induction p generalizing items with
  | done result => cases result <;> rfl
  | push item next ih => exact ih (items ++ [item])
  | pop next ih =>
      cases items with
      | nil => rfl
      | cons item rest => exact ih item rest
  | note event next ih => exact ih items

theorem settle_bind_of_ok {p : Transfer ω α} {f : α → Transfer ω β} {items rest : List ω} {a : α}
    (h : settle p items = (.ok a, rest)) : settle (p >>= f) items = settle (f a) rest := by
  rw [settle_bind, h]

theorem settle_bind_of_error {p : Transfer ω α} {f : α → Transfer ω β} {items rest : List ω}
    {e : Error} (h : settle p items = (.error e, rest)) :
    settle (p >>= f) items = (.error e, rest) := by
  rw [settle_bind, h]

end Bitpack.Streaming.Transfer
