import StockMarket.Lib.Table
import Mathlib.Logic.Relation

/-!
The event bus (`include/notification.hpp`).

The bus is a state machine whose actions are the sections that a thread runs under
`mutex_` or under `subscribers_mutex_`, any thread's in any order. The worker's dispatch
round, one section under `subscribers_mutex_`, is taken apart further: each callback
starts and returns, and threads that only need `mutex_` may run in between. Waiting for a
condition variable is an action that cannot be taken yet.

Events and callbacks are of arbitrary types. The in-flight counter is an integer, so that
a count below zero would show.
-/

namespace StockMarket

abbrev SubscriptionId := Nat

/-- A callback with the id that it is registered under. -/
abbrev Subscription (S : Type) := Sigma fun _ : SubscriptionId => S

/-- A dispatch round: the subscriptions that it found, and those whose callback it has
started. -/
structure Round (E S : Type) where
  event : E
  audience : List (Subscription S)
  started : List (Subscription S) := []

/-- Where the worker is in `run`. -/
inductive Worker (E S : Type) where
  | waiting
  | popped (event : E)
  | dispatching (round : Round E S) (left : List (Subscription S))
  | calling (round : Round E S) (left : List (Subscription S))
  | dispatched
  | stopped

/-- The bus. The last three fields are history variables, which no action reads but
`flushReturn` its own entry: what was published, the rounds that have ended, and what had
been published when each flush was called that has not returned. -/
structure NotificationBus (E S : Type) where
  queue : List E := []
  stopping : Bool := false
  inFlight : Int := 0
  subscribers : Table SubscriptionId S := ∅
  nextSubscriptionId : SubscriptionId := 1
  worker : Worker E S := .waiting
  published : List E := []
  rounds : List (Round E S) := []
  flushing : List (List E) := []

/-- The sections of the bus's methods and of its worker. -/
inductive BusAction (E S : Type) where
  | publish (event : E)
  | subscribe (subscriber : S)
  | unsubscribe (id : SubscriptionId)
  | flushCall
  | flushReturn (call : Nat)
  | destroy
  | take
  | lock (order : IterationOrder SubscriptionId S)
  | call
  | callReturn
  | unlock
  | done

variable {E S : Type}

/-- The worker takes this action. -/
def BusAction.ofWorker : BusAction E S → Bool
  | .publish _ | .subscribe _ | .unsubscribe _ | .flushCall | .flushReturn _ | .destroy => false
  | .take | .lock _ | .call | .callReturn | .unlock | .done => true

/-- The worker holds `subscribers_mutex_`. -/
def Worker.holdsSubscribers : Worker E S → Bool
  | .dispatching _ _ | .calling _ _ => true
  | .waiting | .popped _ | .dispatched | .stopped => false

namespace NotificationBus

/-- `queue_.empty() && in_flight_ == 0`. -/
def idle (b : NotificationBus E S) : Bool :=
  b.queue.isEmpty && b.inFlight == 0

/-- One section of `NotificationBus::run`; the first waits until there is an event or
the bus is stopping. -/
def work (b : NotificationBus E S) : BusAction E S → Option (NotificationBus E S)
  | .take =>
    match b.worker, b.queue with
    | .waiting, event :: queue =>
      some { b with queue, inFlight := b.inFlight + 1, worker := .popped event }
    | .waiting, [] => if b.stopping then some { b with worker := .stopped } else none
    | _, _ => none
  | .lock order =>
    match b.worker with
    | .popped event =>
      let audience := order.walk b.subscribers
      some { b with worker := .dispatching { event, audience } audience }
    | _ => none
  | .call =>
    match b.worker with
    | .dispatching round (subscription :: left) =>
      some { b with
        worker := .calling { round with started := round.started ++ [subscription] } left }
    | _ => none
  | .callReturn =>
    match b.worker with
    | .calling round left => some { b with worker := .dispatching round left }
    | _ => none
  | .unlock =>
    match b.worker with
    | .dispatching round [] =>
      some { b with worker := .dispatched, rounds := b.rounds ++ [round] }
    | _ => none
  | .done =>
    match b.worker with
    | .dispatched => some { b with inFlight := b.inFlight - 1, worker := .waiting }
    | _ => none
  | _ => none

/-- What an action makes of the bus, if it can be taken. -/
def perform (b : NotificationBus E S) : BusAction E S → Option (NotificationBus E S)
  | .publish event =>
    some { b with queue := b.queue ++ [event], published := b.published ++ [event] }
  | .subscribe subscriber =>
    if b.worker.holdsSubscribers then none
    else
      some { b with
        subscribers := Table.tryEmplace b.nextSubscriptionId subscriber b.subscribers
        nextSubscriptionId := b.nextSubscriptionId + 1 }
  | .unsubscribe id =>
    if b.worker.holdsSubscribers then none
    else some { b with subscribers := b.subscribers.erase id }
  | .flushCall => some { b with flushing := b.flushing ++ [b.published] }
  | .flushReturn call =>
    if call < b.flushing.length ∧ b.idle then
      some { b with flushing := b.flushing.eraseIdx call }
    else none
  | .destroy => some { b with stopping := true }
  | action => b.work action

/-- Some thread takes an action. -/
def Step (b b' : NotificationBus E S) : Prop :=
  ∃ action, b.perform action = some b'

/-- The bus gets from one state to the other under some schedule. -/
abbrev Reaches : NotificationBus E S → NotificationBus E S → Prop :=
  Relation.ReflTransGen Step

/-- The worker gets the bus from one state to the other while all others wait. -/
abbrev WorkerReaches : NotificationBus E S → NotificationBus E S → Prop :=
  Relation.ReflTransGen fun b b' => ∃ action, action.ofWorker ∧ b.perform action = some b'

end NotificationBus

end StockMarket
