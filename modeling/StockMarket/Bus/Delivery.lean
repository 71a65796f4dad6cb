import StockMarket.NotificationBus

/-!
What the event bus guarantees under every schedule (`notificationBus_delivers`).

The rounds that have ended, the event that the worker holds and the queue are always the
published events, in order (`BusInvariant.inOrder`), and the in-flight counter is one
exactly while the worker has an event that it has not counted down. So an empty queue
with a count of zero means that all rounds have ended. The table of subscribers does not
change in a round, so whoever is registered in it is called exactly once, and whoever has
unsubscribed is in no later round.
-/

namespace StockMarket

variable {E S : Type}

/-! ### Moves of the bus -/

namespace NotificationBus

/-- What an action that can be taken makes of the bus. -/
inductive Moved (b : NotificationBus E S) : BusAction E S → NotificationBus E S → Prop where
  | publish (event : E) : Moved b (.publish event)
      { b with queue := b.queue ++ [event], published := b.published ++ [event] }
  | subscribe (subscriber : S) (free : b.worker.holdsSubscribers = false) :
      Moved b (.subscribe subscriber)
        { b with
          subscribers := Table.tryEmplace b.nextSubscriptionId subscriber b.subscribers
          nextSubscriptionId := b.nextSubscriptionId + 1 }
  | unsubscribe (id : SubscriptionId) (free : b.worker.holdsSubscribers = false) :
      Moved b (.unsubscribe id) { b with subscribers := b.subscribers.erase id }
  | flushCall : Moved b .flushCall { b with flushing := b.flushing ++ [b.published] }
  | flushReturn (call : Nat) (known : call < b.flushing.length) (empty : b.queue = [])
      (counted : b.inFlight = 0) :
      Moved b (.flushReturn call) { b with flushing := b.flushing.eraseIdx call }
  | destroy : Moved b .destroy { b with stopping := true }
  | take (event : E) (queue : List E) (here : b.worker = .waiting)
      (next : b.queue = event :: queue) :
      Moved b .take { b with queue, inFlight := b.inFlight + 1, worker := .popped event }
  | stop (here : b.worker = .waiting) (empty : b.queue = []) (stopping : b.stopping = true) :
      Moved b .take { b with worker := .stopped }
  | lock (event : E) (order : IterationOrder SubscriptionId S) (here : b.worker = .popped event) :
      Moved b (.lock order)
        { b with
          worker := .dispatching { event, audience := order.walk b.subscribers }
            (order.walk b.subscribers) }
  | call (round : Round E S) (subscription : Subscription S) (left : List (Subscription S))
      (here : b.worker = .dispatching round (subscription :: left)) :
      Moved b .call
        { b with
          worker := .calling { round with started := round.started ++ [subscription] } left }
  | callReturn (round : Round E S) (left : List (Subscription S))
      (here : b.worker = .calling round left) :
      Moved b .callReturn { b with worker := .dispatching round left }
  | unlock (round : Round E S) (here : b.worker = .dispatching round []) :
      Moved b .unlock { b with worker := .dispatched, rounds := b.rounds ++ [round] }
  | done (here : b.worker = .dispatched) :
      Moved b .done { b with inFlight := b.inFlight - 1, worker := .waiting }

/-- An action of the worker that can be taken. -/
theorem moved_of_work {b b' : NotificationBus E S} {action : BusAction E S}
    (works : b.work action = some b') : Moved b action b' := by
  cases action with
  | take =>
      simp only [work] at works
      split at works
      · rename_i here next
        cases works
        exact .take _ _ here next
      · rename_i here empty
        split at works
        · rename_i stopping
          cases works
          exact .stop here empty stopping
        · cases works
      · cases works
  | lock order =>
      simp only [work] at works
      split at works
      · rename_i here
        cases works
        exact .lock _ order here
      · cases works
  | call =>
      simp only [work] at works
      split at works
      · rename_i here
        cases works
        exact .call _ _ _ here
      · cases works
  | callReturn =>
      simp only [work] at works
      split at works
      · rename_i here
        cases works
        exact .callReturn _ _ here
      · cases works
  | unlock =>
      simp only [work] at works
      split at works
      · rename_i here
        cases works
        exact .unlock _ here
      · cases works
  | done =>
      simp only [work] at works
      split at works
      · rename_i here
        cases works
        exact .done here
      · cases works
  | _ => cases works

/-- An action that can be taken. -/
theorem moved_of_perform {b b' : NotificationBus E S} {action : BusAction E S}
    (performs : b.perform action = some b') : Moved b action b' := by
  cases action with
  | publish event =>
      cases performs
      exact .publish event
  | subscribe subscriber =>
      simp only [perform] at performs
      split at performs
      · cases performs
      · rename_i free
        cases performs
        exact .subscribe subscriber (Bool.not_eq_true _ ▸ free)
  | unsubscribe id =>
      simp only [perform] at performs
      split at performs
      · cases performs
      · rename_i free
        cases performs
        exact .unsubscribe id (Bool.not_eq_true _ ▸ free)
  | flushCall =>
      cases performs
      exact .flushCall
  | flushReturn call =>
      simp only [perform] at performs
      split at performs
      · rename_i returns
        cases performs
        obtain ⟨known, idle⟩ := returns
        obtain ⟨empty, counted⟩ := Bool.and_eq_true_iff.mp idle
        exact .flushReturn call known (List.isEmpty_iff.mp empty) (beq_iff_eq.mp counted)
      · cases performs
  | destroy =>
      cases performs
      exact .destroy
  | take => exact moved_of_work performs
  | lock order => exact moved_of_work performs
  | call => exact moved_of_work performs
  | callReturn => exact moved_of_work performs
  | unlock => exact moved_of_work performs
  | done => exact moved_of_work performs

end NotificationBus

/-! ### The invariant -/

namespace Worker

/-- The event that the worker has not delivered to everyone. -/
def held : Worker E S → List E
  | .popped event => [event]
  | .dispatching round _ | .calling round _ => [round.event]
  | .waiting | .dispatched | .stopped => []

/-- What the worker has to count down. -/
def uncounted : Worker E S → Int
  | .popped _ | .dispatching _ _ | .calling _ _ | .dispatched => 1
  | .waiting | .stopped => 0

/-- The round in progress and who is still to be called in it. -/
def round : Worker E S → Option (Round E S × List (Subscription S))
  | .dispatching round left | .calling round left => some (round, left)
  | .waiting | .popped _ | .dispatched | .stopped => none

end Worker

/-- Everyone who was registered was called once, in some order. -/
structure Round.Complete (round : Round E S) : Prop where
  everyone : round.started = round.audience
  once : (round.audience.map Sigma.fst).Nodup

/-- The round in progress: nobody is left out, and the table of subscribers is still the
one that the round found. -/
structure RoundInvariant (subscribers : Table SubscriptionId S) (round : Round E S)
    (left : List (Subscription S)) : Prop where
  everyone : round.started ++ left = round.audience
  once : (round.audience.map Sigma.fst).Nodup
  unchanged : round.audience.Perm subscribers.entries

structure BusInvariant (b : NotificationBus E S) : Prop where
  inFlight : b.inFlight = b.worker.uncounted
  inOrder : b.rounds.map Round.event ++ b.worker.held ++ b.queue = b.published
  complete : ∀ round ∈ b.rounds, round.Complete
  current : ∀ entry ∈ b.worker.round, RoundInvariant b.subscribers entry.1 entry.2
  issued : ∀ id ∈ b.subscribers, id < b.nextSubscriptionId
  flushing : ∀ before ∈ b.flushing, before <+: b.published
  stopping : b.worker = .stopped → b.stopping = true

namespace BusInvariant

open NotificationBus

variable {b b' : NotificationBus E S}

theorem start : BusInvariant ({} : NotificationBus E S) where
  inFlight := rfl
  inOrder := rfl
  complete := by simp
  current := by
    intro entry mem
    cases mem
  issued := by
    intro id mem
    cases mem
  flushing := by simp
  stopping := by
    intro stopped
    cases stopped

/-- While nobody holds the table of subscribers, no round is in progress. -/
theorem round_of_free {w : Worker E S} (free : w.holdsSubscribers = false) : w.round = none := by
  cases w <;> first | rfl | cases free

/-- **Every action keeps the invariant.** -/
theorem step {action : BusAction E S} (inv : BusInvariant b) (moved : Moved b action b') :
    BusInvariant b' := by
  have order := inv.inOrder
  have counter := inv.inFlight
  cases moved with
  | publish event =>
      refine { inv with inOrder := ?_, flushing := fun before mem => ?_ }
      · rw [← List.append_assoc, order]
      · exact (inv.flushing before mem).trans (List.prefix_append _ _)
  | subscribe subscriber free =>
      refine { inv with current := fun entry mem => ?_, issued := fun id mem => ?_ }
      · rw [round_of_free free] at mem
        cases mem
      · by_cases new : id = b.nextSubscriptionId
        · rw [new]
          exact Nat.lt_succ_self _
        · rw [← AList.lookup_isSome, Table.lookup_tryEmplace_ne new, AList.lookup_isSome] at mem
          exact (inv.issued id mem).trans (Nat.lt_succ_self _)
  | unsubscribe id free =>
      refine { inv with current := fun entry mem => ?_, issued := fun id' mem => ?_ }
      · rw [round_of_free free] at mem
        cases mem
      · exact inv.issued id' (AList.mem_erase.mp mem).2
  | flushCall =>
      refine { inv with flushing := fun before mem => ?_ }
      rcases List.mem_append.mp mem with old | new
      · exact inv.flushing before old
      · have empty := List.mem_singleton.mp new
        exact empty ▸ List.prefix_rfl
  | flushReturn call known empty counted =>
      exact { inv with
        flushing := fun before mem => inv.flushing before (List.mem_of_mem_eraseIdx mem) }
  | destroy => exact { inv with stopping := fun _ => rfl }
  | take event queue here next =>
      rw [here] at order counter
      refine { inv with inFlight := ?_, inOrder := ?_, current := nofun, stopping := nofun }
      · rw [counter]
        rfl
      · rw [next] at order
        simpa [Worker.held] using order
  | stop here empty stopping =>
      rw [here] at order counter
      exact { inv with
        inFlight := counter
        inOrder := order
        current := nofun
        stopping := fun _ => stopping }
  | lock event order' here =>
      rw [here] at order counter
      refine { inv with inFlight := counter, inOrder := order, current := ?_, stopping := nofun }
      rintro entry ⟨⟩
      exact ⟨rfl, order'.nodup_keys _, order'.perm _⟩
  | call round subscription left here =>
      have current := inv.current (round, subscription :: left) (by rw [here]; rfl)
      rw [here] at order counter
      refine { inv with inFlight := counter, inOrder := order, current := ?_, stopping := nofun }
      rintro entry ⟨⟩
      refine ⟨?_, current.once, current.unchanged⟩
      rw [← current.everyone, List.append_assoc, List.singleton_append]
  | callReturn round left here =>
      have current := inv.current (round, left) (by rw [here]; rfl)
      rw [here] at order counter
      refine { inv with inFlight := counter, inOrder := order, current := ?_, stopping := nofun }
      rintro entry ⟨⟩
      exact current
  | unlock round here =>
      have current := inv.current (round, []) (by rw [here]; rfl)
      rw [here] at order counter
      refine { inv with
        inFlight := counter
        inOrder := ?_
        complete := fun r mem => ?_
        current := nofun
        stopping := nofun }
      · simpa [Worker.held] using order
      · rcases List.mem_append.mp mem with old | new
        · exact inv.complete r old
        · obtain rfl := List.mem_singleton.mp new
          exact ⟨by rw [← current.everyone, List.append_nil], current.once⟩
  | done here =>
      rw [here] at order counter
      refine { inv with inFlight := ?_, inOrder := order, current := nofun, stopping := nofun }
      rw [counter]
      rfl

/-- **Every reachable state has the invariant.** -/
theorem reached (run : Reaches {} b) : BusInvariant b := by
  induction run with
  | refl => exact .start
  | tail _ step ih =>
      obtain ⟨action, performs⟩ := step
      exact ih.step (moved_of_perform performs)

/-- Nothing is queued and nothing is in flight: all published events are delivered. -/
theorem delivered (inv : BusInvariant b) (empty : b.queue = []) (counted : b.inFlight = 0) :
    b.rounds.map Round.event = b.published := by
  have idle : b.worker.uncounted = 0 := inv.inFlight.symm.trans counted
  have held : b.worker.held = [] := by
    cases here : b.worker <;> rw [here] at idle <;> first | rfl | cases idle
  have order := inv.inOrder
  rw [held, empty, List.append_nil, List.append_nil] at order
  exact order

end BusInvariant

/-! ### Callbacks -/

/-- The subscriptions whose callback the worker has started in the round in progress. -/
def Worker.started : Worker E S → List (Subscription S)
  | .dispatching round _ | .calling round _ => round.started
  | .waiting | .popped _ | .dispatched | .stopped => []

namespace NotificationBus

/-- Every callback that was started, oldest first. -/
def calls (b : NotificationBus E S) : List (Subscription S) :=
  b.rounds.flatMap Round.started ++ b.worker.started

variable {b b' : NotificationBus E S} {action : BusAction E S}

/-- An action starts no callback, or that of a registered subscriber. -/
theorem calls_of_moved (inv : BusInvariant b) (moved : Moved b action b') :
    b'.calls = b.calls ∨ ∃ subscription ∈ b.subscribers.entries,
      b'.calls = b.calls ++ [subscription] := by
  unfold calls
  cases moved with
  | publish event => exact .inl rfl
  | subscribe subscriber free => exact .inl rfl
  | unsubscribe id free => exact .inl rfl
  | flushCall => exact .inl rfl
  | flushReturn call known empty counted => exact .inl rfl
  | destroy => exact .inl rfl
  | take event queue here next => exact .inl (by rw [here]; rfl)
  | stop here empty stopping => exact .inl (by rw [here]; rfl)
  | lock event order here => exact .inl (by rw [here]; rfl)
  | call round subscription left here =>
      have current := inv.current (round, subscription :: left) (by rw [here]; rfl)
      refine .inr ⟨subscription, current.unchanged.subset ?_, ?_⟩
      · rw [← current.everyone]
        exact List.mem_append_right _ List.mem_cons_self
      · rw [here, List.append_assoc]
        rfl
  | callReturn round left here => exact .inl (by rw [here]; rfl)
  | unlock round here =>
      refine .inl ?_
      rw [here, List.flatMap_append, List.append_assoc]
      simp [Worker.started]
  | done here => exact .inl (by rw [here]; rfl)

/-- The id was given out, and nobody is registered under it. -/
def Gone (id : SubscriptionId) (b : NotificationBus E S) : Prop :=
  id < b.nextSubscriptionId ∧ id ∉ b.subscribers

theorem Gone.step {id : SubscriptionId} (gone : Gone id b) (moved : Moved b action b') :
    Gone id b' := by
  cases moved with
  | subscribe subscriber free =>
      refine ⟨gone.1.trans (Nat.lt_succ_self _), fun mem => gone.2 ?_⟩
      rw [← AList.lookup_isSome, Table.lookup_tryEmplace_ne gone.1.ne, AList.lookup_isSome] at mem
      exact mem
  | unsubscribe other free => exact ⟨gone.1, fun mem => gone.2 (AList.mem_erase.mp mem).2⟩
  | _ => exact gone

/-- A callback whose subscription is gone is not started any more. -/
theorem Gone.calls_step {id : SubscriptionId} (gone : Gone id b) (inv : BusInvariant b)
    (moved : Moved b action b') :
    (b'.calls.map Sigma.fst).count id = (b.calls.map Sigma.fst).count id := by
  rcases calls_of_moved inv moved with same | ⟨subscription, mem, more⟩
  · rw [same]
  · have other : subscription.1 ≠ id := by
      rintro rfl
      exact gone.2 (AList.mem_keys.mpr (List.mem_map_of_mem mem))
    rw [more, List.map_append, List.count_append, List.map_singleton,
      List.count_singleton, if_neg (by simpa using other), Nat.add_zero]

theorem Gone.calls_run {id : SubscriptionId} (gone : Gone id b) (inv : BusInvariant b)
    (run : Reaches b b') : (b'.calls.map Sigma.fst).count id
    = (b.calls.map Sigma.fst).count id := by
  suffices BusInvariant b' ∧ Gone id b' ∧
      (b'.calls.map Sigma.fst).count id = (b.calls.map Sigma.fst).count id from this.2.2
  induction run with
  | refl => exact ⟨inv, gone, rfl⟩
  | tail _ step ih =>
      obtain ⟨inv, gone, same⟩ := ih
      obtain ⟨action, performs⟩ := step
      have moved := moved_of_perform performs
      exact ⟨inv.step moved, gone.step moved, (gone.calls_step inv moved).trans same⟩

/-! ### Rounds -/

/-- The round of the given number has this audience, in progress or ended. -/
def Attends (number : Nat) (audience : List (Subscription S)) (b : NotificationBus E S) : Prop :=
  (b.rounds.length = number ∧ ∃ entry ∈ b.worker.round, entry.1.audience = audience) ∨
    ∃ round ∈ b.rounds[number]?, round.audience = audience

theorem Attends.step {number : Nat} {audience : List (Subscription S)}
    (attends : Attends number audience b) (moved : Moved b action b') :
    Attends number audience b' := by
  rcases attends with ⟨here, entry, mem, same⟩ | ended
  · cases moved with
    | take event queue at' next => rw [at'] at mem; cases mem
    | stop at' empty stopping => rw [at'] at mem; cases mem
    | lock event order at' => rw [at'] at mem; cases mem
    | call round subscription left at' =>
        rw [at'] at mem
        cases mem
        exact .inl ⟨here, _, rfl, same⟩
    | callReturn round left at' =>
        rw [at'] at mem
        cases mem
        exact .inl ⟨here, _, rfl, same⟩
    | unlock round at' =>
        rw [at'] at mem
        cases mem
        refine .inr ⟨round, ?_, same⟩
        rw [← here]
        exact List.getElem?_concat_length
    | done at' => rw [at'] at mem; cases mem
    | _ => exact .inl ⟨here, entry, mem, same⟩
  · cases moved with
    | unlock round at' =>
        obtain ⟨r, mem, same⟩ := ended
        exact .inr ⟨r, List.getElem?_append_left (List.getElem?_eq_some_iff.mp mem).1 ▸ mem, same⟩
    | _ => exact .inr ended

theorem Attends.run {number : Nat} {audience : List (Subscription S)}
    (attends : Attends number audience b) (run : Reaches b b') : Attends number audience b' := by
  induction run with
  | refl => exact attends
  | tail _ step ih =>
      obtain ⟨action, performs⟩ := step
      exact ih.step (moved_of_perform performs)

/-- These events are published, and delivered before the worker stops. -/
def Kept (events : List E) (b : NotificationBus E S) : Prop :=
  events <+: b.published ∧ (b.worker = .stopped → events <+: b.rounds.map Round.event)

theorem Kept.step {events : List E} (kept : Kept events b) (inv : BusInvariant b)
    (moved : Moved b action b') : Kept events b' := by
  obtain ⟨published, stopped⟩ := kept
  cases moved with
  | publish event => exact ⟨published.trans (List.prefix_append _ _), stopped⟩
  | stop here empty stopping =>
      have counted : b.inFlight = 0 := by rw [inv.inFlight, here]; rfl
      exact ⟨published, fun _ => (inv.delivered empty counted) ▸ published⟩
  | take event queue here next => exact ⟨published, nofun⟩
  | lock event order here => exact ⟨published, nofun⟩
  | call round subscription left here => exact ⟨published, nofun⟩
  | callReturn round left here => exact ⟨published, nofun⟩
  | unlock round here => exact ⟨published, nofun⟩
  | done here => exact ⟨published, nofun⟩
  | _ => exact ⟨published, stopped⟩

theorem Kept.run {events : List E} (kept : Kept events b) (inv : BusInvariant b)
    (run : Reaches b b') : Kept events b' := by
  suffices BusInvariant b' ∧ Kept events b' from this.2
  induction run with
  | refl => exact ⟨inv, kept⟩
  | tail _ step ih =>
      obtain ⟨inv, kept⟩ := ih
      obtain ⟨action, performs⟩ := step
      have moved := moved_of_perform performs
      exact ⟨inv.step moved, kept.step inv moved⟩

/-! ### The worker alone -/

/-- The worker calls who is left in its round and ends it. -/
theorem workerReaches_unlock : ∀ (left : List (Subscription S)) {b : NotificationBus E S}
    {round : Round E S}, b.worker = .dispatching round left →
      ∃ b', WorkerReaches b b' ∧ b'.worker = .dispatched ∧ b'.queue = b.queue ∧
        b'.published = b.published
  | [], b, round, here =>
      ⟨{ b with worker := .dispatched, rounds := b.rounds ++ [round] },
        .single ⟨.unlock, rfl, by simp [perform, work, here]⟩, rfl, rfl, rfl⟩
  | subscription :: left, b, round, here => by
      let called := { round with started := round.started ++ [subscription] }
      have start : b.perform .call = some { b with worker := .calling called left } := by
        simp [perform, work, here, called]
      obtain ⟨b', rest, ended, queue, published⟩ :=
        workerReaches_unlock left (b := { b with worker := .dispatching called left }) rfl
      exact ⟨b', .head ⟨.call, rfl, start⟩ (.head ⟨.callReturn, rfl, rfl⟩ rest), ended, queue,
        published⟩

/-- The worker gets back to where it waits for the next event. -/
theorem workerReaches_waiting (running : b.worker ≠ .stopped) :
    ∃ b', WorkerReaches b b' ∧ b'.worker = .waiting ∧ b'.queue = b.queue ∧
      b'.published = b.published := by
  have fromDispatched : ∀ {b : NotificationBus E S}, b.worker = .dispatched →
      ∃ b', WorkerReaches b b' ∧ b'.worker = .waiting ∧ b'.queue = b.queue ∧
        b'.published = b.published := by
    intro b here
    exact ⟨{ b with inFlight := b.inFlight - 1, worker := .waiting },
      .single ⟨.done, rfl, by simp [perform, work, here]⟩, rfl, rfl, rfl⟩
  have fromDispatching : ∀ {b : NotificationBus E S} {round left},
      b.worker = .dispatching round left → ∃ b', WorkerReaches b b' ∧ b'.worker = .waiting ∧
        b'.queue = b.queue ∧ b'.published = b.published := by
    intro b round left here
    obtain ⟨b₁, first, ended, queue₁, published₁⟩ := workerReaches_unlock left here
    obtain ⟨b₂, second, waits, queue₂, published₂⟩ := fromDispatched ended
    exact ⟨b₂, first.trans second, waits, queue₂.trans queue₁, published₂.trans published₁⟩
  cases here : b.worker with
  | waiting => exact ⟨b, .refl, here, rfl, rfl⟩
  | popped event =>
      let audience := b.subscribers.entries
      have start : b.perform (.lock .stored)
          = some { b with worker := .dispatching { event, audience } audience } := by
        simp [perform, work, here, audience, IterationOrder.stored]
      obtain ⟨b', rest, waits, queue, published⟩ := fromDispatching
        (b := { b with worker := .dispatching { event, audience } audience }) rfl
      exact ⟨b', .head ⟨.lock .stored, rfl, start⟩ rest, waits, queue, published⟩
  | dispatching round left => exact fromDispatching here
  | calling round left =>
      have start : b.perform .callReturn = some { b with worker := .dispatching round left } := by
        simp [perform, work, here]
      obtain ⟨b', rest, waits, queue, published⟩ := fromDispatching
        (b := { b with worker := .dispatching round left }) rfl
      exact ⟨b', .head ⟨.callReturn, rfl, start⟩ rest, waits, queue, published⟩
  | dispatched => exact fromDispatched here
  | stopped => exact absurd here running

/-- **The worker alone** delivers all that is queued. -/
theorem workerReaches_idle : ∀ (n : Nat) {b : NotificationBus E S}, b.queue.length = n →
    b.worker ≠ .stopped → ∃ b', WorkerReaches b b' ∧ b'.worker = .waiting ∧ b'.queue = [] ∧
      b'.published = b.published
  | 0, b, size, running => by
      obtain ⟨b', run, waits, queue, published⟩ := workerReaches_waiting running
      exact ⟨b', run, waits, queue.trans (List.length_eq_zero_iff.mp size), published⟩
  | n + 1, b, size, running => by
      obtain ⟨b₁, first, waits, queue₁, published₁⟩ := workerReaches_waiting running
      obtain ⟨event, queue, next⟩ := List.exists_cons_of_length_eq_add_one (queue₁ ▸ size)
      have start : b₁.perform .take = some
          { b₁ with queue, inFlight := b₁.inFlight + 1, worker := .popped event } := by
        simp [perform, work, waits, next]
      have fewer : queue.length = n := by
        rw [← queue₁, next, List.length_cons] at size
        exact Nat.succ.inj size
      obtain ⟨b₂, second, waits₂, queue₂, published₂⟩ := workerReaches_idle n
        (b := { b₁ with queue, inFlight := b₁.inFlight + 1, worker := .popped event }) fewer nofun
      exact ⟨b₂, first.trans (.head ⟨.take, rfl, start⟩ second), waits₂, queue₂,
        published₂.trans published₁⟩

theorem WorkerReaches.reaches (run : WorkerReaches b b') : Reaches b b' :=
  Relation.ReflTransGen.mono (fun _ _ ⟨action, _, performs⟩ => ⟨action, performs⟩) _ _ run

/-! ### Delivery -/

/-- What the bus guarantees in a state and whatever happens from there on. -/
structure Delivers (b : NotificationBus E S) : Prop where
  /-- The counter is zero or one, and one when it is counted down. -/
  inFlight : b.inFlight = 0 ∨ b.inFlight = 1
  noUnderflow : ∀ b', b.perform .done = some b' → b.inFlight = 1
  /-- Each published event has had its round, is held by the worker or is still queued. -/
  inOrder : b.rounds.map Round.event ++ b.worker.held ++ b.queue = b.published
  /-- A round that has ended called everyone in its audience once. -/
  complete : ∀ round ∈ b.rounds, round.Complete
  /-- Who is registered when a round begins is called in it once. -/
  registered : ∀ order b₁ b₂, b.perform (.lock order) = some b₁ → Reaches b₁ b₂ →
    ∀ id ∈ b.subscribers, ∀ round ∈ b₂.rounds[b.rounds.length]?,
      (round.started.map Sigma.fst).count id = 1
  /-- Nobody registers or unsubscribes while a round is in progress. -/
  unchanged : ∀ entry ∈ b.worker.round, entry.1.audience.Perm b.subscribers.entries
  /-- When a flush returns, what was published before its call has had its round. -/
  flushed : ∀ call b', b.perform (.flushReturn call) = some b' →
    ∃ before ∈ b.flushing[call]?, before <+: b.rounds.map Round.event
  /-- After `unsubscribe` the callback is never started again. -/
  unsubscribed : ∀ id b₁ b₂, id < b.nextSubscriptionId → b.perform (.unsubscribe id) = some b₁ →
    Reaches b₁ b₂ → (b₂.calls.map Sigma.fst).count id = (b₁.calls.map Sigma.fst).count id
  /-- The worker stops with an empty queue, and what was published before the destruction
  has had its round by then. -/
  stops : ∀ b', b.perform .take = some b' → b'.worker = .stopped → b.queue = []
  destroyed : ∀ b₁ b₂, b.stopping = false → b.perform .destroy = some b₁ → Reaches b₁ b₂ →
    b₂.worker = .stopped → b.published <+: b₂.rounds.map Round.event
  /-- Until it stops, the worker can deliver everything on its own. -/
  progress : b.worker ≠ .stopped → ∃ b', WorkerReaches b b' ∧ b'.published = b.published ∧
    b'.rounds.map Round.event = b.published

/-- **Every event is delivered, in order and to everyone**, under every schedule. -/
theorem notificationBus_delivers (b : NotificationBus E S) (reached : Reaches {} b) :
    Delivers b := by
  have inv := BusInvariant.reached reached
  constructor
  case inFlight =>
    rw [inv.inFlight]
    cases b.worker <;> simp [Worker.uncounted]
  case noUnderflow =>
    intro b' performs
    cases moved_of_perform performs with
    | done here => rw [inv.inFlight, here]; rfl
  case inOrder => exact inv.inOrder
  case complete => exact inv.complete
  case registered =>
    intro order b₁ b₂ performs run id mem round ended
    have inv₂ := BusInvariant.reached
      ((reached.tail ⟨_, performs⟩).trans run)
    have attends : Attends b.rounds.length (order.walk b.subscribers) b₁ := by
      cases moved_of_perform performs with
      | lock event order here => exact .inl ⟨rfl, _, rfl, rfl⟩
    have complete := inv₂.complete round (List.mem_of_getElem? ended)
    have audience : round.audience = order.walk b.subscribers := by
      rcases attends.run run with ⟨here, -⟩ | ⟨r, found, same⟩
      · rw [← here, Option.mem_def, List.getElem?_eq_none le_rfl] at ended
        cases ended
      · rw [← same, Option.some.inj (Eq.trans found.symm ended)]
    rw [complete.everyone, audience]
    refine List.count_eq_one_of_mem (order.nodup_keys _) ?_
    exact ((order.perm _).map _).mem_iff.mpr (AList.mem_keys.mp mem)
  case unchanged => exact fun entry mem => (inv.current entry mem).unchanged
  case flushed =>
    intro call b' performs
    cases moved_of_perform performs with
    | flushReturn call known empty counted =>
        refine ⟨b.flushing[call], List.getElem?_eq_getElem known, ?_⟩
        rw [inv.delivered empty counted]
        exact inv.flushing _ (List.getElem_mem known)
  case unsubscribed =>
    intro id b₁ b₂ issued performs run
    have moved := moved_of_perform performs
    have gone : Gone id b₁ := by
      cases moved with
      | unsubscribe id free => exact ⟨issued, fun mem => (AList.mem_erase.mp mem).1 rfl⟩
    exact gone.calls_run (inv.step moved) run
  case stops =>
    intro b' performs stopped
    cases moved_of_perform performs with
    | take event queue here next => cases stopped
    | stop here empty stopping => exact empty
  case destroyed =>
    intro b₁ b₂ running performs run stopped
    have moved := moved_of_perform performs
    have kept : Kept b.published b₁ := by
      cases moved with
      | destroy =>
          refine ⟨List.prefix_rfl, fun early => ?_⟩
          rw [inv.stopping early] at running
          cases running
    exact (kept.run (inv.step moved) run).2 stopped
  case progress =>
    intro running
    obtain ⟨b', run, waits, empty, published⟩ := workerReaches_idle _ rfl running
    have inv' := BusInvariant.reached (reached.trans run.reaches)
    have counted : b'.inFlight = 0 := by rw [inv'.inFlight, waits]; rfl
    exact ⟨b', run, published, (inv'.delivered empty counted).trans published⟩

/-- Some actions one after the other, if each can be taken. -/
def performs (b : NotificationBus E S) : List (BusAction E S) → Option (NotificationBus E S)
  | [] => some b
  | action :: actions => (b.perform action).bind (performs · actions)

theorem reaches_of_performs : ∀ {actions : List (BusAction E S)} {b b' : NotificationBus E S},
    b.performs actions = some b' → Reaches b b'
  | [], _, _, done => by
      cases done
      exact .refl
  | action :: _, _, _, done => by
      obtain ⟨b₁, first, rest⟩ := Option.bind_eq_some_iff.mp done
      exact .head ⟨action, first⟩ (reaches_of_performs rest)

/-- A subscriber is called with the first of two events and leaves before the second. -/
def leaving : List (BusAction Nat String) :=
  [.subscribe "recorder", .publish 10, .take, .publish 20, .lock .stored, .call, .flushCall,
    .callReturn, .unlock, .unsubscribe 1, .done, .take, .lock .stored, .unlock, .done,
    .flushReturn 0, .destroy, .take]

theorem notificationBus_delivers_leaving : ∃ b, NotificationBus.performs {} leaving = some b ∧
    Delivers b ∧ b.rounds.map Round.event = [10, 20] ∧ b.calls.map Sigma.fst = [1] :=
  ⟨_, rfl, notificationBus_delivers _ (@reaches_of_performs _ _ leaving _ _ rfl), rfl, rfl⟩

end NotificationBus

end StockMarket
