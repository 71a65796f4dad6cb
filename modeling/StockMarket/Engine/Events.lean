import Mathlib.Algebra.Group.Int.Defs
import Mathlib.Algebra.Group.Prod
import StockMarket.Engine.Ledger
import StockMarket.Lib.Watching

/-!
The counters against the published events.

Each event stands for something that a counter counts: a rejection, an accepted, queued or expired
order, a trade with its volume. A method counts and publishes in separate steps, the trades of a
match first and their number afterwards, so the two differ while calls are under way. Every thread
owes exactly the difference it made (`Audited`), and once all have finished the counters are the
sums over the published events (`counts_of_finished`). Published events stay, in their order
(`Appended`).
-/

namespace StockMarket

open Atomic MatchingEngine

variable {P : Type}

/-- Accepted, rejected, queued and expired orders, trades and their volume. -/
abbrev Counts := ℤ × ℤ × ℤ × ℤ × ℤ × ℤ

/-- The counters that events tell about. -/
def Metrics.counts (m : Metrics) : Counts :=
  (m.ordersAccepted, m.ordersRejected, m.ordersQueued, m.ordersExpired, m.tradesExecuted,
    m.volumeTraded)

/-- What an event tells. -/
def Event.counts : Event P → Counts
  | .orderAccepted _ _ _ => (1, 0, 0, 0, 0, 0)
  | .orderRejected _ _ _ => (0, 1, 0, 0, 0, 0)
  | .orderQueued _ _ _ => (0, 0, 1, 0, 0, 0)
  | .orderExpired _ _ _ => (0, 0, 0, 1, 0, 0)
  | .trade t => (0, 0, 0, 0, 1, t.quantity.toNat)

/-- What some trades count. -/
def tradeCounts (trades : List (Trade P)) : Counts :=
  (0, 0, 0, 0, trades.length, ((trades.map fun t => t.quantity.toNat).sum : ℕ))

theorem tradeCounts_cons (t : Trade P) (ts : List (Trade P)) :
    tradeCounts (t :: ts) = Event.counts (.trade t) + tradeCounts ts := by
  simp [tradeCounts, Event.counts, add_comm]

/-- What the counters have above the published events. -/
def MatchingEngine.uncounted (e : MatchingEngine P) : Counts :=
  e.metrics.counts - (e.published.map Event.counts).sum

/-- Published events stay. -/
def Appended (e e' : MatchingEngine P) : Prop :=
  e.published <+: e'.published

section

variable {α β : Type}

/-- The program only adds to the published events, and counts `d` more than it publishes. -/
def Audited (p : Prog (MatchingEngine P) α) (d : Counts) : Prop :=
  Guarantees Appended p ∧ Owes (fun _ => ()) uncounted p d

theorem Audited.bind {p : Prog (MatchingEngine P) α} {k : α → Prog (MatchingEngine P) β}
    {d d' : Counts} (first : Audited p d) (rest : ∀ a, Audited (k a) d') :
    Audited (p >>= k) (d + d') :=
  ⟨first.1.bind fun a => (rest a).1, first.2.bind_add fun a => (rest a).2⟩

/-- The first program leaves no difference. -/
theorem Audited.andThen {p : Prog (MatchingEngine P) α} {k : α → Prog (MatchingEngine P) β}
    {d : Counts} (first : Audited p 0) (rest : ∀ a, Audited (k a) d) : Audited (p >>= k) d := by
  have both := first.bind rest
  rwa [zero_add] at both

theorem Audited.ret (a : α) : Audited (pure a : Prog (MatchingEngine P) α) 0 :=
  ⟨trivial, rfl⟩

/-- A single action. -/
theorem audited_step {action : MatchingEngine P → α × MatchingEngine P} {d : Counts}
    (stay : ∀ e, Appended e (action e).2)
    (moves : ∀ e, (action e).2.uncounted = e.uncounted + d) : Audited (.step action) d :=
  ⟨.step stay, fun e => ⟨rfl, 0, (add_zero _).trans (moves e), rfl⟩⟩

/-- An action that neither counts nor publishes. -/
theorem audited_quiet {action : MatchingEngine P → α × MatchingEngine P}
    (metrics : ∀ e, (action e).2.metrics = e.metrics)
    (published : ∀ e, (action e).2.published = e.published) : Audited (.step action) 0 := by
  refine audited_step (fun e => ?_) fun e => ?_
  · rw [Appended, published]
  · rw [uncounted, metrics, published, add_zero]
    rfl

theorem audited_read (f : MatchingEngine P → α) : Audited (.read f) 0 :=
  audited_quiet (fun _ => rfl) fun _ => rfl

theorem audited_count {f : Metrics → Metrics} {d : Counts}
    (adds : ∀ m, (f m).counts = m.counts + d) :
    Audited (.modify (count f) : Prog (MatchingEngine P) Unit) d := by
  refine audited_step (fun _ => List.prefix_rfl) fun e => ?_
  change (f e.metrics).counts - _ = e.metrics.counts - _ + d
  rw [adds, add_sub_right_comm]
  rfl

theorem audited_publish (event : Event P) : Audited (.modify (publish event)) (-event.counts) := by
  refine audited_step (fun _ => List.prefix_append _ _) fun e => ?_
  have events : ((publish event e).published.map Event.counts).sum
      = (e.published.map Event.counts).sum + event.counts := by
    simp [publish]
  change e.metrics.counts - ((publish event e).published.map Event.counts).sum = _
  rw [events, sub_add_eq_sub_sub, sub_eq_add_neg]
  rfl

/-- What is counted and then published. -/
theorem Audited.congr {p : Prog (MatchingEngine P) α} {d d' : Counts} (audited : Audited p d)
    (same : d = d') : Audited p d' :=
  same ▸ audited

theorem audited_reject (id : Nat) (client : ClientId) (reason : String) :
    Audited (reject id client reason : Prog (MatchingEngine P) _) 0 := by
  have counted : Audited (.modify (count fun m =>
      { m with ordersRejected := m.ordersRejected + 1 }) :
      Prog (MatchingEngine P) Unit) (0, 1, 0, 0, 0, 0) :=
    audited_count fun m => by simp [Metrics.counts]
  exact (counted.bind fun _ => (audited_publish _).bind fun _ => .ret _).congr rfl

theorem audited_reportExpired : ∀ orders : List (Order P), Audited (reportExpired orders) 0
  | [] => .ret ()
  | o :: orders => by
      have counted : Audited
          (.modify (count fun m => { m with ordersExpired := m.ordersExpired + 1 }) :
            Prog (MatchingEngine P) Unit) (0, 0, 0, 1, 0, 0) :=
        audited_count fun m => by simp [Metrics.counts]
      exact (counted.bind fun _ => (audited_publish _).bind fun _ =>
        audited_reportExpired orders).congr rfl

theorem audited_cancelWaitingOrder (orderId : Nat) :
    Audited (cancelWaitingOrder orderId : Prog (MatchingEngine P) Bool) 0 :=
  audited_quiet (fun _ => rfl) fun _ => rfl

/-- A cancellation in a book, of whatever order. -/
theorem audited_cancelBook (change : OrderBook P → Bool × OrderBook P) (symbol : Symbol) :
    Audited (do
      if ← .read (symbolExists · symbol) then
        .step fun e =>
          let (found, book) := change (e.bookFor symbol)
          (found, { e with books := e.books.insert symbol book })
      else return false : Prog (MatchingEngine P) Bool) 0 := by
  refine (audited_read _).andThen fun known => ?_
  split
  · exact audited_quiet (fun _ => rfl) fun _ => rfl
  · exact .ret false

variable [Zero P] [Add P] [Sub P] [Mul P] [IntCast P]

theorem audited_settleTrades : ∀ trades : List (Trade P),
    Audited (settleTrades trades) (-tradeCounts trades)
  | [] => .ret ()
  | t :: ts => by
      have settled : Audited (.modify (settle t)) 0 := audited_quiet (fun _ => rfl) fun _ => rfl
      have priced : Audited (.modify (setLastPrice t.symbol t.price)) 0 :=
        audited_quiet (fun _ => rfl) fun _ => rfl
      have marked : Audited (.modify (markDirty t.symbol) : Prog (MatchingEngine P) Unit) 0 :=
        audited_quiet (fun _ => rfl) fun _ => rfl
      refine settled.andThen fun _ => priced.andThen fun _ => marked.andThen fun _ => ?_
      rw [tradeCounts_cons, neg_add]
      exact (audited_publish _).bind fun _ => audited_settleTrades ts

variable [LT P] [DecidableLT P]

/-- What a match publishes is counted when all its trades are settled. -/
theorem audited_matchAndSettle (clock : Nat → Int) (o : Order P) :
    Audited (matchAndSettle clock o) 0 := by
  have matched : Audited (.step (matchBook clock o)) 0 := audited_quiet (fun _ => rfl) fun _ => rfl
  have accepted : Audited
      (.modify (count fun m => { m with ordersAccepted := m.ordersAccepted + 1 }) :
        Prog (MatchingEngine P) Unit) (1, 0, 0, 0, 0, 0) :=
    audited_count fun m => by simp [Metrics.counts]
  refine matched.andThen fun trades => ?_
  have executed : Audited
      (.modify (count fun m => { m with tradesExecuted := m.tradesExecuted + trades.length }) :
        Prog (MatchingEngine P) Unit) (0, 0, 0, 0, trades.length, 0) :=
    audited_count fun m => by simp [Metrics.counts]
  have traded : Audited (.modify (count fun m => { m with
      volumeTraded := m.volumeTraded + (trades.map fun t => t.quantity.toNat).sum }) :
        Prog (MatchingEngine P) Unit)
      (0, 0, 0, 0, 0, ((trades.map fun t => t.quantity.toNat).sum : ℕ)) :=
    audited_count fun m => by
      simp only [Metrics.counts, Nat.cast_add, Prod.mk_add_mk, add_zero]
  refine (accepted.bind fun _ => (audited_publish _).bind fun _ =>
    (audited_settleTrades trades).bind fun _ => executed.bind fun _ => traded.bind fun _ =>
      .ret _).congr ?_
  simp [Event.counts, tradeCounts]

theorem audited_releaseAll (clock : Nat → Nat → Int) : ∀ (n : Nat) (orders : List (Order P)),
    Audited (releaseAll clock n orders) 0
  | _, [] => .ret []
  | n, o :: orders =>
      (audited_matchAndSettle (clock n) o).bind fun _ =>
        (audited_releaseAll clock (n + 1) orders).bind fun _ => .ret _

variable [LE P] [DecidableLE P]

omit [Add P] [Sub P] [Mul P] [IntCast P] [LT P] [DecidableLT P] in
theorem audited_scanSymbolsStep (order : Symbol → IterationOrder Nat (Order P)) (now : Int) :
    ∀ (symbols : List Symbol) (result : ScanResult P),
      Audited (scanSymbolsStep order now symbols result) 0
  | [], result => .ret result
  | s :: symbols, result => by
      have one : Audited (.step (scanStep order now s result)) 0 :=
        audited_quiet (fun _ => rfl) fun _ => rfl
      exact one.bind fun scan => audited_scanSymbolsStep order now symbols scan

theorem audited_tryReleaseWaitingOrders (order : ReleaseOrder P) (now : Int)
    (clock : Nat → Nat → Int) (fullScan : Bool) :
    Audited (tryReleaseWaitingOrders order now clock fullScan) 0 := by
  have symbols : Audited (symbolsToScan order fullScan) 0 := by
    unfold symbolsToScan
    split
    · exact audited_read _
    · exact audited_quiet (fun _ => rfl) fun _ => rfl
  exact symbols.bind fun symbols => (audited_scanSymbolsStep order.bucket now symbols {}).bind
    fun scan => (audited_releaseAll clock 0 scan.released).bind
    fun _ => (audited_reportExpired _).bind fun _ => .ret _

variable [OfScientific P]

theorem audited_submitOrder (now : Int) (clock : Nat → Int) (request : OrderRequest P) :
    Audited (submitOrder now clock request) 0 := by
  have submitted : Audited
      (.modify (count fun m => { m with ordersSubmitted := m.ordersSubmitted + 1 }) :
        Prog (MatchingEngine P) Unit) 0 :=
    audited_count fun m => (add_zero m.counts).symm
  have drafted : Audited (.step fetchOrderId : Prog (MatchingEngine P) Nat) 0 :=
    audited_quiet (fun _ => rfl) fun _ => rfl
  refine submitted.andThen fun _ => drafted.andThen fun id => ?_
  refine (audited_read _).andThen fun reason => ?_
  cases reason with
  | some reason => exact audited_reject id request.client reason
  | none =>
      refine (audited_read _).andThen fun passes => ?_
      split
      · exact audited_reject id request.client _
      · refine (audited_read _).andThen fun price => ?_
        split
        · exact audited_matchAndSettle clock _
        · have queued : Audited
              (.modify (count fun m => { m with ordersQueued := m.ordersQueued + 1 }) :
                Prog (MatchingEngine P) Unit) (0, 0, 1, 0, 0, 0) :=
            audited_count fun m => by simp [Metrics.counts]
          have added : Audited (.modify (enqueue (buildOrder request id now))) 0 :=
            audited_quiet (fun _ => rfl) fun _ => rfl
          exact (queued.bind fun _ => added.bind fun _ => (audited_publish _).bind fun _ =>
            .ret _).congr rfl

theorem audited_program (call : EngineCall P) : Audited call.program 0 := by
  cases call with
  | submitOrder now clock request =>
      exact (audited_submitOrder now clock request).bind fun _ => .ret ()
  | tryReleaseWaitingOrders order now clock fullScan =>
      exact (audited_tryReleaseWaitingOrders order now clock fullScan).bind fun _ => .ret ()
  | cancelOrderAt symbol side price orderId =>
      exact (audited_cancelBook (·.cancelAtPrice side price orderId) symbol).bind fun _ => .ret ()
  | cancelOrder symbol orderId =>
      exact (audited_cancelBook (·.cancel orderId) symbol).bind fun _ => .ret ()
  | cancelWaitingOrder orderId =>
      exact (audited_cancelWaitingOrder orderId).bind fun _ => .ret ()

theorem audited_threadProgram : ∀ calls : List (EngineCall P), Audited (threadProgram calls) 0
  | [] => .ret ()
  | call :: calls => (audited_program call).bind fun _ => audited_threadProgram calls

/-- **Once all threads have finished** the counters are the sums over the published events. -/
theorem counts_of_finished {e e' : MatchingEngine P} {threads : List (List (EngineCall P))}
    {ps : List (Prog (MatchingEngine P) Unit)}
    (run : Interleaves (e, threads.map threadProgram) (e', ps)) (finished : Finished ps)
    (start : e.metrics.counts = (e.published.map Event.counts).sum) :
    e'.metrics.counts = (e'.published.map Event.counts).sum := by
  have owe : ∀ p ∈ threads.map threadProgram, Owes (fun _ => ()) uncounted p 0 := by
    intro p mem
    obtain ⟨calls, -, rfl⟩ := List.mem_map.mp mem
    exact (audited_threadProgram calls).2
  have same := (interleaves_conserve run owe).2 finished
  rw [uncounted, uncounted, start, sub_self] at same
  exact sub_eq_zero.mp same

end

end StockMarket
