import Mathlib.Algebra.Group.Nat.Defs
import Mathlib.Algebra.Group.Prod
import Mathlib.Tactic.Abel
import StockMarket.Engine.LastPrice
import StockMarket.Engine.Threads
import StockMarket.Lib.Accounts

/-!
The counters against what the callers see.

The ledger of an engine has five entries (`balance`): the submissions, those that were neither
accepted nor rejected nor queued, the queued orders that neither expired nor wait any more,
and the number and the volume of the trades. Every call adds to it what its result tells
(`CallResult.due`): an order that a scan releases is accepted without a new submission, and it
leaves the registry. So whenever nothing is in progress the counters agree with the results of
all calls since they were reset (`balance_of_finished`). A counter has 64 bits: what can be read
of it agrees as long as no more was counted (`metrics_balance`).
-/

namespace StockMarket

open Atomic MatchingEngine

variable {P : Type}

/-! ### Results -/

/-- What a call returns. -/
inductive CallResult (P : Type) where
  | submitted (result : SubmitResult P)
  | passed (summary : ReleaseSummary P)
  | cancelled (found : Bool)
  | waitingCancelled (found : Bool)

namespace CallResult

/-- The trades in the `SubmitResult`s. -/
def trades : CallResult P → List (Trade P)
  | .submitted result => result.trades
  | .passed summary => summary.released.flatMap SubmitResult.trades
  | .cancelled _ | .waitingCancelled _ => []

/-- How many orders the call submitted. -/
def submissions : CallResult P → Nat
  | .submitted _ => 1
  | .passed _ | .cancelled _ | .waitingCancelled _ => 0

/-- How many orders the scans of the call released. -/
def released : CallResult P → Nat
  | .passed summary => summary.released.length
  | .submitted _ | .cancelled _ | .waitingCancelled _ => 0

/-- How many waiting orders the call cancelled. -/
def cancelledWaiting : CallResult P → Nat
  | .waitingCancelled found => if found then 1 else 0
  | .submitted _ | .passed _ | .cancelled _ => 0

end CallResult

section

variable [Zero P] [Add P] [Sub P] [Mul P] [IntCast P] [LT P] [DecidableLT P] [LE P] [DecidableLE P]
  [OfScientific P]

/-- The program of a call, with its result. -/
def EngineCall.perform : EngineCall P → Prog (MatchingEngine P) (CallResult P)
  | .submitOrder now clock request => do
    let result ← MatchingEngine.submitOrder now clock request
    return .submitted result
  | .tryReleaseWaitingOrders order now clock fullScan => do
    let summary ← MatchingEngine.tryReleaseWaitingOrders order now clock fullScan
    return .passed summary
  | .cancelOrderAt symbol side price orderId => do
    let found ← MatchingEngine.cancelOrderAt symbol side price orderId
    return .cancelled found
  | .cancelOrder symbol orderId => do
    let found ← MatchingEngine.cancelOrder symbol orderId
    return .cancelled found
  | .cancelWaitingOrder orderId => do
    let found ← MatchingEngine.cancelWaitingOrder orderId
    return .waitingCancelled found

/-- A thread that makes one call after the other and keeps their results. -/
def threadResults : List (EngineCall P) → Prog (MatchingEngine P) (List (CallResult P))
  | [] => return []
  | call :: calls => do
    let result ← call.perform
    let results ← threadResults calls
    return result :: results

end

/-! ### The ledger -/

/-- Submissions, stages of orders, waiting orders, trades and their volume. -/
abbrev Tally := ℤ × ℤ × ℤ × ℤ × ℤ

/-- What the counter of the volume has above the quantity of some trades. -/
def surplus (ts : List (Trade P)) : ℤ :=
  (ts.map fun t => t.quantity.toNat).sum - tradedQuantity ts

theorem surplus_append (ts us : List (Trade P)) :
    surplus (ts ++ us) = surplus ts + surplus us := by
  unfold surplus
  rw [List.map_append, List.sum_append, tradedQuantity_append]
  omega

/-- Trades that move something are counted with their quantity. -/
theorem surplus_of_pos : ∀ {ts : List (Trade P)}, (∀ t ∈ ts, 0 < t.quantity) → surplus ts = 0
  | [], _ => rfl
  | t :: ts, pos => by
      have first := pos t List.mem_cons_self
      have rest := surplus_of_pos fun u hu => pos u (List.mem_cons_of_mem t hu)
      unfold surplus at rest ⊢
      rw [List.map_cons, List.sum_cons, tradedQuantity_cons]
      omega

/-- What the counters say of the orders and trades. -/
def balance (e : MatchingEngine P) : Tally :=
  (e.metrics.ordersSubmitted,
    e.metrics.ordersSubmitted - e.metrics.ordersAccepted - e.metrics.ordersRejected
      - e.metrics.ordersQueued,
    e.metrics.ordersQueued - e.metrics.ordersExpired - e.registry.size,
    e.metrics.tradesExecuted,
    e.metrics.volumeTraded - surplus e.emitted)

/-- What a call adds to the balance. -/
def CallResult.due (result : CallResult P) : Tally :=
  (result.submissions, -result.released, result.released + result.cancelledWaiting,
    result.trades.length, tradedQuantity result.trades)

/-! ### Steps -/

/-- The threads' invariant, and every emitted trade moves something. -/
structure Trading [LT P] (e : MatchingEngine P) (φs : List (Phase P)) : Prop where
  threads : ThreadsInvariant e φs
  positive : ∀ t ∈ e.emitted, 0 < t.quantity

theorem Trading.perm [LT P] {e : MatchingEngine P} {φs φs' : List (Phase P)}
    (trading : Trading e φs) (same : φs.Perm φs') : Trading e φs' :=
  ⟨trading.threads.perm same, trading.positive⟩

section

variable [Zero P] [Add P] [Sub P] [Mul P] [IntCast P] [LT P] [DecidableLT P] [LE P] [DecidableLE P]
  [IsStrictOrder P (· < ·)]

omit [Zero P] [Add P] [Sub P] [Mul P] [IntCast P] [LE P] [DecidableLE P]
  [IsStrictOrder P (· < ·)] in
/-- What a match emits moves something. -/
theorem EngineInvariant.positive_trades {e : MatchingEngine P} {pending : List (Order P)}
    (inv : EngineInvariant e pending) (clock : Nat → Int) (o : Order P) :
    ∀ t ∈ (matchBook clock o e).1, 0 < t.quantity := by
  intro t mem
  rw [inv.matchBook_trades] at mem
  obtain ⟨f, hf, now, rfl⟩ := mem_fillTrades mem
  obtain ⟨-, -, -, -, -, pos⟩ := inv.mem_fillFor hf
  simpa using pos

theorem Trading.move {e e' : MatchingEngine P} {φ φ' : Phase P} {φs : List (Phase P)}
    (trading : Trading e (φ :: φs)) (moves : Move φ e φ' e') : Trading e' (φ' :: φs) := by
  refine ⟨trading.threads.move moves, ?_⟩
  have matched (clock : Nat → Int) (o : Order P) : ∀ t ∈ (matchBook clock o e).2.emitted,
      0 < t.quantity := by
    intro t mem
    rcases List.mem_append.mp mem with old | new
    · exact trading.positive t old
    · exact trading.threads.engine.positive_trades clock o t new
  cases moves with
  | quiet φ same => exact same.emitted ▸ trading.positive
  | matchNew clock o => exact matched clock o
  | matchReleased clock o later => exact matched clock o
  | _ => exact trading.positive

end

/-! ### What the methods add -/

/-- What an order adds that was accepted, rejected or queued: itself, and its trades. -/
def SubmitResult.due (result : SubmitResult P) : Tally :=
  (0, -1, 0, result.trades.length, tradedQuantity result.trades)

/-- A submission adds an order and then answers it. -/
theorem SubmitResult.due_eq (result : SubmitResult P) :
    result.due = (CallResult.submitted result).due - (1, 1, 0, 0, 0) := by
  refine Prod.ext ?_ (Prod.ext ?_ (Prod.ext ?_ (Prod.ext ?_ ?_))) <;>
    simp [SubmitResult.due, CallResult.due, CallResult.submissions, CallResult.released,
      CallResult.trades,
      CallResult.cancelledWaiting]

/-- Balances that agree in every entry. -/
theorem tally_ext {x y : Tally} (submissions : x.1 = y.1) (stages : x.2.1 = y.2.1)
    (waiting : x.2.2.1 = y.2.2.1) (trades : x.2.2.2.1 = y.2.2.2.1)
    (volume : x.2.2.2.2 = y.2.2.2.2) : x = y :=
  Prod.ext submissions (Prod.ext stages (Prod.ext waiting (Prod.ext trades volume)))

namespace MatchingEngine

section

variable [Zero P] [LT P] [DecidableLT P] [LE P] [DecidableLE P]

/-- A program whose result tells its last phase and what it adds to the balance. -/
abbrev Accounted {α : Type} (p : Prog (MatchingEngine P) α) (φ : Phase P) (next : α → Phase P)
    (due : α → Tally) : Prop :=
  Books Move Trading balance p φ next due

/-- An action that adds the same in every state. -/
theorem accounted_modify {f : MatchingEngine P → MatchingEngine P} {d : Tally}
    (same : ∀ e, SameMarket e (f e)) (adds : ∀ e, balance (f e) = balance e + d) (φ : Phase P) :
    Accounted (Prog.modify f) φ (fun _ => φ) fun _ => d :=
  Books.step (fun e => .quiet φ (same e)) fun e _ _ => adds e

theorem accounted_count {f : Metrics → Metrics} {d : Tally}
    (adds : ∀ e : MatchingEngine P, balance (count f e) = balance e + d) (φ : Phase P) :
    Accounted (Prog.modify (count f)) φ (fun _ => φ) fun _ => d :=
  accounted_modify (f := count f) (fun _ => ⟨rfl, rfl, rfl, rfl, rfl, rfl⟩) adds φ

theorem accounted_publish (event : Event P) (φ : Phase P) :
    Accounted (Prog.modify (publish event)) φ (fun _ => φ) fun _ => 0 :=
  accounted_modify (f := publish event) (fun _ => ⟨rfl, rfl, rfl, rfl, rfl, rfl⟩)
    (fun e => (add_zero (balance e)).symm) φ

/-- What a thread reads adds nothing. -/
theorem accounted_read {α : Type} {f : MatchingEngine P → α} {φ : Phase P} {next : α → Phase P}
    (reads : Follows Move (fun a ψ => ψ = next a) (Prog.read f) φ) :
    Accounted (Prog.read f) φ next fun _ => 0 := by
  refine Books.step (fun e => ?_) fun e _ _ => (add_zero (balance e)).symm
  obtain ⟨ψ, moved, rfl⟩ := reads e
  exact moved

theorem accounted_reject (id : Nat) (client : ClientId) (reason : String) :
    Accounted (reject id client reason : Prog (MatchingEngine P) _) .idle (fun _ => .idle)
      SubmitResult.due := by
  refine (accounted_count (d := (0, -1, 0, 0, 0)) (fun e => ?_) _).bind fun _ => ?_
  · apply tally_ext <;> simp [balance, count]
    omega
  refine (accounted_publish _ _).bind fun _ => ?_
  exact Books.ret rfl rfl

/-- The expired orders of a pass. -/
theorem accounted_reportExpired : ∀ orders : List (Order P),
    Accounted (reportExpired orders) .idle (fun _ => .idle) fun _ => (0, 0, -orders.length, 0, 0)
  | [] => Books.ret rfl rfl
  | o :: orders => by
      refine (accounted_count (d := (0, 0, -1, 0, 0)) (fun e => ?_) _).bind fun _ => ?_
      · apply tally_ext <;> simp [balance, count]
        omega
      refine (accounted_publish _ _).bind fun _ => ?_
      refine (accounted_reportExpired orders).congr (fun _ => rfl) fun _ => ?_
      apply tally_ext <;> simp

/-- A scan takes the orders out of the registry. -/
theorem accounted_scanSymbolsStep (order : Symbol → IterationOrder Nat (Order P)) (now : Int) :
    ∀ (symbols : List Symbol) (result : ScanResult P),
      Accounted (scanSymbolsStep order now symbols result) (.busy symbols result.released [])
        (fun scan => .busy [] scan.released []) fun scan =>
          (0, 0, (scan.released.length + scan.expired.length : ℤ)
            - (result.released.length + result.expired.length), 0, 0)
  | [], result => Books.ret rfl (by apply tally_ext <;> simp)
  | s :: symbols, result => by
      have one : Accounted (.step (scanStep order now s result))
          (.busy (s :: symbols) result.released []) (fun scan => .busy symbols scan.released [])
          fun scan =>
            (0, 0, (scan.released.length + scan.expired.length : ℤ)
              - (result.released.length + result.expired.length), 0, 0) := by
        refine Books.step (fun e => .scan order now s symbols result) fun e φs trading => ?_
        have size := trading.threads.engine.registry.size_scanSymbol (order s) now (e.lastPrice s) s
          result
        apply tally_ext <;> simp [balance, scanStep]
        omega
      refine one.bind fun scan => ?_
      refine (accounted_scanSymbolsStep order now symbols scan).congr (fun _ => rfl) fun _ => ?_
      apply tally_ext <;> simp

theorem accounted_symbolsToScan (order : ReleaseOrder P) (fullScan : Bool) :
    Accounted (symbolsToScan order fullScan) .idle (fun symbols => .busy symbols [] [])
      fun _ => 0 := by
  unfold symbolsToScan
  split
  · exact accounted_read (follows_read _ _ fun e => .list _)
  · exact Books.step (fun e => .drain order.dirty) fun e _ _ => (add_zero (balance e)).symm

/-- A cancellation in a book takes nothing from the registry. -/
theorem accounted_cancelBook (c : BookCancel P) (symbol : Symbol) :
    Accounted (do
      if ← .read (symbolExists · symbol) then
        .step fun e => ((c.apply (e.bookFor symbol)).1,
          e.withBook symbol (c.apply (e.bookFor symbol)).2)
      else return false : Prog (MatchingEngine P) Bool) .idle (fun _ => .idle) fun _ => 0 := by
  have asked : Accounted (Prog.read fun e : MatchingEngine P => e.symbolExists symbol) .idle
      (fun _ => .idle) fun _ => 0 :=
    accounted_read (follows_read _ _ fun e => .quiet _ (.refl e))
  refine asked.bind fun known => ?_
  simp only [sub_zero]
  split
  · exact Books.step (fun e => .cancelBook _ c symbol) fun e _ _ => (add_zero (balance e)).symm
  · exact Books.ret rfl rfl

/-! #### Matching -/

variable [Add P] [Sub P] [Mul P] [IntCast P]

/-- The loop over the trades of a match counts nothing. -/
theorem accounted_settleTrades (later : List (Order P)) : ∀ trades : List (Trade P),
    Accounted (settleTrades trades) (.busy [] later trades) (fun _ => .busy [] later []) fun _ => 0
  | [] => Books.ret rfl rfl
  | t :: ts => by
      have settled : Accounted (Prog.modify (settle t)) (.busy [] later (t :: ts))
          (fun _ => .busy [] later (t :: ts)) fun _ => 0 :=
        accounted_modify (f := settle t) (fun _ => ⟨rfl, rfl, rfl, rfl, rfl, rfl⟩)
          (fun e => (add_zero (balance e)).symm) _
      have priced : Accounted (Prog.modify (setLastPrice t.symbol t.price))
          (.busy [] later (t :: ts)) (fun _ => .marking t.symbol later ts) fun _ => 0 :=
        Books.step (fun e => .price t later ts) fun e _ _ => (add_zero (balance e)).symm
      have marked : Accounted (Prog.modify (markDirty t.symbol)) (.marking t.symbol later ts)
          (fun _ => .busy [] later ts) fun _ => 0 :=
        Books.step (fun e => .mark t.symbol later ts) fun e _ _ => (add_zero (balance e)).symm
      refine settled.bind fun _ => priced.bind fun _ => marked.bind fun _ => ?_
      refine (accounted_publish _ _).bind fun _ => ?_
      exact (accounted_settleTrades later ts).congr (fun _ => rfl) fun _ => by simp

/-- A match, in whichever way the thread has come by the order. -/
theorem accounted_matchAndSettle {clock : Nat → Int} {o : Order P} {φ : Phase P}
    {later : List (Order P)} (taken : ∀ e, Move φ e (.busy [] later (matchBook clock o e).1)
      (matchBook clock o e).2) :
    Accounted (matchAndSettle clock o) φ (fun _ => .busy [] later []) SubmitResult.due := by
  have matched : Accounted (.step (matchBook clock o)) φ (fun trades => .busy [] later trades)
      fun trades => (0, 0, 0, 0, -surplus trades) := by
    refine Books.step taken fun e _ _ => ?_
    have grown : (matchBook clock o e).2.emitted = e.emitted ++ (matchBook clock o e).1 := rfl
    have rest : (matchBook clock o e).2.metrics = e.metrics ∧
      (matchBook clock o e).2.registry = e.registry := ⟨rfl, rfl⟩
    apply tally_ext <;> simp [balance, grown, rest, surplus_append]
    omega
  refine matched.bind fun trades => ?_
  obtain ⟨volume, counted⟩ : ∃ n, n = (trades.map fun t => t.quantity.toNat).sum := ⟨_, rfl⟩
  have told : surplus trades = volume - tradedQuantity trades := by
    rw [counted]
    rfl
  rw [← counted]
  refine (accounted_count (d := (0, -1, 0, 0, 0)) (fun e => ?_) _).bind fun _ => ?_
  · apply tally_ext <;> simp [balance, count]
    omega
  refine (accounted_publish _ _).bind fun _ => ?_
  refine (accounted_settleTrades later trades).bind fun _ => ?_
  refine (accounted_count (d := (0, 0, 0, trades.length, 0)) (fun e => ?_) _).bind fun _ => ?_
  · apply tally_ext <;> simp [balance, count]
  refine (accounted_count (d := (0, 0, 0, 0, volume)) (fun e => ?_) _).bind fun _ => ?_
  · apply tally_ext <;> simp [balance, count]
    omega
  refine Books.ret rfl ?_
  apply tally_ext <;> simp [SubmitResult.due, told]

/-- The released orders of a pass are matched, each with a result. -/
theorem accounted_releaseAll (clock : Nat → Nat → Int) : ∀ (n : Nat) (orders : List (Order P)),
    Accounted (releaseAll clock n orders) (.busy [] orders []) (fun _ => .idle) fun results =>
      (0, -results.length, results.length - orders.length,
        (results.flatMap SubmitResult.trades).length,
        tradedQuantity (results.flatMap SubmitResult.trades))
  | _, [] => Books.ret rfl rfl
  | n, o :: orders => by
      refine (accounted_matchAndSettle fun _ => .matchReleased (clock n) o orders).bind
        fun result => ?_
      refine (accounted_releaseAll clock (n + 1) orders).bind fun results => ?_
      refine Books.ret rfl ?_
      apply tally_ext <;> simp [SubmitResult.due, tradedQuantity_append]

/-- A release pass. -/
theorem accounted_tryReleaseWaitingOrders (order : ReleaseOrder P) (now : Int)
    (clock : Nat → Nat → Int) (fullScan : Bool) :
    Accounted (tryReleaseWaitingOrders order now clock fullScan) .idle (fun _ => .idle)
      fun summary => (CallResult.passed summary).due := by
  refine (accounted_symbolsToScan order fullScan).bind fun symbols => ?_
  refine (accounted_scanSymbolsStep order.bucket now symbols {}).bind fun scan => ?_
  refine (accounted_releaseAll clock 0 scan.released).bind fun results => ?_
  refine (accounted_reportExpired scan.expired).bind fun _ => ?_
  refine Books.ret rfl ?_
  apply tally_ext <;>
    simp [CallResult.due, CallResult.submissions, CallResult.released, CallResult.trades,
      CallResult.cancelledWaiting]

/-! #### Submissions and cancellations -/

/-- The last part of a submission matches the order or queues it. -/
theorem accounted_matchOrQueue (now : Int) (clock : Nat → Int) (o : Order P)
    {result : SubmitResult P} (none : result.trades = []) : Accounted (do
      let referencePrice ← .read (lastPrice · o.symbol)
      if o.isStarted now ∧ o.releaseBandContains referencePrice then matchAndSettle clock o
      else
        .modify (count fun m => { m with ordersQueued := m.ordersQueued + 1 })
        .modify (enqueue o)
        .modify (publish (.orderQueued o.id o.client o.symbol))
        return result) (.checked o) (fun _ => .idle) SubmitResult.due := by
  have priced : Accounted (.read (lastPrice · o.symbol)) (.checked o) (fun p =>
      if o.isStarted now ∧ o.releaseBandContains p then .checked o else .held o) fun _ => 0 :=
    accounted_read (follows_lastPrice o now)
  refine priced.bind fun referencePrice => ?_
  by_cases ready : o.isStarted now ∧ o.releaseBandContains referencePrice
  · rw [if_pos ready, if_pos ready]
    exact (accounted_matchAndSettle fun _ => .matchNew clock o).congr (fun _ => rfl)
      fun _ => by simp
  · rw [if_neg ready, if_neg ready]
    refine (accounted_count (d := (0, -1, 1, 0, 0)) (fun e => ?_) _).bind fun _ => ?_
    · apply tally_ext <;> simp [balance, count]
      · omega
      · omega
    have queued : Accounted (Prog.modify (enqueue o)) (.held o) (fun _ => .idle)
        fun _ => (0, 0, -1, 0, 0) := by
      refine Books.step (fun e => .queue o) fun e φs trading => ?_
      have size : (e.registry.add o).size = e.registry.size + 1 :=
        trading.threads.engine.registry.size_add trading.threads.engine.unseen
      apply tally_ext <;> simp [balance, enqueue, size]
      omega
    refine queued.bind fun _ => ?_
    refine (accounted_publish _ _).bind fun _ => ?_
    refine Books.ret rfl ?_
    apply tally_ext <;> simp [SubmitResult.due, none, tradedQuantity]

variable [OfScientific P]

theorem accounted_submitOrder (now : Int) (clock : Nat → Int) (request : OrderRequest P) :
    Accounted (submitOrder now clock request) .idle (fun _ => .idle)
      fun result => (CallResult.submitted result).due := by
  refine (accounted_count (d := (1, 1, 0, 0, 0)) (fun e => ?_) _).bind fun _ => ?_
  · apply tally_ext <;> simp [balance, count]
    omega
  have drafted : Accounted (.step fetchOrderId) .idle
      (fun id => .submitting (buildOrder request id now)) fun _ => 0 :=
    Books.step (fun e => .draft rfl) fun e _ _ => (add_zero (balance e)).symm
  refine drafted.bind fun id => ?_
  set order := buildOrder request id now
  have checks : Accounted (.read (invalidReason · request)) (.submitting order)
      (fun reason => if reason = none then .checked order else .idle) fun _ => 0 :=
    accounted_read (follows_checks rfl rfl)
  refine checks.bind fun reason => ?_
  have due (result : SubmitResult P) :
      (CallResult.submitted result).due - (1, 1, 0, 0, 0) - 0 - 0 = result.due := by
    rw [result.due_eq, sub_zero, sub_zero]
  simp only [due]
  cases reason with
  | some reason => exact accounted_reject _ _ _
  | none =>
      rw [if_pos rfl]
      refine (accounted_read (follows_riskCheck order _)).bind fun passes => ?_
      simp only [sub_zero]
      split
      · exact accounted_reject _ _ _
      · rename_i holds
        rw [if_pos (not_not.mp holds)]
        exact accounted_matchOrQueue now clock order rfl

/-! #### Threads -/

/-- **Every call adds what its result tells.** -/
theorem accounted_perform (call : EngineCall P) :
    Accounted call.perform .idle (fun _ => .idle) CallResult.due := by
  cases call with
  | submitOrder now clock request =>
      exact (accounted_submitOrder now clock request).bind fun result =>
        Books.ret rfl (sub_self _)
  | tryReleaseWaitingOrders order now clock fullScan =>
      exact (accounted_tryReleaseWaitingOrders order now clock fullScan).bind fun summary =>
        Books.ret rfl (sub_self _)
  | cancelOrderAt symbol side price orderId =>
      refine Books.bind (accounted_cancelBook (.atPrice side price orderId) symbol) fun found => ?_
      exact Books.ret rfl rfl
  | cancelOrder symbol orderId =>
      refine Books.bind (accounted_cancelBook (.byId orderId) symbol) fun found => ?_
      exact Books.ret rfl rfl
  | cancelWaitingOrder orderId =>
      have taken : Accounted (cancelWaitingOrder orderId : Prog (MatchingEngine P) Bool) .idle
          (fun _ => .idle) fun found => (CallResult.waitingCancelled found : CallResult P).due := by
        refine Books.step (fun e => .cancelWaiting _ orderId) fun e φs trading => ?_
        have size := trading.threads.engine.registry.size_cancel orderId
        apply tally_ext <;>
          simp [balance, CallResult.due, CallResult.submissions, CallResult.released,
            CallResult.cancelledWaiting, CallResult.trades, tradedQuantity]
        split_ifs at size ⊢ <;> omega
      exact taken.bind fun found => Books.ret rfl (sub_self _)

/-- A thread adds what the results of its calls tell. -/
theorem accounted_threadResults : ∀ calls : List (EngineCall P),
    Accounted (threadResults calls) .idle (fun _ => .idle) fun results =>
      (results.map CallResult.due).sum
  | [] => Books.ret rfl rfl
  | call :: calls => by
      refine (accounted_perform call).bind fun result => ?_
      refine (accounted_threadResults calls).bind fun results => ?_
      refine Books.ret rfl ?_
      rw [List.map_cons, List.sum_cons]
      abel

end

end MatchingEngine

/-! ### The counters -/

/-- Calls add up. -/
theorem sum_due (results : List (CallResult P)) : (results.map CallResult.due).sum
    = (((results.map CallResult.submissions).sum : ℤ),
      -((results.map CallResult.released).sum : ℤ),
      ((results.map CallResult.released).sum + (results.map CallResult.cancelledWaiting).sum : ℤ),
      ((results.flatMap CallResult.trades).length : ℤ),
      tradedQuantity (results.flatMap CallResult.trades)) := by
  induction results with
  | nil => rfl
  | cons result results ih =>
      rw [List.map_cons, List.sum_cons, ih]
      apply tally_ext <;> simp [CallResult.due, tradedQuantity_append]
      · omega
      · omega

/-- What `orders_submitted()` and the others return: the counters are `std::uint64_t`. -/
def Metrics.read (m : Metrics) : Metrics where
  ordersSubmitted := m.ordersSubmitted % 2 ^ 64
  ordersAccepted := m.ordersAccepted % 2 ^ 64
  ordersRejected := m.ordersRejected % 2 ^ 64
  ordersQueued := m.ordersQueued % 2 ^ 64
  ordersExpired := m.ordersExpired % 2 ^ 64
  tradesExecuted := m.tradesExecuted % 2 ^ 64
  volumeTraded := m.volumeTraded % 2 ^ 64

/-- Every order that was submitted or released was accepted, rejected or queued, every order that
was queued was released, expired or cancelled or still waits, and the trades are those that the
callers were told. -/
structure MetricsBalance (m : Metrics) (calls : List (CallResult P)) (waiting : Nat) : Prop where
  submitted : m.ordersSubmitted = (calls.map CallResult.submissions).sum
  stages : m.ordersSubmitted + (calls.map CallResult.released).sum
    = m.ordersAccepted + m.ordersRejected + m.ordersQueued
  queued : m.ordersQueued = (calls.map CallResult.released).sum + m.ordersExpired
    + (calls.map CallResult.cancelledWaiting).sum + waiting
  executed : m.tradesExecuted = (calls.flatMap CallResult.trades).length
  volume : (m.volumeTraded : ℤ) = tradedQuantity (calls.flatMap CallResult.trades)

section

variable [Zero P] [Add P] [Sub P] [Mul P] [IntCast P] [LT P] [DecidableLT P] [LE P] [DecidableLE P]
  [IsStrictOrder P (· < ·)] [OfScientific P]

/-- Before and after the calls of some threads nothing is in progress. -/
theorem trading_of_finished {setup : List (SetupCall P)} {threads : List (List (EngineCall P))}
    {e : MatchingEngine P} {ps : List (Prog (MatchingEngine P) Unit)}
    (run : Interleaves (setUp setup, threads.map threadProgram) (e, ps)) (finished : Finished ps) :
    EngineInvariant e [] ∧ ∀ t ∈ e.emitted, 0 < t.quantity := by
  have programs : (startThreads threads).map Prod.fst = threads.map threadProgram := by
    simp [startThreads]
  obtain ⟨threads', rfl, following, phased⟩ := run.phased programs (following_startThreads threads)
  have start : Trading (setUp setup) (phases (startThreads threads)) := by
    refine ⟨.of_idle (idle_setUp setup).invariant phases_startThreads, fun t mem => ?_⟩
    rw [(idle_setUp setup).emitted] at mem
    cases mem
  obtain ⟨inv, positive⟩ := phased.keep (fun _ _ _ same trading => trading.perm same)
    (fun _ _ _ _ _ moves _ trading => trading.move moves) start
  have idle : (phases threads').flatMap Phase.underway = [] := by
    refine List.flatMap_eq_nil_iff.mpr fun φ mem => ?_
    obtain ⟨⟨p, φ⟩, known, rfl⟩ := List.mem_map.mp mem
    obtain ⟨a, rfl⟩ := finished p (List.mem_map_of_mem known)
    obtain rfl : φ = .idle := following (.ret a, φ) known
    rfl
  have engine := inv.engine
  rw [idle] at engine
  exact ⟨engine, positive⟩

/-- The counters are reset while nothing is in progress and nothing waits; then threads make
their calls. Once they have finished, the counters agree with the results. -/
theorem balance_of_finished (setup : List (SetupCall P))
    (earlier threads : List (List (EngineCall P)))
    {e₀ e : MatchingEngine P} {ps₀ : List (Prog (MatchingEngine P) Unit)}
    {results : List (List (CallResult P))}
    (before : Interleaves (setUp setup, earlier.map threadProgram) (e₀, ps₀))
    (finished : Finished ps₀) (empty : e₀.registry.size = 0)
    (run : Interleaves (e₀.resetMetrics, threads.map threadResults) (e, results.map Prog.ret)) :
    MetricsBalance e.metrics results.flatten e.registry.size := by
  set calls := results.flatten
  obtain ⟨engine, positive⟩ := trading_of_finished before finished
  have start : Trading e₀.resetMetrics ((threads.map threadResults).map fun _ => .idle) := by
    refine ⟨.of_idle (engine.congr rfl rfl rfl) fun φ mem => ?_, positive⟩
    obtain ⟨-, -, rfl⟩ := List.mem_map.mp mem
    rfl
  have books : ∀ p ∈ threads.map threadResults, Accounted p .idle (fun _ => .idle) fun results =>
      (results.map CallResult.due).sum := by
    intro p mem
    obtain ⟨calls, -, rfl⟩ := List.mem_map.mp mem
    exact accounted_threadResults calls
  obtain ⟨⟨φs, trading⟩, booked⟩ := interleaves_booked run
    (fun _ _ _ same trading => trading.perm same)
    (fun _ _ _ _ _ moves trading => trading.move moves) start books
  have zero : balance e₀.resetMetrics = 0 := by
    have none : surplus e₀.resetMetrics.emitted = 0 := surplus_of_pos positive
    have nobody : e₀.resetMetrics.registry.size = 0 := empty
    apply tally_ext <;> simp [balance, none, nobody] <;> rfl
  have total : (results.map fun results => (results.map CallResult.due).sum).sum
      = (calls.map CallResult.due).sum := by
    rw [List.map_flatten, List.sum_flatten, List.map_map]
    rfl
  rw [zero, zero_add, total, sum_due] at booked
  have volume := congrArg (fun x => x.2.2.2.2) booked
  have counted : surplus e.emitted = 0 := surplus_of_pos trading.positive
  simp only [balance, counted] at volume
  have submitted := congrArg (fun x => x.1) booked
  have stages := congrArg (fun x => x.2.1) booked
  have waiting := congrArg (fun x => x.2.2.1) booked
  have executed := congrArg (fun x => x.2.2.2.1) booked
  simp only [balance] at submitted stages waiting executed
  exact ⟨Int.natCast_inj.mp submitted, by omega, by omega, Int.natCast_inj.mp executed,
    by rw [← volume, sub_zero]⟩

/-- **The counters agree with the results** as long as the submissions and releases, the trades and
their quantities add up to less than 64 bits hold. -/
theorem metrics_balance (setup : List (SetupCall P)) (earlier threads : List (List (EngineCall P)))
    {e₀ e : MatchingEngine P} {ps₀ : List (Prog (MatchingEngine P) Unit)}
    {results : List (List (CallResult P))}
    (before : Interleaves (setUp setup, earlier.map threadProgram) (e₀, ps₀))
    (finished : Finished ps₀) (empty : e₀.registry.size = 0)
    (run : Interleaves (e₀.resetMetrics, threads.map threadResults) (e, results.map Prog.ret))
    (orders : (results.flatten.map CallResult.submissions).sum
      + (results.flatten.map CallResult.released).sum < 2 ^ 64)
    (trades : (results.flatten.flatMap CallResult.trades).length < 2 ^ 64)
    (volume : tradedQuantity (results.flatten.flatMap CallResult.trades) < 2 ^ 64) :
    MetricsBalance e.metrics.read results.flatten e.registry.size := by
  obtain ⟨submitted, stages, queued, executed, traded⟩ :=
    balance_of_finished setup earlier threads before finished empty run
  have same : e.metrics.read = e.metrics := by
    unfold Metrics.read
    congr 1 <;> exact Nat.mod_eq_of_lt (by omega)
  rw [same]
  exact ⟨submitted, stages, queued, executed, traded⟩

end

/-- The seller queues two stop orders and cancels the first of them. -/
def twoStops : List (EngineCall ℚ) :=
  let stop := request 2 .sell .stop "AAPL" 1
  [.submitOrder 0 (fun _ => 0) (stop 80), .submitOrder 0 (fun _ => 0) (stop 92),
    .cancelWaitingOrder 3]

/-- A pass over all waiting orders. -/
def passNow : List (EngineCall ℚ) :=
  [.tryReleaseWaitingOrders ⟨⟨.stored, fun _ => .stored⟩, .stored⟩ 0 (fun _ _ => 0) true]

theorem metrics_balance_twoStops : ∃ e₀ e ps₀, ∃ results : List (List (CallResult ℚ)),
    Interleaves (setUp buyerAndSeller, [twoOffers].map threadProgram) (e₀, ps₀) ∧
      Interleaves (e₀.resetMetrics, [twoStops, buysUpTo 95, passNow].map threadResults)
        (e, results.map Prog.ret) ∧
      e.metrics = ⟨3, 2, 0, 2, 0, 1, 4⟩ ∧
      MetricsBalance e.metrics.read results.flatten e.registry.size := by
  have before := interleaves_exec [] [] (threadProgram twoOffers) (setUp buyerAndSeller)
  set e₀ := ((threadProgram twoOffers).exec (setUp buyerAndSeller)).2
  have first := interleaves_exec [] [threadResults (buysUpTo 95), threadResults passNow]
    (threadResults twoStops) e₀.resetMetrics
  set stops := (threadResults twoStops).exec e₀.resetMetrics
  have second := interleaves_exec [.ret stops.1] [threadResults passNow]
    (threadResults (buysUpTo 95)) stops.2
  set buys := (threadResults (buysUpTo 95)).exec stops.2
  have third := interleaves_exec [.ret stops.1, .ret buys.1] [] (threadResults passNow) buys.2
  set passed := (threadResults passNow).exec buys.2
  have run : Interleaves (e₀.resetMetrics,
      [twoStops, buysUpTo 95, passNow].map threadResults)
    (passed.2, [stops.1, buys.1, passed.1].map Prog.ret) := (first.trans second).trans third
  refine ⟨e₀, passed.2, _, _, before, run, by decide +kernel, ?_⟩
  exact metrics_balance buyerAndSeller [twoOffers] [twoStops, buysUpTo 95, passNow] before
    (by simp [Finished]) (by decide +kernel) run (by decide +kernel) (by decide +kernel)
    (by decide +kernel)

/-- Two clients with the cash and the shares for one large trade. -/
def largeAccounts : List (SetupCall ℚ) :=
  [.registerSymbol "AAPL" 1, .ensureClient 1 (2 ^ 62), .ensureClient 2 0,
    .grantInitialHoldings 2 "AAPL" (2 ^ 62)]

/-- The two sell each other the same shares, four times. -/
def roundTrips : List (EngineCall ℚ) :=
  let trade (buyer seller : ClientId) : List (EngineCall ℚ) :=
    [.submitOrder 0 (fun _ => 0) (request seller .sell .limit "AAPL" (2 ^ 62) 1),
      .submitOrder 0 (fun _ => 0) (request buyer .buy .limit "AAPL" (2 ^ 62) 1)]
  trade 1 2 ++ trade 2 1 ++ trade 1 2 ++ trade 2 1

/-- The volume counter is at nothing after the four trades. -/
theorem volumeTraded_wraps : ¬∀ (setup : List (SetupCall ℚ))
    (threads : List (List (EngineCall ℚ))) (e : MatchingEngine ℚ)
    (results : List (List (CallResult ℚ))), (setUp setup).registry.size = 0 →
      Interleaves ((setUp setup).resetMetrics, threads.map threadResults)
        (e, results.map Prog.ret) →
        MetricsBalance e.metrics.read results.flatten e.registry.size := by
  intro claim
  have run := interleaves_exec [] [] (threadResults roundTrips) (setUp largeAccounts).resetMetrics
  have balance := claim largeAccounts [roundTrips] _ [_] (by decide) run
  exact absurd balance.volume (by decide +kernel)

end StockMarket
