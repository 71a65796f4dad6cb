import StockMarket.Lib.Phases
import StockMarket.Engine.OpenOrders

/-!
What a thread that calls the engine is in the middle of.

Between two calls a thread is idle. A submission first has an id, then an order that
passed the checks and, if the last price does not let it in, is held back; a release pass
has symbols to scan and released orders to match; a match leaves trades whose prices are
still to be noted and symbols still to be marked. `Move` lists what one action of a thread
does to its phase and to the engine, and every method follows these moves
(`performs_threadProgram`), so that a statement about all interleavings of engine calls
(`interleaves_iff_engineRun`) has to look at the moves only.
-/

namespace StockMarket

open Atomic MatchingEngine

variable {P : Type}

/-! ### Phases -/

/-- What a thread is in the middle of. -/
inductive Phase (P : Type) where
  | submitting (order : Order P)
  | checked (order : Order P)
  | held (order : Order P)
  | busy (toScan : List Symbol) (released : List (Order P)) (unpriced : List (Trade P))
  | marking (symbol : Symbol) (released : List (Order P)) (unpriced : List (Trade P))
  | probed (orderId : Nat) (symbol : Symbol)
  | missed (orderId : Nat) (symbol : Symbol)
  | cancelled (orderId : Nat)

namespace Phase

/-- Nothing is in progress. -/
@[match_pattern] abbrev idle : Phase P := .busy [] [] []

/-- The order that has an id but did not pass the checks yet. -/
def drafts : Phase P → List (Order P)
  | .submitting order => [order]
  | _ => []

/-- The orders that passed the checks and neither wait nor rest yet. -/
def underway : Phase P → List (Order P)
  | .checked order | .held order => [order]
  | .busy _ released _ | .marking _ released _ => released
  | _ => []

/-- The orders on their way from the registry to a book. -/
def released : Phase P → List (Order P)
  | .busy _ released _ | .marking _ released _ => released
  | _ => []

/-- The trades whose price is still to be noted. -/
def unpriced : Phase P → List (Trade P)
  | .busy _ _ unpriced | .marking _ _ unpriced => unpriced
  | _ => []

/-- The symbols that are still to be marked or scanned. -/
def attended : Phase P → List Symbol
  | .busy toScan _ _ => toScan
  | .marking symbol _ _ => [symbol]
  | _ => []

end Phase

/-- A cancellation in a book. -/
inductive BookCancel (P : Type) where
  | byId (orderId : Nat)
  | atPrice (side : Side) (price : P) (orderId : Nat)

namespace BookCancel

/-- The order it looks for. -/
def orderId : BookCancel P → Nat
  | .byId orderId | .atPrice _ _ orderId => orderId

variable [LT P] [DecidableLT P]

/-- What it does to a book. -/
def apply : BookCancel P → OrderBook P → Bool × OrderBook P
  | .byId orderId, b => b.cancel orderId
  | .atPrice side price orderId, b => b.cancelAtPrice side price orderId

theorem one [IsStrictOrder P (· < ·)] {s : Symbol} {b : OrderBook P} (book : BookOf s b) :
    ∀ c : BookCancel P, CancelsOne c.orderId b (c.apply b)
  | .byId orderId => cancel_one book orderId
  | .atPrice side price orderId => cancelAtPrice_one b side price orderId

end BookCancel

/-! ### Moves -/

/-- Only portfolios, counters, published events and discarded rests may differ. -/
structure SameMarket (e e' : MatchingEngine P) : Prop where
  books : e'.books = e.books
  lastPrices : e'.lastPrices = e.lastPrices
  registry : e'.registry = e.registry
  dirtySymbols : e'.dirtySymbols = e.dirtySymbols
  nextOrderId : e'.nextOrderId = e.nextOrderId
  emitted : e'.emitted = e.emitted

theorem SameMarket.refl (e : MatchingEngine P) : SameMarket e e :=
  ⟨rfl, rfl, rfl, rfl, rfl, rfl⟩

namespace MatchingEngine

/-- The engine after a cancellation in the registry. -/
def withoutWaiting (orderId : Nat) (e : MatchingEngine P) : MatchingEngine P :=
  { e with registry := (e.registry.cancel orderId).2 }

end MatchingEngine

section

variable [Zero P] [LT P] [DecidableLT P] [LE P] [DecidableLE P]

/-- What one action does to the phase of its thread and to the engine. -/
inductive Move : Phase P → MatchingEngine P → Phase P → MatchingEngine P → Prop where
  | quiet {e e' : MatchingEngine P} (φ : Phase P) (same : SameMarket e e') : Move φ e φ e'
  | draft {e : MatchingEngine P} {o : Order P} (fresh : o.id = e.nextOrderId) :
      Move .idle e (.submitting o) e.withId
  | reject {e : MatchingEngine P} (o : Order P) : Move (.submitting o) e .idle e
  | check {e : MatchingEngine P} {o : Order P} (pos : 0 < o.quantity) (known : o.symbol ∈ e.books) :
      Move (.submitting o) e (.checked o) e
  | refuse {e : MatchingEngine P} (o : Order P) : Move (.checked o) e .idle e
  | hold {e : MatchingEngine P} {o : Order P} {now : Int} (waits : ¬e.Ready now o) :
      Move (.checked o) e (.held o) e
  | queue {e : MatchingEngine P} (o : Order P) : Move (.held o) e .idle (enqueue o e)
  | matchNew {e : MatchingEngine P} (clock : Nat → Int) (o : Order P) :
      Move (.checked o) e (.busy [] [] (matchBook clock o e).1) (matchBook clock o e).2
  | matchReleased {e : MatchingEngine P} (clock : Nat → Int) (o : Order P)
      (later : List (Order P)) :
      Move (.busy [] (o :: later) []) e (.busy [] later (matchBook clock o e).1)
        (matchBook clock o e).2
  | price {e : MatchingEngine P} (t : Trade P) (released : List (Order P)) (ts : List (Trade P)) :
      Move (.busy [] released (t :: ts)) e (.marking t.symbol released ts)
        (setLastPrice t.symbol t.price e)
  | mark {e : MatchingEngine P} (s : Symbol) (released : List (Order P)) (ts : List (Trade P)) :
      Move (.marking s released ts) e (.busy [] released ts) (markDirty s e)
  | list {e : MatchingEngine P} (symbols : List Symbol) : Move .idle e (.busy symbols [] []) e
  | drain {e : MatchingEngine P} (order : IterationOrder Symbol Unit) :
      Move .idle e (.busy (drainDirtySymbols order e).1 [] []) (drainDirtySymbols order e).2
  | scan {e : MatchingEngine P} (order : Symbol → IterationOrder Nat (Order P)) (now : Int)
      (s : Symbol) (symbols : List Symbol) (result : ScanResult P) :
      Move (.busy (s :: symbols) result.released []) e
        (.busy symbols (scanStep order now s result e).1.released [])
          (scanStep order now s result e).2
  | cancelBook {e : MatchingEngine P} (φ : Phase P) (c : BookCancel P) (s : Symbol) :
      Move φ e φ (e.withBook s (c.apply (e.bookFor s)).2)
  | cancelWaiting {e : MatchingEngine P} (φ : Phase P) (orderId : Nat) :
      Move φ e φ (e.withoutWaiting orderId)
  | probeUnknown {e : MatchingEngine P} (orderId : Nat) {s : Symbol} (unknown : s ∉ e.books) :
      Move .idle e (.probed orderId s) e
  | probe {e : MatchingEngine P} {orderId : Nat} {s : Symbol}
      (miss : ((e.bookFor s).cancel orderId).1 = false) :
      Move .idle e (.probed orderId s) (e.withBook s ((e.bookFor s).cancel orderId).2)
  | probeFound {e : MatchingEngine P} {orderId : Nat} {s : Symbol}
      (hit : ((e.bookFor s).cancel orderId).1 = true) :
      Move .idle e (.cancelled orderId) (e.withBook s ((e.bookFor s).cancel orderId).2)
  | miss {e : MatchingEngine P} {orderId : Nat} (s : Symbol)
      (miss : (e.registry.cancel orderId).1 = false) :
      Move (.probed orderId s) e (.missed orderId s) (e.withoutWaiting orderId)
  | found {e : MatchingEngine P} {orderId : Nat} (s : Symbol)
      (hit : (e.registry.cancel orderId).1 = true) :
      Move (.probed orderId s) e (.cancelled orderId) (e.withoutWaiting orderId)

/-- The program moves from the one phase to the other. -/
abbrev Performs {α : Type} (p : Prog (MatchingEngine P) α) (φ φ' : Phase P) : Prop :=
  Follows Move (fun _ ψ => ψ = φ') p φ

theorem performs_pure {α : Type} (a : α) (φ : Phase P) :
    Performs (pure a : Prog (MatchingEngine P) α) φ φ := rfl

theorem Performs.bind {α β : Type} {p : Prog (MatchingEngine P) α}
    {k : α → Prog (MatchingEngine P) β}
    {φ φ' φ'' : Phase P} (first : Performs p φ φ') (rest : ∀ a, Performs (k a) φ' φ'') :
    Performs (p >>= k) φ φ'' :=
  Follows.bind first fun a _ eq => eq ▸ rest a

theorem performs_modify {f : MatchingEngine P → MatchingEngine P} (same : ∀ e, SameMarket e (f e))
    (φ : Phase P) : Performs (Prog.modify f) φ φ :=
  fun e => ⟨φ, .quiet φ (same e), rfl⟩

/-- What a thread reads may decide its next phase. -/
theorem follows_read {α : Type} (f : MatchingEngine P → α) {φ : Phase P} (next : α → Phase P)
    (moves : ∀ e, Move φ e (next (f e)) e) : Follows Move (fun a ψ => ψ = next a) (Prog.read f) φ :=
  fun e => ⟨next (f e), moves e, rfl⟩

theorem performs_read {α : Type} (f : MatchingEngine P → α) (φ : Phase P) :
    Performs (Prog.read f) φ φ :=
  fun e => ⟨φ, .quiet φ (.refl e), rfl⟩

theorem performs_publish (event : Event P) (φ : Phase P) :
    Performs (Prog.modify (publish event)) φ φ :=
  performs_modify (f := publish event) (fun _ => ⟨rfl, rfl, rfl, rfl, rfl, rfl⟩) φ

theorem performs_count (f : Metrics → Metrics) (φ : Phase P) :
    Performs (Prog.modify (count f)) φ φ :=
  performs_modify (f := count f) (fun _ => ⟨rfl, rfl, rfl, rfl, rfl, rfl⟩) φ

/-! ### Matching -/

variable [Add P] [Sub P] [Mul P] [IntCast P]

omit [Zero P] in
theorem performs_settle [Zero P] (t : Trade P) (φ : Phase P) :
    Performs (Prog.modify (settle t)) φ φ :=
  performs_modify (f := settle t) (fun _ => ⟨rfl, rfl, rfl, rfl, rfl, rfl⟩) φ

/-- The loop over the trades of a match notes each price and marks its symbol. -/
theorem performs_settleTrades (released : List (Order P)) : ∀ trades : List (Trade P),
    Performs (settleTrades trades) (.busy [] released trades) (.busy [] released [])
  | [] => rfl
  | t :: ts => by
      refine (performs_settle t _).bind fun _ => ?_
      intro e
      refine ⟨_, .price t released ts, ?_⟩
      intro e
      refine ⟨_, .mark t.symbol released ts, ?_⟩
      refine (performs_publish _ _).bind fun _ => ?_
      exact performs_settleTrades released ts

/-- What is left of `match_and_settle` after the match. -/
theorem performs_settlement (o : Order P) (later : List (Order P)) (trades : List (Trade P)) :
    Performs (do
      .modify (count fun m => { m with ordersAccepted := m.ordersAccepted + 1 })
      .modify (publish (.orderAccepted o.id o.client o.symbol))
      settleTrades trades
      .modify (count fun m => { m with tradesExecuted := m.tradesExecuted + trades.length })
      .modify (count fun m =>
        { m with volumeTraded := m.volumeTraded + (trades.map fun t => t.quantity.toNat).sum })
      return {
        accepted := true
        orderId := o.id
        filledQuantity := tradedQuantity trades
        trades := trades : SubmitResult P }) (.busy [] later trades) (.busy [] later []) := by
  refine (performs_count _ _).bind fun _ => ?_
  refine (performs_publish _ _).bind fun _ => ?_
  refine (performs_settleTrades later _).bind fun _ => ?_
  refine (performs_count _ _).bind fun _ => ?_
  refine (performs_count _ _).bind fun _ => ?_
  exact performs_pure _ _

/-- A match, in whichever way the thread has come by the order. -/
theorem performs_matchAndSettle {clock : Nat → Int} {o : Order P} {φ : Phase P}
    {later : List (Order P)} (taken : ∀ e, Move φ e (.busy [] later (matchBook clock o e).1)
      (matchBook clock o e).2) :
    Performs (matchAndSettle clock o) φ (.busy [] later []) :=
  fun e => ⟨_, taken e, performs_settlement o later _⟩

/-- The released orders of a pass are matched in their order. -/
theorem performs_releaseAll (clock : Nat → Nat → Int) : ∀ (n : Nat) (orders : List (Order P)),
    Performs (releaseAll clock n orders) (.busy [] orders []) .idle
  | _, [] => rfl
  | n, o :: orders => by
      refine (performs_matchAndSettle fun _ => .matchReleased (clock n) o orders).bind fun _ => ?_
      refine (performs_releaseAll clock (n + 1) orders).bind fun _ => ?_
      exact performs_pure _ _

/-! ### Submissions -/

omit [Add P] [Sub P] [Mul P] [IntCast P] in
theorem performs_reject (id : Nat) (client : ClientId) (reason : String) :
    Performs (reject id client reason : Prog (MatchingEngine P) _) .idle .idle := by
  refine (performs_count _ _).bind fun _ => ?_
  refine (performs_publish _ _).bind fun _ => ?_
  exact performs_pure _ _

variable [OfScientific P]

omit [LT P] [DecidableLT P] [DecidableLE P] [Add P] [Sub P] [Mul P] [IntCast P] [OfScientific P] in
/-- What the first checks establish. -/
theorem MatchingEngine.of_invalidReason_none [DecidableLE P] {e : MatchingEngine P}
    {request : OrderRequest P} (valid : e.invalidReason request = none) :
    0 < request.quantity ∧ request.symbol ∈ e.books := by
  unfold invalidReason at valid
  split_ifs at valid with quantity price known
  exact ⟨not_le.mp quantity, of_decide_eq_true known⟩

omit [Add P] [Sub P] [Mul P] [IntCast P] [OfScientific P] in
/-- The first checks let an order through or end the submission. -/
theorem follows_checks {request : OrderRequest P} {o : Order P}
    (quantity : o.quantity = request.quantity) (symbol : o.symbol = request.symbol) :
    Follows Move (fun reason φ => φ = if reason = none then .checked o else .idle)
      (Prog.read (invalidReason · request)) (.submitting o) := by
  refine follows_read _ (fun reason => if reason = none then .checked o else .idle) fun e => ?_
  split
  · rename_i valid
    obtain ⟨pos, known⟩ := MatchingEngine.of_invalidReason_none valid
    exact .check (quantity ▸ pos) (symbol ▸ known)
  · exact .reject o

omit [Add P] [Sub P] [Mul P] [IntCast P] [OfScientific P] in
/-- The risk check too. -/
theorem follows_riskCheck (o : Order P) (check : MatchingEngine P → Bool) :
    Follows Move (fun passes φ => φ = if passes then .checked o else .idle) (Prog.read check)
      (.checked o) := by
  refine follows_read check (fun passes => if passes then .checked o else .idle) fun e => ?_
  split
  · exact .quiet _ (.refl e)
  · exact .refuse o

omit [DecidableLE P] [Add P] [Sub P] [Mul P] [IntCast P] [OfScientific P] in
/-- An order that the last price does not let in is held back. -/
theorem follows_lastPrice [DecidableLE P] (o : Order P) (now : Int) :
    Follows Move (fun p φ => φ = if o.isStarted now ∧ o.releaseBandContains p then .checked o
      else .held o) (Prog.read (lastPrice · o.symbol)) (.checked o) := by
  refine follows_read _ (fun p => if o.isStarted now ∧ o.releaseBandContains p then .checked o
    else .held o) fun e => ?_
  split
  · exact .quiet _ (.refl e)
  · rename_i waits
    exact .hold waits

omit [OfScientific P] in
/-- The last part of a submission matches the order or queues it. -/
theorem performs_matchOrQueue (now : Int) (clock : Nat → Int) (o : Order P)
    (result : SubmitResult P) : Performs (do
      let referencePrice ← .read (lastPrice · o.symbol)
      if o.isStarted now ∧ o.releaseBandContains referencePrice then matchAndSettle clock o
      else
        .modify (count fun m => { m with ordersQueued := m.ordersQueued + 1 })
        .modify (enqueue o)
        .modify (publish (.orderQueued o.id o.client o.symbol))
        return result) (.checked o) .idle := by
  refine (follows_lastPrice o now).bind ?_
  rintro referencePrice φ rfl
  by_cases ready : o.isStarted now ∧ o.releaseBandContains referencePrice
  · rw [if_pos ready, if_pos ready]
    exact performs_matchAndSettle fun _ => .matchNew clock o
  · rw [if_neg ready, if_neg ready]
    refine (performs_count _ _).bind fun _ => ?_
    intro e
    refine ⟨.idle, .queue o, ?_⟩
    refine (performs_publish _ _).bind fun _ => ?_
    exact performs_pure _ _

theorem performs_submitOrder (now : Int) (clock : Nat → Int) (request : OrderRequest P) :
    Performs (submitOrder now clock request) .idle .idle := by
  refine (performs_count _ _).bind fun _ => ?_
  intro e
  set order := buildOrder request (fetchOrderId e).1 now
  refine ⟨.submitting order, .draft rfl, ?_⟩
  have checks : Follows Move (fun reason φ => φ = if reason = none then .checked order else .idle)
      (Prog.read (invalidReason · request)) (.submitting order) := follows_checks rfl rfl
  refine checks.bind ?_
  rintro reason φ rfl
  cases reason with
  | some reason => exact performs_reject _ _ _
  | none =>
      rw [if_pos rfl]
      refine (follows_riskCheck order _).bind ?_
      rintro passes φ rfl
      split
      · exact performs_reject _ _ _
      · rename_i holds
        rw [if_pos (not_not.mp holds)]
        exact performs_matchOrQueue now clock order _

/-! ### Release passes -/

omit [Add P] [Sub P] [Mul P] [IntCast P] [OfScientific P] in
/-- A scan takes the symbols one after the other and collects what it releases. -/
theorem follows_scanSymbolsStep (order : Symbol → IterationOrder Nat (Order P)) (now : Int) :
    ∀ (symbols : List Symbol) (result : ScanResult P),
      Follows Move (fun scan φ => φ = .busy [] scan.released [])
        (scanSymbolsStep order now symbols result) (.busy symbols result.released [])
  | [], _ => rfl
  | s :: symbols, result => fun _ =>
      ⟨_, .scan order now s symbols result, follows_scanSymbolsStep order now symbols _⟩

omit [Add P] [Sub P] [Mul P] [IntCast P] [OfScientific P] in
theorem performs_reportExpired (φ : Phase P) : ∀ orders : List (Order P),
    Performs (reportExpired orders) φ φ
  | [] => rfl
  | _ :: orders => by
      refine (performs_count _ _).bind fun _ => ?_
      refine (performs_publish _ _).bind fun _ => ?_
      exact performs_reportExpired φ orders

omit [Add P] [Sub P] [Mul P] [IntCast P] [OfScientific P] in
theorem follows_symbolsToScan (order : ReleaseOrder P) (fullScan : Bool) :
    Follows Move (fun symbols φ => φ = .busy symbols [] []) (symbolsToScan order fullScan)
      .idle := by
  unfold symbolsToScan
  split
  · exact fun e => ⟨_, .list _, rfl⟩
  · exact fun e => ⟨_, .drain order.dirty, rfl⟩

omit [OfScientific P] in
/-- A release pass, from the symbols to scan on. -/
theorem performs_pass (order : ReleaseOrder P) (now : Int) (clock : Nat → Nat → Int)
    (symbols : List Symbol) : Performs (do
      let scan ← scanSymbolsStep order.bucket now symbols {}
      let released ← releaseAll clock 0 scan.released
      reportExpired scan.expired
      return { released := released, expired := scan.expired : ReleaseSummary P })
      (.busy symbols [] []) .idle := by
  refine (follows_scanSymbolsStep order.bucket now symbols {}).bind ?_
  rintro scan _ rfl
  refine (performs_releaseAll clock 0 scan.released).bind fun _ => ?_
  refine (performs_reportExpired _ _).bind fun _ => ?_
  exact performs_pure _ _

omit [OfScientific P] in
theorem performs_tryReleaseWaitingOrders (order : ReleaseOrder P) (now : Int)
    (clock : Nat → Nat → Int) (fullScan : Bool) :
    Performs (tryReleaseWaitingOrders order now clock fullScan) .idle .idle := by
  refine (follows_symbolsToScan order fullScan).bind ?_
  rintro symbols _ rfl
  exact performs_pass order now clock symbols

/-! ### Cancellations -/

omit [Add P] [Sub P] [Mul P] [IntCast P] [OfScientific P] in
theorem performs_cancelOrder (symbol : Symbol) (orderId : Nat) :
    Performs (cancelOrder symbol orderId : Prog (MatchingEngine P) Bool) .idle .idle := by
  refine (performs_read _ _).bind fun known => ?_
  split
  · exact fun e => ⟨_, .cancelBook _ (.byId orderId) symbol, rfl⟩
  · exact performs_pure _ _

omit [Add P] [Sub P] [Mul P] [IntCast P] [OfScientific P] in
theorem performs_cancelOrderAt (symbol : Symbol) (side : Side) (price : P) (orderId : Nat) :
    Performs (cancelOrderAt symbol side price orderId) .idle .idle := by
  refine (performs_read _ _).bind fun known => ?_
  split
  · exact fun e => ⟨_, .cancelBook _ (.atPrice side price orderId) symbol, rfl⟩
  · exact performs_pure _ _

omit [Add P] [Sub P] [Mul P] [IntCast P] [OfScientific P] in
theorem performs_cancelWaitingOrder (orderId : Nat) :
    Performs (cancelWaitingOrder orderId : Prog (MatchingEngine P) Bool) .idle .idle :=
  fun _ => ⟨_, .cancelWaiting _ orderId, rfl⟩

/-! ### Threads -/

/-- Every call starts and ends with nothing in progress. -/
theorem performs_program (call : EngineCall P) : Performs call.program .idle .idle := by
  cases call with
  | submitOrder now clock request =>
      exact (performs_submitOrder now clock request).bind fun _ => performs_pure _ _
  | tryReleaseWaitingOrders order now clock fullScan =>
      refine Performs.bind ?_ fun _ => performs_pure _ _
      exact performs_tryReleaseWaitingOrders order now clock fullScan
  | cancelOrderAt symbol side price orderId =>
      exact (performs_cancelOrderAt symbol side price orderId).bind fun _ => performs_pure _ _
  | cancelOrder symbol orderId =>
      exact (performs_cancelOrder symbol orderId).bind fun _ => performs_pure _ _
  | cancelWaitingOrder orderId =>
      exact (performs_cancelWaitingOrder orderId).bind fun _ => performs_pure _ _

/-- **A thread that only makes calls follows the moves**, idle before the first of them and
after the last. -/
theorem performs_threadProgram : ∀ calls : List (EngineCall P),
    Performs (threadProgram calls) .idle .idle
  | [] => rfl
  | call :: calls => (performs_program call).bind fun _ => performs_threadProgram calls

/-- Threads that are about to make their calls. -/
def startThreads (threads : List (List (EngineCall P))) :
    List (Prog (MatchingEngine P) Unit × Phase P) :=
  threads.map fun calls => (threadProgram calls, .idle)

/-- A run of threads that make calls, with a condition on their moves. -/
abbrev EngineRun
    (allowed : MatchingEngine P → List (Phase P) → Phase P → Phase P → MatchingEngine P → Prop) :
    Phased (MatchingEngine P) (Phase P) Unit → Phased (MatchingEngine P) (Phase P) Unit → Prop :=
  PhasedRun Move (fun _ φ => φ = .idle) allowed

theorem phases_startThreads {threads : List (List (EngineCall P))} :
    ∀ φ ∈ phases (startThreads threads), φ = .idle := by
  intro φ mem
  rw [phases, startThreads, List.map_map] at mem
  obtain ⟨calls, -, rfl⟩ := List.mem_map.mp mem
  rfl

theorem following_startThreads (threads : List (List (EngineCall P))) :
    Following Move (fun _ φ => φ = .idle) (startThreads threads) := by
  intro t mem
  obtain ⟨calls, -, rfl⟩ := List.mem_map.mp mem
  exact performs_threadProgram calls

/-- **The interleavings of the calls are the runs** without a condition. -/
theorem interleaves_iff_engineRun {threads : List (List (EngineCall P))}
    {e e' : MatchingEngine P} {ps : List (Prog (MatchingEngine P) Unit)} :
    Interleaves (e, threads.map threadProgram) (e', ps) ↔ ∃ threads', threads'.map Prod.fst = ps ∧
      EngineRun (fun _ _ _ _ _ => True) (e, startThreads threads) (e', threads') := by
  have programs : (startThreads threads).map Prod.fst = threads.map threadProgram := by
    simp [startThreads]
  constructor
  · intro run
    obtain ⟨threads', same, -, phased⟩ := run.phased programs (following_startThreads threads)
    exact ⟨threads', same, phased⟩
  · rintro ⟨threads', rfl, run⟩
    have erased := run.interleaves
    rwa [programs] at erased

end

end StockMarket
