import StockMarket.OrderBook
import StockMarket.OrderRegistry
import StockMarket.Lib.Atomic

/-!
The matching engine (`include/matching_engine.hpp`, `src/matching_engine.cpp`).

An engine method is a program of atomic actions (`Atomic.Prog`), one for each
section that the source runs under a mutex or on an atomic variable: run alone it
is the sequential method, in a pool of threads it is what may be interleaved.
The values of `Clock::now()` and the iteration orders of the hash tables, which
the code does not determine, are parameters of the methods.

Prices and cash are of a type `P` with the operations and comparisons of a
`double`. The latency histogram, which only measures time, is left out.
-/

namespace StockMarket

open Atomic

variable {P : Type}

/-! ### Portfolios -/

structure Portfolio (P : Type) where
  cash : P
  holdings : Table Symbol Int := ∅

/-- `Portfolio{}`. -/
instance [Zero P] : Inhabited (Portfolio P) := ⟨{ cash := 0 }⟩

/-- `Portfolio::holding`. -/
def Portfolio.holding (p : Portfolio P) (symbol : Symbol) : Int :=
  (p.holdings.lookup symbol).getD 0

/-! ### Events and counters -/

/-- What the engine publishes on the notification bus. -/
inductive Event (P : Type) where
  | trade (trade : Trade P)
  | orderRejected (orderId : Nat) (client : ClientId) (reason : String)
  | orderAccepted (orderId : Nat) (client : ClientId) (symbol : Symbol)
  | orderQueued (orderId : Nat) (client : ClientId) (symbol : Symbol)
  | orderExpired (orderId : Nat) (client : ClientId) (symbol : Symbol)

/-- The counters of `MetricsRegistry`. -/
structure Metrics where
  ordersSubmitted : Nat := 0
  ordersAccepted : Nat := 0
  ordersRejected : Nat := 0
  ordersQueued : Nat := 0
  ordersExpired : Nat := 0
  tradesExecuted : Nat := 0
  volumeTraded : Nat := 0
  deriving DecidableEq, Repr

/-- The engine. The last two fields are history variables, which no method reads:
`emitted` has every trade that some book returned, in the order of the matches,
and `discarded` has what matching left of each MARKET order. -/
structure MatchingEngine (P : Type) where
  books : Table Symbol (OrderBook P) := ∅
  lastPrices : Table Symbol P := ∅
  portfolios : Table ClientId (Portfolio P) := ∅
  registry : OrderRegistry P := {}
  dirtySymbols : Table Symbol Unit := ∅
  nextOrderId : Nat := 1
  metrics : Metrics := {}
  published : List (Event P) := []
  emitted : List (Trade P) := []
  discarded : List (Order P) := []

/-- `MatchingEngine::ReleaseSummary`. -/
structure ReleaseSummary (P : Type) where
  released : List (SubmitResult P)
  expired : List (Order P)

/-- The iteration orders that a release pass meets. -/
structure ReleaseOrder (P : Type) extends ScanOrder P where
  dirty : IterationOrder Symbol Unit

namespace MatchingEngine

/-! ### Single actions -/

/-- `NotificationBus::publish`. -/
def publish (event : Event P) (e : MatchingEngine P) : MatchingEngine P :=
  { e with published := e.published ++ [event] }

/-- One or more counters move. -/
def count (f : Metrics → Metrics) (e : MatchingEngine P) : MatchingEngine P :=
  { e with metrics := f e.metrics }

/-- `MetricsRegistry::reset`. -/
def resetMetrics (e : MatchingEngine P) : MatchingEngine P :=
  { e with metrics := {} }

/-- `MatchingEngine::symbol_exists`. -/
def symbolExists (e : MatchingEngine P) (symbol : Symbol) : Bool :=
  symbol ∈ e.books

/-- `MatchingEngine::book_for`. For an unknown symbol the source throws; no method
gets there, since orders for unknown symbols are rejected and books stay. -/
def bookFor (e : MatchingEngine P) (symbol : Symbol) : OrderBook P :=
  (e.books.lookup symbol).getD (OrderBook.new symbol)

/-- `MatchingEngine::mark_dirty`. -/
def markDirty (symbol : Symbol) (e : MatchingEngine P) : MatchingEngine P :=
  { e with dirtySymbols := e.dirtySymbols.insert symbol () }

/-- `MatchingEngine::drain_dirty_symbols`. -/
def drainDirtySymbols (order : IterationOrder Symbol Unit) (e : MatchingEngine P) :
    List Symbol × MatchingEngine P :=
  ((order.walk e.dirtySymbols).map fun entry => entry.1, { e with dirtySymbols := ∅ })

/-- `last_prices_[symbol] = price`. -/
def setLastPrice (symbol : Symbol) (price : P) (e : MatchingEngine P) : MatchingEngine P :=
  { e with lastPrices := e.lastPrices.insert symbol price }

/-- `next_order_id_.fetch_add(1)`. -/
def fetchOrderId (e : MatchingEngine P) : Nat × MatchingEngine P :=
  (e.nextOrderId, { e with nextOrderId := e.nextOrderId + 1 })

/-- `registry_.add(order)`. -/
def enqueue (order : Order P) (e : MatchingEngine P) : MatchingEngine P :=
  { e with registry := e.registry.add order }

/-- `MatchingEngine::portfolio_snapshot`. -/
def portfolioSnapshot [Zero P] (e : MatchingEngine P) (client : ClientId) : Portfolio P :=
  (e.portfolios.lookup client).getD default

/-- `MatchingEngine::last_price`. -/
def lastPrice [Zero P] (e : MatchingEngine P) (symbol : Symbol) : P :=
  (e.lastPrices.lookup symbol).getD 0

/-- `book_for(order.symbol).match(order)`. -/
def matchBook [LT P] [DecidableLT P] (clock : Nat → Int) (order : Order P)
    (e : MatchingEngine P) : List (Trade P) × MatchingEngine P :=
  let (trades, book) := (e.bookFor order.symbol).matchOrder clock order
  let unfilled := (e.bookFor order.symbol).unfilled clock order
  (trades,
    { e with
      books := e.books.insert order.symbol book
      emitted := e.emitted ++ trades
      discarded :=
        if order.kind = .market then e.discarded ++ [order.withQuantity unfilled]
        else e.discarded })

/-! ### Setting up -/

/-- `MatchingEngine::register_symbol`. -/
def registerSymbol (symbol : Symbol) (initialPrice : P) (e : MatchingEngine P) :
    MatchingEngine P :=
  { e with
    books := Table.tryEmplace symbol (OrderBook.new symbol) e.books
    lastPrices := e.lastPrices.insert symbol initialPrice }

/-- `MatchingEngine::ensure_client`. -/
def ensureClient (client : ClientId) (initialCash : P) (e : MatchingEngine P) :
    MatchingEngine P :=
  { e with portfolios := Table.tryEmplace client { cash := initialCash } e.portfolios }

/-- `MatchingEngine::grant_initial_holdings`. -/
def grantInitialHoldings [Zero P] (client : ClientId) (symbol : Symbol) (quantity : Int)
    (e : MatchingEngine P) : MatchingEngine P :=
  { e with
    portfolios := Table.update client default
      (fun p => { p with holdings := Table.update symbol 0 (· + quantity) p.holdings })
      e.portfolios }

/-! ### Settlement and the risk check -/

section

variable [Zero P] [Add P] [Sub P] [Mul P] [IntCast P]

/-- A portfolio after its owner paid `cash` and received `quantity` shares. -/
def debit (symbol : Symbol) (cash : P) (quantity : Int) (p : Portfolio P) : Portfolio P where
  cash := p.cash - cash
  holdings := Table.update symbol 0 (· + quantity) p.holdings

/-- A portfolio after its owner received `cash` and gave `quantity` shares. -/
def credit (symbol : Symbol) (cash : P) (quantity : Int) (p : Portfolio P) : Portfolio P where
  cash := p.cash + cash
  holdings := Table.update symbol 0 (· - quantity) p.holdings

/-- `MatchingEngine::settle`. -/
def settle (trade : Trade P) (e : MatchingEngine P) : MatchingEngine P :=
  let notional := (trade.quantity : P) * trade.price
  let portfolios :=
    Table.update trade.buyer default (debit trade.symbol notional trade.quantity) e.portfolios
  { e with
    portfolios := Table.update trade.seller default
      (credit trade.symbol notional trade.quantity) portfolios }

variable [LE P] [DecidableLE P] [OfScientific P]

/-- `kMarketOrderCashSafetyFactor`. -/
def marketOrderCashSafetyFactor : P := 1.10

/-- `MatchingEngine::passes_risk_check`. -/
def passesRiskCheck (e : MatchingEngine P) (client : ClientId) (side : Side) (kind : OrderKind)
    (symbol : Symbol) (quantity : Int) (price : P) : Bool :=
  match e.portfolios.lookup client with
  | none => false
  | some portfolio =>
    match side with
    | .sell => quantity ≤ portfolio.holding symbol
    | .buy =>
      let reference :=
        if kind = .market then e.lastPrice symbol * marketOrderCashSafetyFactor else price
      (quantity : P) * reference ≤ portfolio.cash

end

/-! ### Orders -/

/-- `MatchingEngine::build_order`. -/
def buildOrder (request : OrderRequest P) (id : Nat) (now : Int) : Order P :=
  let band : Option P × Option P :=
    match request.kind with
    | .market | .limit | .limitStop => (request.triggerLower, request.triggerUpper)
    | .stop =>
      let trigger := request.triggerUpper.getD request.price
      match request.side with
      | .buy => (some trigger, none)
      | .sell => (none, some trigger)
  { id := id
    client := request.client
    side := request.side
    kind := request.kind
    symbol := request.symbol
    quantity := request.quantity
    price := request.price
    releaseLower := band.1
    releaseUpper := band.2
    submittedAt := now
    notBefore := request.notBeforeIn.map (after now)
    expiresAt := request.expiresIn.map (after now) }

/-! ### Methods -/

section

variable [Zero P] [Add P] [Sub P] [Mul P] [IntCast P] [LT P] [DecidableLT P]

/-- The loop of `match_and_settle` over the trades of a match. -/
def settleTrades : List (Trade P) → Prog (MatchingEngine P) Unit
  | [] => return ()
  | trade :: trades => do
    .modify (settle trade)
    .modify (setLastPrice trade.symbol trade.price)
    .modify (markDirty trade.symbol)
    .modify (publish (.trade trade))
    settleTrades trades

/-- `MatchingEngine::match_and_settle`. -/
def matchAndSettle (clock : Nat → Int) (order : Order P) :
    Prog (MatchingEngine P) (SubmitResult P) := do
  let trades ← .step (matchBook clock order)
  .modify (count fun m => { m with ordersAccepted := m.ordersAccepted + 1 })
  .modify (publish (.orderAccepted order.id order.client order.symbol))
  settleTrades trades
  .modify (count fun m => { m with tradesExecuted := m.tradesExecuted + trades.length })
  .modify (count fun m =>
    { m with volumeTraded := m.volumeTraded + (trades.map fun t => t.quantity.toNat).sum })
  return {
    accepted := true
    orderId := order.id
    filledQuantity := tradedQuantity trades
    trades := trades }

variable [LE P] [DecidableLE P] [OfScientific P]

/-- A rejected submission. -/
def reject (id : Nat) (client : ClientId) (reason : String) :
    Prog (MatchingEngine P) (SubmitResult P) := do
  .modify (count fun m => { m with ordersRejected := m.ordersRejected + 1 })
  .modify (publish (.orderRejected id client reason))
  return { rejectReason := reason, orderId := id }

/-- The first check that a request fails, before any look at the portfolios. -/
def invalidReason (e : MatchingEngine P) (request : OrderRequest P) : Option String :=
  if request.quantity ≤ 0 then some "quantity must be positive"
  else if request.kind ≠ .market ∧ request.price ≤ 0 then
    some "LIMIT/STOP/LIMIT_STOP order requires a positive price"
  else if ¬e.symbolExists request.symbol then some "unknown symbol"
  else none

/-- `MatchingEngine::submit_order`. -/
def submitOrder (now : Int) (clock : Nat → Int) (request : OrderRequest P) :
    Prog (MatchingEngine P) (SubmitResult P) := do
  .modify (count fun m => { m with ordersSubmitted := m.ordersSubmitted + 1 })
  let id ← .step fetchOrderId
  match ← .read (invalidReason · request) with
  | some reason => reject id request.client reason
  | none =>
    let passes ← .read (passesRiskCheck · request.client request.side request.kind
      request.symbol request.quantity request.price)
    if ¬passes then
      reject id request.client
        (if request.side = .buy then "insufficient cash" else "insufficient holdings")
    else
      let order := buildOrder request id now
      let referencePrice ← .read (lastPrice · order.symbol)
      if order.isStarted now ∧ order.releaseBandContains referencePrice then
        matchAndSettle clock order
      else
        .modify (count fun m => { m with ordersQueued := m.ordersQueued + 1 })
        .modify (enqueue order)
        .modify (publish (.orderQueued id request.client request.symbol))
        return { accepted := true, queued := true, orderId := id }

/-- One symbol's part of a registry scan at the last prices. -/
def scanStep (order : Symbol → IterationOrder Nat (Order P)) (now : Int) (symbol : Symbol)
    (result : ScanResult P) (e : MatchingEngine P) : ScanResult P × MatchingEngine P :=
  let (registry, result) :=
    OrderRegistry.scanSymbol (order symbol) now (e.lastPrice symbol) symbol (e.registry, result)
  (result, { e with registry })

/-- The scan of several symbols, their results one after the other. It is one
action for each symbol: a full scan holds the mutex of the registry throughout,
but reads each symbol's price on its own. -/
def scanSymbolsStep (order : Symbol → IterationOrder Nat (Order P)) (now : Int) :
    List Symbol → ScanResult P → Prog (MatchingEngine P) (ScanResult P)
  | [], result => return result
  | symbol :: symbols, result => do
    let result ← .step (scanStep order now symbol result)
    scanSymbolsStep order now symbols result

/-- The released orders of a pass, matched one after the other. -/
def releaseAll (clock : Nat → Nat → Int) :
    Nat → List (Order P) → Prog (MatchingEngine P) (List (SubmitResult P))
  | _, [] => return []
  | n, order :: orders => do
    let result ← matchAndSettle (clock n) order
    let results ← releaseAll clock (n + 1) orders
    return result :: results

/-- The expired orders of a pass, reported one after the other. -/
def reportExpired : List (Order P) → Prog (MatchingEngine P) Unit
  | [] => return ()
  | order :: orders => do
    .modify (count fun m => { m with ordersExpired := m.ordersExpired + 1 })
    .modify (publish (.orderExpired order.id order.client order.symbol))
    reportExpired orders

/-- The symbols a release pass scans: all that have a bucket, or those drained from
the dirty set. -/
def symbolsToScan (order : ReleaseOrder P) (fullScan : Bool) :
    Prog (MatchingEngine P) (List Symbol) :=
  if fullScan then
    .read fun e => (order.symbols.walk e.registry.waitingBySymbol).map fun entry => entry.1
  else .step (drainDirtySymbols order.dirty)

/-- `MatchingEngine::try_release_waiting_orders`. `clock n` gives the time stamps
of the trades of the `n`-th released order. -/
def tryReleaseWaitingOrders (order : ReleaseOrder P) (now : Int) (clock : Nat → Nat → Int)
    (fullScan : Bool) : Prog (MatchingEngine P) (ReleaseSummary P) := do
  let symbols ← symbolsToScan order fullScan
  let scan ← scanSymbolsStep order.bucket now symbols {}
  let released ← releaseAll clock 0 scan.released
  reportExpired scan.expired
  return { released := released, expired := scan.expired }

/-- `MatchingEngine::cancel_order(symbol, side, price, order_id)`. -/
def cancelOrderAt (symbol : Symbol) (side : Side) (price : P) (orderId : Nat) :
    Prog (MatchingEngine P) Bool := do
  if ← .read (symbolExists · symbol) then
    .step fun e =>
      let (found, book) := (e.bookFor symbol).cancelAtPrice side price orderId
      (found, { e with books := e.books.insert symbol book })
  else return false

/-- `MatchingEngine::cancel_order(symbol, order_id)`. -/
def cancelOrder (symbol : Symbol) (orderId : Nat) : Prog (MatchingEngine P) Bool := do
  if ← .read (symbolExists · symbol) then
    .step fun e =>
      let (found, book) := (e.bookFor symbol).cancel orderId
      (found, { e with books := e.books.insert symbol book })
  else return false

/-- `MatchingEngine::cancel_waiting_order`. -/
def cancelWaitingOrder (orderId : Nat) : Prog (MatchingEngine P) Bool :=
  .step fun e =>
    let (found, registry) := e.registry.cancel orderId
    (found, { e with registry })

end

/-- `MatchingEngine::resting_orders`. -/
def restingOrders (e : MatchingEngine P) (symbol : Symbol) : List (Order P) :=
  if e.symbolExists symbol then (e.bookFor symbol).restingOrders else []

/-- `MatchingEngine::waiting_orders`. -/
def waitingOrders (e : MatchingEngine P) : List (Order P) :=
  e.registry.allWaiting

end MatchingEngine

/-! ### Calls -/

/-- A call that sets the engine up. -/
inductive SetupCall (P : Type) where
  | registerSymbol (symbol : Symbol) (initialPrice : P)
  | ensureClient (client : ClientId) (initialCash : P)
  | grantInitialHoldings (client : ClientId) (symbol : Symbol) (quantity : Int)

/-- The engine after a setting-up call. -/
def SetupCall.apply [Zero P] (e : MatchingEngine P) : SetupCall P → MatchingEngine P
  | .registerSymbol symbol price => e.registerSymbol symbol price
  | .ensureClient client cash => e.ensureClient client cash
  | .grantInitialHoldings client symbol quantity => e.grantInitialHoldings client symbol quantity

/-- The engine after setting-up calls. -/
def setUp [Zero P] : List (SetupCall P) → MatchingEngine P :=
  List.foldl SetupCall.apply {}

/-- A call of a trading method, with the values it meets. -/
inductive EngineCall (P : Type) where
  | submitOrder (now : Int) (clock : Nat → Int) (request : OrderRequest P)
  | tryReleaseWaitingOrders (order : ReleaseOrder P) (now : Int) (clock : Nat → Nat → Int)
      (fullScan : Bool)
  | cancelOrderAt (symbol : Symbol) (side : Side) (price : P) (orderId : Nat)
  | cancelOrder (symbol : Symbol) (orderId : Nat)
  | cancelWaitingOrder (orderId : Nat)

section

variable [Zero P] [Add P] [Sub P] [Mul P] [IntCast P] [LT P] [DecidableLT P] [LE P] [DecidableLE P]
  [OfScientific P]

/-- The program of a call, its result dropped. -/
def EngineCall.program : EngineCall P → Prog (MatchingEngine P) Unit
  | .submitOrder now clock request => do
    let _ ← MatchingEngine.submitOrder now clock request
    return ()
  | .tryReleaseWaitingOrders order now clock fullScan => do
    let _ ← MatchingEngine.tryReleaseWaitingOrders order now clock fullScan
    return ()
  | .cancelOrderAt symbol side price orderId => do
    let _ ← MatchingEngine.cancelOrderAt symbol side price orderId
    return ()
  | .cancelOrder symbol orderId => do
    let _ ← MatchingEngine.cancelOrder symbol orderId
    return ()
  | .cancelWaitingOrder orderId => do
    let _ ← MatchingEngine.cancelWaitingOrder orderId
    return ()

/-- A thread that makes one call after the other. -/
def threadProgram : List (EngineCall P) → Prog (MatchingEngine P) Unit
  | [] => return ()
  | call :: calls => do
    call.program
    threadProgram calls

/-- The engine after a call that runs alone. -/
def MatchingEngine.apply (e : MatchingEngine P) (call : EngineCall P) : MatchingEngine P :=
  (call.program.exec e).2

/-- The engine after calls that run one after the other. -/
def MatchingEngine.run (e : MatchingEngine P) (calls : List (EngineCall P)) : MatchingEngine P :=
  calls.foldl MatchingEngine.apply e

end

end StockMarket
