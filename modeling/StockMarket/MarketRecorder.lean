import Mathlib.Data.List.Sort
import Mathlib.Data.String.Basic
import StockMarket.Book.Depth
import StockMarket.Lib.Watching
import StockMarket.MatchingEngine

/-!
The market recorder and its report (`include/market_recorder.hpp`, `src/market_recorder.cpp`).

A `MarketRecorder` subscribes to the bus for trades and counts, samples the engine while it runs
and, at the end, makes the tables that `write_report` prints. It never writes to the engine. The
bus delivers the published events one after the other; `Recorded` is the engine together with a
recorder and the number of events that it got.

The result of `writeReport` has the values of each file; that they are printed with twelve digits,
the files themselves and the errors of the file system are left out.
-/

namespace StockMarket

open Atomic

variable {P : Type}

/-- `MatchingEngine::snapshot`. -/
def MatchingEngine.snapshot (plus : Int → Int → Int) (e : MatchingEngine P) (symbol : Symbol)
    (depth : Nat) : BookSnapshot P :=
  if e.symbolExists symbol then (e.bookFor symbol).snapshot plus depth else ⟨[], []⟩

/-- `Portfolio::net_worth`: what has no price counts nothing. -/
def Portfolio.netWorth [Add P] [Mul P] [IntCast P] (order : IterationOrder Symbol Int)
    (prices : Table Symbol P) (p : Portfolio P) : P :=
  (order.walk p.holdings).foldl (fun total e =>
    (prices.lookup e.1).elim total fun price => total + (e.2 : P) * price) p.cash

/-- `holdings_to_string`. -/
def Portfolio.holdingsToString (p : Portfolio P) : String :=
  let sorted := p.holdings.entries.insertionSort fun e e' => e.1 ≤ e'.1
  String.intercalate ";" ((sorted.filter fun e => e.2 ≠ 0).map fun e => e.1 ++ ":" ++ toString e.2)

/-! ### What is recorded -/

structure TradeRow (P : Type) where
  elapsedMs : P
  trade : Trade P

/-- A row of `price_samples.csv`; a price is `0` where a side is empty. -/
structure PriceSample (P : Type) where
  elapsedMs : P
  symbol : Symbol
  lastPrice : P
  bestBid : P
  bestAsk : P
  bidDepth : Int
  askDepth : Int

/-- A row of `portfolio_samples.csv`. -/
structure PortfolioSample (P : Type) where
  elapsedMs : P
  client : ClientId
  cash : P
  netWorth : P

structure FirstSeen (P : Type) where
  elapsedMs : P
  cash : P
  netWorth : P

/-- `bookDepth` is that of `RecorderConfig`. -/
structure MarketRecorder (P : Type) where
  bookDepth : Nat := 10
  startTime : Int := 0
  trades : List (TradeRow P) := []
  rejectionsByReason : List (String × Nat) := []
  queuedEvents : Nat := 0
  expiredEvents : Nat := 0
  priceSamples : List (PriceSample P) := []
  portfolioSamples : List (PortfolioSample P) := []
  initialPrices : Table Symbol P := ∅
  firstSeen : Table ClientId (FirstSeen P) := ∅

/-- An engine with a recorder, which has got the first `delivered` events. -/
structure Recorded (P : Type) where
  engine : MatchingEngine P
  recorder : MarketRecorder P := {}
  delivered : Nat := 0

/-- What one sample meets: the clock and the iteration orders. -/
structure SampleTick (P : Type) where
  now : Int
  symbols : IterationOrder Symbol (OrderBook P)
  clients : IterationOrder ClientId (Portfolio P)
  holdings : IterationOrder Symbol Int

namespace BookSnapshot

variable (plus : Int → Int → Int)

/-- The total of the levels shown of one side. -/
def depthOf (levels : List (BookLevel P)) : Int :=
  levels.foldl (fun depth level => plus depth level.quantity) 0

/-- `snap.bids.empty() ? 0.0 : snap.bids.front().price`, for one side. -/
def bestOf [Zero P] (levels : List (BookLevel P)) : P :=
  (levels.head?.map BookLevel.price).getD 0

end BookSnapshot

namespace MarketRecorder

/-! ### Recording -/

section

variable [IntCast P] [Div P] [OfScientific P]

/-- `MarketRecorder::elapsed_ms`. -/
def elapsedMs (r : MarketRecorder P) (t : Int) : P :=
  ((t - r.startTime : Int) : P) / 1000000.0

/-- `MarketRecorder::on_event`. -/
def onEvent (r : MarketRecorder P) : Event P → MarketRecorder P
  | .trade t => { r with trades := r.trades ++ [⟨r.elapsedMs t.timestamp, t⟩] }
  | .orderRejected _ _ reason =>
    { r with rejectionsByReason := upsert reason 0 (· + 1) r.rejectionsByReason }
  | .orderQueued _ _ _ => { r with queuedEvents := r.queuedEvents + 1 }
  | .orderExpired _ _ _ => { r with expiredEvents := r.expiredEvents + 1 }
  | .orderAccepted _ _ _ => r

variable [Zero P] [Add P] [Mul P]

/-- One row of a sample. -/
def priceSample (plus : Int → Int → Int) (t : P) (prices : Table Symbol P) (symbol : Symbol)
    (snap : BookSnapshot P) : PriceSample P where
  elapsedMs := t
  symbol := symbol
  lastPrice := (prices.lookup symbol).getD 0
  bestBid := BookSnapshot.bestOf snap.bids
  bestAsk := BookSnapshot.bestOf snap.asks
  bidDepth := BookSnapshot.depthOf plus snap.bids
  askDepth := BookSnapshot.depthOf plus snap.asks

/-- A client's row of a sample. -/
def portfolioSample (order : IterationOrder Symbol Int) (t : P) (prices : Table Symbol P)
    (client : ClientId) (portfolio : Portfolio P) : PortfolioSample P where
  elapsedMs := t
  client := client
  cash := portfolio.cash
  netWorth := portfolio.netWorth order prices

/-- The recorder with one more row for a client, who may be seen for the first time. -/
def addPortfolio (r : MarketRecorder P) (row : PortfolioSample P) : MarketRecorder P :=
  { r with
    portfolioSamples := r.portfolioSamples ++ [row]
    firstSeen := Table.tryEmplace row.client ⟨row.elapsedMs, row.cash, row.netWorth⟩ r.firstSeen }

/-- What `take_sample` appends under its own mutex. -/
def addSample (rows : List (PriceSample P)) (clients : List (PortfolioSample P))
    (r : MarketRecorder P) : MarketRecorder P :=
  clients.foldl addPortfolio { r with priceSamples := r.priceSamples ++ rows }

end

end MarketRecorder

namespace Recorded

/-- The engine may change, and nothing else. -/
def withEngine (e : MatchingEngine P) (x : Recorded P) : Recorded P :=
  { x with engine := e }

/-- The recorder may change, and nothing else. -/
def record (f : MarketRecorder P → MarketRecorder P) (x : Recorded P) : Recorded P :=
  { x with recorder := f x.recorder }

section

variable [IntCast P] [Div P] [OfScientific P]

/-- The bus delivers the next event, if there is one. -/
def deliver (x : Recorded P) : Recorded P :=
  match x.engine.published[x.delivered]? with
  | none => x
  | some event =>
    { x with recorder := x.recorder.onEvent event, delivered := x.delivered + 1 }

/-- `NotificationBus::flush` returns: the events that were published are delivered. -/
def flush (x : Recorded P) : Recorded P :=
  { x with
    recorder := (x.engine.published.drop x.delivered).foldl MarketRecorder.onEvent x.recorder
    delivered := x.engine.published.length }

variable [Zero P] [Add P] [Mul P]

/-- `MarketRecorder::take_sample`. -/
def takeSample (plus : Int → Int → Int) (tick : SampleTick P) : Prog (Recorded P) Unit := do
  let r ← .read recorder
  let t := r.elapsedMs tick.now
  let prices ← .read (·.engine.lastPrices)
  let portfolios ← .read (·.engine.portfolios)
  let symbols ← .read fun x => (tick.symbols.walk x.engine.books).map fun e => e.1
  let snaps ← .readEach (fun symbol x => x.engine.snapshot plus symbol r.bookDepth) symbols
  .modify (record (MarketRecorder.addSample
    (List.zipWith (MarketRecorder.priceSample plus t prices) symbols snaps)
    ((tick.clients.walk portfolios).map fun e =>
      MarketRecorder.portfolioSample tick.holdings t prices e.1 e.2)))

/-- `MarketRecorder::start`, before the sampler starts. -/
def start (plus : Int → Int → Int) (tick : SampleTick P) : Prog (Recorded P) Unit := do
  .modify (record fun r => { r with startTime := tick.now })
  let prices ← .read (·.engine.lastPrices)
  .modify (record fun r => { r with initialPrices := prices })
  takeSample plus tick

/-- The worker of the bus delivers some events. -/
def delivering : Nat → Prog (Recorded P) Unit
  | 0 => return ()
  | n + 1 => do
    .modify deliver
    delivering n

/-- `MarketRecorder::sampler_loop`. -/
def samplerLoop (plus : Int → Int → Int) : List (SampleTick P) → Prog (Recorded P) Unit
  | [] => return ()
  | tick :: ticks => do
    takeSample plus tick
    samplerLoop plus ticks

variable [Sub P] [LT P] [DecidableLT P] [LE P] [DecidableLE P]

/-- Threads that call the engine, the worker of the bus and the sampler. -/
def threads (plus : Int → Int → Int) (calls : List (List (EngineCall P))) (events : Nat)
    (ticks : List (SampleTick P)) : List (Prog (Recorded P) Unit) :=
  (calls.map threadProgram).map (Prog.zoom Recorded.engine withEngine) ++
    [delivering events, samplerLoop plus ticks]

end

end Recorded

/-! ### The report -/

/-- `SymbolStats`; no trade leaves the bounds infinite. -/
structure SymbolStats (P : Type) where
  trades : Nat
  volume : Int
  notional : P
  high : Option P
  low : Option P

/-- `SymbolStats{}`. -/
instance [Zero P] : Inhabited (SymbolStats P) := ⟨⟨0, 0, 0, none, none⟩⟩

/-- A row of `symbols.csv`. A cell that may be left empty is an option. -/
structure SymbolRow (P : Type) where
  symbol : Symbol
  initialPrice : P
  finalPrice : P
  changePct : P
  high : Option P
  low : Option P
  vwap : Option P
  trades : Nat
  volume : Int
  notional : P
  bestBid : Option P
  bestAsk : Option P
  spread : Option P
  bidDepth : Int
  askDepth : Int
  imbalance : P
  restingOrders : Nat
  waitingOrders : Nat

/-- A row of `portfolios_final.csv`. -/
structure PortfolioRow (P : Type) where
  client : ClientId
  firstSeenMs : P
  initialCash : P
  initialNetWorth : P
  finalCash : P
  finalNetWorth : P
  pnl : P
  pnlPct : P
  tradesAsBuyer : Nat
  tradesAsSeller : Nat
  holdings : String

/-- The lines of `summary.csv`, without those about latencies and the sample interval. -/
structure Summary (P : Type) where
  durationS : P
  symbols : Nat
  clients : Nat
  trades : Nat
  volume : Int
  notional : P
  ordersSubmitted : Nat
  ordersAccepted : Nat
  ordersRejected : Nat
  ordersQueued : Nat
  ordersExpired : Nat
  restingOrdersFinal : Nat
  waitingOrdersFinal : Nat
  totalCashInitial : P
  totalCashFinal : P

/-- What `write_report` puts into its files. -/
structure Report (P : Type) where
  trades : List (TradeRow P)
  priceSamples : List (PriceSample P)
  portfolioSamples : List (PortfolioSample P)
  orderBookFinal : List (BookRow P)
  restingOrders : List (Order P)
  waitingOrders : List (Order P)
  symbols : List (SymbolRow P)
  portfoliosFinal : List (PortfolioRow P)
  rejections : List (String × Nat)
  summary : Summary P

/-- What the report meets. -/
structure ReportTick (P : Type) where
  sample : SampleTick P
  symbols : IterationOrder Symbol (OrderBook P)
  holdings : IterationOrder Symbol Int
  now : Int

namespace SymbolStats

variable [LT P] [DecidableLT P]

/-- `std::max` with a bound that is minus infinity at first. -/
def raised (price : P) : Option P → P
  | none => price
  | some high => if high < price then price else high

/-- `std::min` with a bound that is infinity at first. -/
def lowered (price : P) : Option P → P
  | none => price
  | some low => if price < low then price else low

/-- The statistics with one more trade. -/
def add [Add P] [Mul P] [IntCast P] (plus : Int → Int → Int) (t : Trade P) (s : SymbolStats P) :
    SymbolStats P where
  trades := s.trades + 1
  volume := plus s.volume t.quantity
  notional := s.notional + (t.quantity : P) * t.price
  high := some (raised t.price s.high)
  low := some (lowered t.price s.low)

end SymbolStats

/-- How often each key comes, `++table[key]`. -/
def countBy {α K : Type} [DecidableEq K] (key : α → K) (items : List α) : Table K Nat :=
  items.foldl (fun table item => Table.update (key item) 0 (· + 1) table) ∅

namespace Report

/-- The largest value of `std::size_t`. -/
def unlimited : Nat := 18446744073709551615

section

variable [Zero P] [Add P] [Sub P] [Mul P] [Div P] [IntCast P] [OfScientific P] [LinearOrder P]
  (plus : Int → Int → Int)

/-- The statistics of each symbol. -/
def statsOf (trades : List (TradeRow P)) : Table Symbol (SymbolStats P) :=
  trades.foldl (fun stats row =>
    Table.update row.trade.symbol default (SymbolStats.add plus row.trade) stats) ∅

/-- The row of a symbol. -/
def symbolRow (initial final : Table Symbol P) (stats : SymbolStats P) (symbol : Symbol)
    (snap : BookSnapshot P) (resting waiting : Nat) : SymbolRow P :=
  let initialPrice := (initial.lookup symbol).getD 0
  let finalPrice := (final.lookup symbol).getD 0
  let bidDepth := BookSnapshot.depthOf plus snap.bids
  let askDepth := BookSnapshot.depthOf plus snap.asks
  let bestBid := snap.bids.head?.map BookLevel.price
  let bestAsk := snap.asks.head?.map BookLevel.price
  let totalDepth : P := ((plus bidDepth askDepth : Int) : P)
  { symbol := symbol
    initialPrice := initialPrice
    finalPrice := finalPrice
    changePct := if 0 < initialPrice then (finalPrice - initialPrice) / initialPrice * 100.0 else 0
    high := if 0 < stats.trades then stats.high else none
    low := if 0 < stats.trades then stats.low else none
    vwap := if 0 < stats.trades then some (stats.notional / (stats.volume : P)) else none
    trades := stats.trades
    volume := stats.volume
    notional := stats.notional
    bestBid := bestBid
    bestAsk := bestAsk
    spread := bestAsk.bind fun ask => bestBid.map fun bid => ask - bid
    bidDepth := bidDepth
    askDepth := askDepth
    imbalance :=
      if 0 < totalDepth then ((bidDepth : P) - (askDepth : P)) / totalDepth else 0
    restingOrders := resting
    waitingOrders := waiting }

/-- The row of a client. -/
def portfolioRow (order : IterationOrder Symbol Int) (final : Table Symbol P)
    (firstSeen : Table ClientId (FirstSeen P)) (buys sells : Table ClientId Nat)
    (portfolios : Table ClientId (Portfolio P)) (client : ClientId) : PortfolioRow P :=
  let portfolio := (portfolios.lookup client).getD default
  let finalNetWorth := portfolio.netWorth order final
  let seen := (firstSeen.lookup client).getD ⟨0, portfolio.cash, finalNetWorth⟩
  let pnl := finalNetWorth - seen.netWorth
  { client := client
    firstSeenMs := seen.elapsedMs
    initialCash := seen.cash
    initialNetWorth := seen.netWorth
    finalCash := portfolio.cash
    finalNetWorth := finalNetWorth
    pnl := pnl
    pnlPct := if seen.netWorth = 0 then 0 else pnl / seen.netWorth * 100.0
    tradesAsBuyer := (buys.lookup client).getD 0
    tradesAsSeller := (sells.lookup client).getD 0
    holdings := portfolio.holdingsToString }

end

end Report

section

variable [Zero P] [Add P] [Sub P] [Mul P] [Div P] [IntCast P] [OfScientific P] [LinearOrder P]

/-- `MarketRecorder::write_report`. The recorder is read once: its mutex is held from there on. -/
def Recorded.writeReport (plus : Int → Int → Int) (tick : ReportTick P) :
    Prog (Recorded P) (Report P) := do
  .modify Recorded.flush
  Recorded.takeSample plus tick.sample
  let finalPrices ← .read (·.engine.lastPrices)
  let finalPortfolios ← .read (·.engine.portfolios)
  let symbols ← .read fun x =>
    ((tick.symbols.walk x.engine.books).map fun e => e.1).insertionSort (· ≤ ·)
  let resting ← .readEach (fun symbol x => x.engine.restingOrders symbol) symbols
  let waiting ← .read fun x => x.engine.waitingOrders.insertionSort fun o o' => o.id ≤ o'.id
  let r ← .read Recorded.recorder
  let snaps ← .readEach (fun symbol x => x.engine.snapshot plus symbol Report.unlimited) symbols
  let metrics ← .read (·.engine.metrics)
  let stats := Report.statsOf plus r.trades
  let buys := countBy (fun row => row.trade.buyer) r.trades
  let sells := countBy (fun row => row.trade.seller) r.trades
  let waitingBySymbol := countBy Order.symbol waiting
  let clients := finalPortfolios.keys.insertionSort (· ≤ ·)
  let rows := clients.map
    (Report.portfolioRow tick.holdings finalPrices r.firstSeen buys sells finalPortfolios)
  return {
    trades := r.trades
    priceSamples := r.priceSamples
    portfolioSamples := r.portfolioSamples
    orderBookFinal := (List.zipWith (orderBookFinal plus) symbols resting).flatten
    restingOrders := resting.flatten
    waitingOrders := waiting
    symbols := (symbols.zip (resting.zip snaps)).map fun e =>
      Report.symbolRow plus r.initialPrices finalPrices ((stats.lookup e.1).getD default) e.1 e.2.2
        e.2.1.length ((waitingBySymbol.lookup e.1).getD 0)
    portfoliosFinal := rows
    rejections := r.rejectionsByReason
    summary := {
      durationS := r.elapsedMs tick.now / 1000.0
      symbols := symbols.length
      clients := finalPortfolios.keys.length
      trades := r.trades.length
      volume := (r.trades.map fun row => row.trade.quantity).foldl plus 0
      notional := (r.trades.map fun row =>
      (row.trade.quantity : P) * row.trade.price).foldl (· + ·) 0
      ordersSubmitted := metrics.ordersSubmitted
      ordersAccepted := metrics.ordersAccepted
      ordersRejected := (r.rejectionsByReason.map Prod.snd).sum
      ordersQueued := r.queuedEvents
      ordersExpired := r.expiredEvents
      restingOrdersFinal := resting.flatten.length
      waitingOrdersFinal := waiting.length
      totalCashInitial := (rows.map PortfolioRow.initialCash).foldl (· + ·) 0
      totalCashFinal := (rows.map PortfolioRow.finalCash).foldl (· + ·) 0 } }

end

end StockMarket
