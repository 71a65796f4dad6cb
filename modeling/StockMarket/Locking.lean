import StockMarket.Lib.Locks
import StockMarket.Types

/-!
The locks and threads of the simulation and of its socket server.

Each function is given by the locks it takes, in its order, and the threads it starts, waits for
and hands events to. What it computes is left out, so that every branch and every number of rounds
is possible; a choice among `symbols` stands for whatever symbol the function is called with. Only
the event queue of the bus is data, since `flush` and the bus's worker wait for it.
-/

namespace StockMarket.Locking

open Locks

/-! ### Locks and threads -/

/-- The threads of both programs. A name may be that of several threads, as for connections. -/
inductive ThreadName where
  | main
  /-- `NotificationBus::worker_`. -/
  | worker
  | watcher
  | metrics
  | sampler
  | bot (i : Nat)
  | accept
  | persistence
  | connection
  deriving DecidableEq

/-- The mutexes. That of a book has the book's symbol. -/
inductive Mutex where
  /-- `MarketRecorder::subscription_mutex_`. -/
  | subscription
  /-- `NotificationBus::subscribers_mutex_`. -/
  | subscribers
  /-- `MarketRecorder::mutex_`. -/
  | recorder
  /-- `MarketData::mutex_`. -/
  | marketData
  | portfolios
  /-- `OrderRegistry::mutex_`. -/
  | registry
  /-- `ClientDirectory::mutex_`. -/
  | directory
  | books
  /-- `OrderBook::mutex_`. -/
  | book (symbol : Symbol)
  | prices
  | dirty
  /-- `NotificationBus::mutex_`. -/
  | queue
  | sampler
  /-- `Logger::mutex_`. -/
  | logger

/-- The data of a `NotificationBus`: the length of its queue, `in_flight_` and `stopping_`. -/
structure BusState where
  queue : Nat := 0
  inFlight : Int := 0
  stopping : Bool := false

abbrev Program := Code ThreadName Mutex BusState

open Code (block await)

/-- A critical section without further locks. -/
def locked (m : Mutex) : Program := .hold m .exclusive .skip

/-- The same under a shared lock. -/
def read (m : Mutex) : Program := .hold m .shared .skip

/-- One of some programs. -/
def oneOf (codes : List Program) : Program := codes.foldr .either .skip

/-- Perhaps. -/
def maybe (c : Program) : Program := .either c .skip

/-- `LOG_INFO` and the like; the level may be below the minimum. -/
def log : Program := maybe (locked .logger)

/-! ### The bus -/

namespace NotificationBus

def subscribe : Program := locked .subscribers
def unsubscribe : Program := locked .subscribers

def publish : Program :=
  .hold .queue .exclusive (.act fun s => { s with queue := s.queue + 1 })

def flush : Program := await .queue fun s => s.queue = 0 ∧ s.inFlight = 0

/-- One event goes to every subscriber. -/
def dispatch (subscribers : Program) : Program :=
  block [.hold .subscribers .exclusive subscribers,
    .hold .queue .exclusive (.act fun s => { s with inFlight := s.inFlight - 1 })]

/-- The worker's loop: wait for an event, or return when the bus stops and nothing is queued. -/
def run (subscribers : Program) : Program :=
  .serve .queue (fun s => s.stopping || 0 < s.queue)
    (fun s => if s.queue = 0 ∧ s.stopping then (false, s)
      else (true, { s with queue := s.queue - 1, inFlight := s.inFlight + 1 }))
    (dispatch subscribers)

/-- The destructor first tells the worker to stop. -/
def requestStop : Program :=
  .hold .queue .exclusive (.act fun s => { s with stopping := true })

end NotificationBus

/-! ### The engine -/

namespace OrderRegistry

def add : Program := locked .registry
def cancel : Program := locked .registry
def size : Program := locked .registry
def allWaiting : Program := locked .registry

/-- Each bucket asks for its reference price once. -/
def scanAndRelease (referencePrice : Program) : Program :=
  .hold .registry .exclusive (.loop referencePrice)

def scanAndReleaseSymbol (referencePrice : Program) : Program :=
  .hold .registry .exclusive (maybe referencePrice)

end OrderRegistry

namespace OrderBook

def match_ (symbol : Symbol) : Program := locked (.book symbol)
def cancel (symbol : Symbol) : Program := locked (.book symbol)
def snapshot (symbol : Symbol) : Program := read (.book symbol)
def restingOrders (symbol : Symbol) : Program := read (.book symbol)

end OrderBook

namespace MatchingEngine

def registerSymbol : Program := block [locked .books, locked .prices, log]
def ensureClient : Program := locked .portfolios
def grantInitialHoldings : Program := locked .portfolios
def bookFor : Program := read .books
def symbolExists : Program := read .books
def lastPrice : Program := read .prices
def allLastPrices : Program := read .prices
def portfolioSnapshot : Program := locked .portfolios
def allPortfolios : Program := locked .portfolios
def symbols : Program := read .books
def waitingOrders : Program := OrderRegistry.allWaiting
def waitingOrderCount : Program := OrderRegistry.size

def snapshot (symbol : Symbol) : Program :=
  block [symbolExists, maybe (block [bookFor, OrderBook.snapshot symbol])]

def restingOrders (symbol : Symbol) : Program :=
  block [symbolExists, maybe (block [bookFor, OrderBook.restingOrders symbol])]

/-- The price is asked for while the portfolios are locked. -/
def passesRiskCheck : Program := .hold .portfolios .exclusive (maybe lastPrice)

def settle : Program := locked .portfolios
def markDirty : Program := locked .dirty
def drainDirtySymbols : Program := locked .dirty

def matchAndSettle (symbol : Symbol) : Program :=
  block [bookFor, OrderBook.match_ symbol, NotificationBus.publish,
    .loop (block [settle, locked .prices, markDirty, NotificationBus.publish])]

def submitOrder (symbol : Symbol) : Program :=
  block [maybe symbolExists,
    .either NotificationBus.publish
      (block [passesRiskCheck,
        .either NotificationBus.publish
          (block [lastPrice,
            .either (matchAndSettle symbol)
              (block [OrderRegistry.add, NotificationBus.publish])])])]

def tryReleaseWaitingOrders (symbols : List Symbol) : Program :=
  block [
    .either (OrderRegistry.scanAndRelease lastPrice)
      (block [drainDirtySymbols, .loop (OrderRegistry.scanAndReleaseSymbol lastPrice)]),
    .loop (oneOf (symbols.map matchAndSettle)),
    .loop NotificationBus.publish]

def cancelOrder (symbol : Symbol) : Program :=
  block [symbolExists, maybe (block [bookFor, OrderBook.cancel symbol])]

def cancelWaitingOrder : Program := OrderRegistry.cancel

end MatchingEngine

/-! ### Subscribers -/

namespace MarketData

def construct : Program := NotificationBus.subscribe
def destroy : Program := NotificationBus.unsubscribe
def onEvent : Program := maybe (locked .marketData)

/-- `last_price`, `total_volume` and `vwap`. -/
def get : Program := locked .marketData

end MarketData

namespace MarketRecorder

def onEvent : Program := locked .recorder

def takeSample (symbols : List Symbol) : Program :=
  block [MatchingEngine.allLastPrices, MatchingEngine.allPortfolios, MatchingEngine.symbols,
    .loop (oneOf (symbols.map MatchingEngine.snapshot)), locked .recorder]

/-- The wait for the next sample ends by itself. -/
def samplerLoop (symbols : List Symbol) : Program :=
  .loop (block [locked .sampler, locked .sampler, takeSample symbols])

def start (symbols : List Symbol) : Program :=
  block [.hold .subscription .exclusive NotificationBus.subscribe,
    .hold .recorder .exclusive MatchingEngine.allLastPrices,
    takeSample symbols,
    .fork .sampler (samplerLoop symbols)]

def stop : Program := .join .sampler
def unsubscribe : Program := .hold .subscription .exclusive (maybe NotificationBus.unsubscribe)
def destroy : Program := block [stop, unsubscribe]

/-- It returns early if there is no directory to write to. -/
def writeReport (symbols : List Symbol) : Program :=
  block [NotificationBus.flush, takeSample symbols,
    .either log
      (block [MatchingEngine.allLastPrices, MatchingEngine.allPortfolios, MatchingEngine.symbols,
        .loop (oneOf (symbols.map MatchingEngine.restingOrders)), MatchingEngine.waitingOrders,
        .hold .recorder .exclusive
          (block [.loop log, .loop (oneOf (symbols.map MatchingEngine.snapshot)), .loop log])])]

end MarketRecorder

/-- What the worker calls for an event, in whatever order the subscribers come. -/
def subscribers : Program :=
  .loop (oneOf [MarketData.onEvent, log, MarketRecorder.onEvent])

/-! ### The simulation -/

inductive BotKind where
  | noise
  | momentum
  | marketMaker

namespace TradingBot

/-- The reference price of a bot, from the engine or else from the market data. -/
def referencePrice : Program := block [MatchingEngine.lastPrice, maybe MarketData.get]

def step (symbols : List Symbol) : BotKind → Program
  | .noise => block [referencePrice, maybe (oneOf (symbols.map MatchingEngine.submitOrder))]
  | .momentum =>
    block [referencePrice, maybe (oneOf (symbols.map fun symbol =>
      block [MatchingEngine.submitOrder symbol, MatchingEngine.submitOrder symbol]))]
  | .marketMaker =>
    block [maybe (oneOf (symbols.map MatchingEngine.cancelOrder)),
      maybe (oneOf (symbols.map MatchingEngine.cancelOrder)), referencePrice,
      maybe (oneOf (symbols.map fun symbol =>
        block [MatchingEngine.submitOrder symbol, MatchingEngine.submitOrder symbol]))]

def run (symbols : List Symbol) (kind : BotKind) : Program := .loop (step symbols kind)

end TradingBot

namespace Simulation

def construct : Program :=
  block [MarketData.construct, .loop MatchingEngine.registerSymbol, NotificationBus.subscribe,
    .loop (block [MatchingEngine.ensureClient, .loop MatchingEngine.grantInitialHoldings])]

def runReleaseWatcher (symbols : List Symbol) : Program :=
  block [.loop (MatchingEngine.tryReleaseWaitingOrders symbols),
    MatchingEngine.tryReleaseWaitingOrders symbols]

def runMetricsRecorder : Program :=
  block [log, .loop MatchingEngine.waitingOrderCount]

/-- Bots are started and stopped one after the other. -/
def startBots (symbols : List Symbol) (bots : List BotKind) : Program :=
  block (bots.zipIdx.map fun bot => .fork (.bot bot.2) (TradingBot.run symbols bot.1))

def stopBots (bots : List BotKind) : Program :=
  block (bots.zipIdx.map fun bot => .join (.bot bot.2))

def run (symbols : List Symbol) (bots : List BotKind) : Program :=
  block [log, .fork .watcher (runReleaseWatcher symbols), log,
    maybe (.fork .metrics runMetricsRecorder),
    maybe (MarketRecorder.start symbols),
    startBots symbols bots,
    stopBots bots, .join .watcher, .join .metrics,
    maybe (block [MarketRecorder.stop, MarketRecorder.writeReport symbols]),
    MatchingEngine.waitingOrderCount,
    .loop (block [MarketData.get, MarketData.get, MarketData.get,
      oneOf (symbols.map MatchingEngine.snapshot)]),
    MatchingEngine.allLastPrices, .loop MatchingEngine.portfolioSnapshot, log]

/-- The destructors of recorder and market data. -/
def destroy : Program := block [maybe MarketRecorder.destroy, MarketData.destroy]

/-- `main` up to the destructor of the bus. -/
def main (symbols : List Symbol) (bots : List BotKind) : Program :=
  block [construct, run symbols bots, destroy]

end Simulation

/-! ### The server -/

namespace ClientDirectory

/-- Any method of the directory. -/
def call : Program := locked .directory

end ClientDirectory

namespace PersistenceStore

def save : Program :=
  block [log, ClientDirectory.call, MatchingEngine.allPortfolios, MatchingEngine.allLastPrices, log]

def load : Program :=
  block [.loop ClientDirectory.call, .loop MatchingEngine.ensureClient,
    .loop (block [MatchingEngine.ensureClient, MatchingEngine.grantInitialHoldings]),
    .loop MatchingEngine.registerSymbol, log]

end PersistenceStore

namespace SimulationServer

def dispatchCommand (symbols : List Symbol) : Program :=
  oneOf [oneOf (symbols.map MatchingEngine.submitOrder),
    block [oneOf (symbols.map MatchingEngine.cancelOrder), maybe MatchingEngine.cancelWaitingOrder],
    MatchingEngine.cancelWaitingOrder,
    MatchingEngine.portfolioSnapshot,
    block [oneOf (symbols.map MatchingEngine.snapshot), MarketData.get,
      maybe MatchingEngine.lastPrice,
      MarketData.get, MarketData.get],
    MatchingEngine.symbols,
    MatchingEngine.waitingOrderCount]

/-- A message of an unknown client. -/
def authenticate : Program :=
  block [maybe ClientDirectory.call,
    maybe (block [MatchingEngine.ensureClient, MatchingEngine.symbols,
      .loop MatchingEngine.grantInitialHoldings]),
    log]

/-- Each read of the socket returns, at the latest after its timeout. -/
def handleConnection (symbols : List Symbol) : Program :=
  .loop (.either authenticate (block [dispatchCommand symbols, log, log]))

def acceptLoop (symbols : List Symbol) : Program :=
  .loop (.fork .connection (handleConnection symbols))

def watcherLoop (symbols : List Symbol) : Program :=
  .loop (block [MatchingEngine.tryReleaseWaitingOrders symbols, log])

def persistenceLoop : Program := .loop PersistenceStore.save

def metricsLoop : Program := block [log, .loop MatchingEngine.waitingOrderCount]

def start (symbols : List Symbol) : Program :=
  block [.fork .accept (acceptLoop symbols), .fork .watcher (watcherLoop symbols),
    maybe (.fork .persistence persistenceLoop), maybe (.fork .metrics metricsLoop), log]

def stop : Program :=
  block [.join .accept, .join .watcher, .join .persistence, .join .metrics,
    maybe PersistenceStore.save, log]

/-- `main` up to the destructor of the bus. The server may fail to start. -/
def main (symbols : List Symbol) : Program :=
  block [MarketData.construct, .loop MatchingEngine.registerSymbol, NotificationBus.subscribe,
    maybe PersistenceStore.load,
    maybe (MarketRecorder.start symbols),
    .either log
      (block [start symbols, stop,
        maybe (block [MarketRecorder.stop, MarketRecorder.writeReport symbols])]),
    maybe MarketRecorder.destroy, MarketData.destroy]

end SimulationServer

/-! ### The programs -/

/-- The thread of a bus's worker waits from the start, and the destructor of the bus comes last. -/
def started (main : Program) : Pool ThreadName Mutex BusState where
  data := {}
  threads := [⟨.main, [.run main, .run NotificationBus.requestStop, .run (.join .worker)]⟩,
    ⟨.worker, [.run (NotificationBus.run subscribers)]⟩]

end StockMarket.Locking
