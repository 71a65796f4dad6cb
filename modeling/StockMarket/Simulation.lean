import StockMarket.MarketMaker

/-!
The in-process simulation (`include/bot.hpp`, `src/bot.cpp`, `src/simulation.cpp`).

A `Simulation` registers its symbols, opens an account for each of its bots, and runs the bots
and the release watcher as threads on one engine. The market maker has a module of its own.
What the generator draws for a step of a bot is in its tick, within the bounds of the
distribution that it is drawn from; what the step meets, the price that `MarketData` has and
the clock, is there as well.
-/

namespace StockMarket

open Atomic MatchingEngine

variable {P : Type}

/-! ### Bots -/

/-- What a `TradingBot` is set up with. -/
structure TradingBot (P : Type) where
  client : ClientId
  symbols : List Symbol
  volatilities : Table Symbol P

section

variable [Zero P] [One P] [Add P] [Sub P] [Neg P] [Mul P] [Div P] [IntCast P] [LT P]
  [DecidableLT P] [LE P] [DecidableLE P] [DecidableEq P] [OfScientific P]

/-- `std::clamp`. -/
def clamp (value low high : P) : P :=
  if value < low then low else if high < value then high else value

/-- `std::max`. -/
def larger (x y : P) : P :=
  if x < y then y else x

/-- What a uniform distribution between two bounds may give. -/
abbrev Drawn {Q : Type} [LE Q] (low high : Q) : Type :=
  { x : Q // low ≤ x ∧ x ≤ high }

namespace TradingBot

/-- `TradingBot::volatility_for`. -/
def volatilityFor (bot : TradingBot P) (symbol : Symbol) : P :=
  (bot.volatilities.lookup symbol).getD 0.20

/-- `offset_scale`: `widest` is `0.10` for a noise trader and `0.05` for a momentum bot. -/
def offsetScale (bot : TradingBot P) (widest : P) (symbol : Symbol) : P :=
  clamp (bot.volatilityFor symbol / 20.0) 0.002 widest

end TradingBot

/-- The direction in which a stop lies from the reference price. -/
def stopDirection : Side → P
  | .buy => 1.0
  | .sell => -1.0

/-! ### The noise trader -/

/-- A step of a noise trader. The second half has what is drawn for some kinds only. -/
structure NoiseTick (bot : TradingBot P) where
  symbol : Symbol
  picked : symbol ∈ bot.symbols
  marketPrice : P
  side : Side
  quantity : Drawn (1 : Int) 10
  kind : OrderKind
  expiresIn : Option (Drawn (5 : Int) 60)
  offset : Drawn (-(bot.offsetScale 0.10 symbol)) (bot.offsetScale 0.10 symbol)
  stopOffset : Drawn (bot.offsetScale 0.10 symbol) (bot.offsetScale 0.10 symbol * 3.0)
  bandBelow : Drawn (bot.offsetScale 0.10 symbol) (bot.offsetScale 0.10 symbol * 2.5)
  bandAbove : Drawn (bot.offsetScale 0.10 symbol) (bot.offsetScale 0.10 symbol * 2.5)
  now : Int
  clock : Nat → Int

/-- The order of a noise trader. -/
def NoiseTick.request {bot : TradingBot P} (tick : NoiseTick bot) (reference : P) :
    OrderRequest P where
  client := bot.client
  side := tick.side
  kind := tick.kind
  symbol := tick.symbol
  quantity := tick.quantity
  price :=
    match tick.kind with
    | .market => 0
    | .limit => larger 0.01 (reference * (1.0 + tick.offset))
    | .stop => larger 0.01 (reference * (1.0 + stopDirection tick.side * tick.stopOffset))
    | .limitStop => reference
  triggerLower :=
    match tick.kind with
    | .limitStop => some (larger 0.01 (reference * (1.0 - tick.bandBelow)))
    | .market | .limit | .stop => none
  triggerUpper :=
    match tick.kind with
    | .limitStop => some (reference * (1.0 + tick.bandAbove))
    | .market | .limit | .stop => none
  expiresIn := tick.expiresIn.map Subtype.val
  notBeforeIn := none

/-- What a step takes for the price: the engine's, or that of `MarketData` if it has none. -/
def referencePrice (price marketPrice : P) : P :=
  if price ≤ 0 then marketPrice else price

/-- `NoiseTraderBot::step`. -/
def noiseStep (bot : TradingBot P) (tick : NoiseTick bot) : Prog (MatchingEngine P) Unit := do
  let price ← .read (MatchingEngine.lastPrice · tick.symbol)
  let reference := referencePrice price tick.marketPrice
  if reference ≤ 0 then return ()
  else
    let _ ← submitOrder tick.now tick.clock (tick.request reference)
    return ()

/-- The thread of a noise trader. -/
def noiseRun (bot : TradingBot P) : List (NoiseTick bot) → Prog (MatchingEngine P) Unit
  | [] => return ()
  | tick :: ticks => do
    noiseStep bot tick
    noiseRun bot ticks

/-! ### The momentum bot -/

/-- `kWindowSize`. -/
def windowSize : Nat := 5

/-- A step of a momentum bot, with the clock at its two submissions. -/
structure MomentumTick (bot : TradingBot P) where
  symbol : Symbol
  picked : symbol ∈ bot.symbols
  marketPrice : P
  quantity : Drawn (1 : Int) 5
  stopOffset : Drawn (bot.offsetScale 0.05 symbol)
    (larger (bot.offsetScale 0.05 symbol * 2.0) (bot.offsetScale 0.05 symbol + 0.005))
  now : Int
  clock : Nat → Int
  stopNow : Int
  stopClock : Nat → Int

/-- The window of a symbol with one more sample. -/
def sample (window : List P) (price : P) : List P :=
  let window := window ++ [price]
  if windowSize < window.length then window.tail else window

/-- The side on which the window says to trade, if it does. -/
def trend (window : List P) : Option Side :=
  if window.length < 2 then none
  else
    let change := window.getLastD 0 - window.headD 0
    if change = 0 then none else some (if 0 < change then .buy else .sell)

/-- The order in the direction of the trend. -/
def MomentumTick.request {bot : TradingBot P} (tick : MomentumTick bot) (side : Side) :
    OrderRequest P where
  client := bot.client
  side := side
  kind := .market
  symbol := tick.symbol
  quantity := tick.quantity
  price := 0
  triggerLower := none
  triggerUpper := none
  expiresIn := none
  notBeforeIn := none

/-- The protective stop on the other side. -/
def MomentumTick.stopRequest {bot : TradingBot P} (tick : MomentumTick bot) (side : Side)
    (reference : P) : OrderRequest P where
  client := bot.client
  side := side.opposite
  kind := .stop
  symbol := tick.symbol
  quantity := tick.quantity
  price := larger 0.01 (reference * (1.0 + stopDirection side.opposite * tick.stopOffset.1))
  triggerLower := none
  triggerUpper := none
  expiresIn := some 120
  notBeforeIn := none

/-- `MomentumBot::step`: `history` is `price_history_`. -/
def momentumStep (bot : TradingBot P) (history : Table Symbol (List P)) (tick : MomentumTick bot) :
    Prog (MatchingEngine P) (Table Symbol (List P)) := do
  let price ← .read (MatchingEngine.lastPrice · tick.symbol)
  let reference := referencePrice price tick.marketPrice
  if reference ≤ 0 then return history
  else
    let window := sample ((history.lookup tick.symbol).getD []) reference
    let history := history.insert tick.symbol window
    match trend window with
    | none => return history
    | some side =>
      let _ ← submitOrder tick.now tick.clock (tick.request side)
      let _ ← submitOrder tick.stopNow tick.stopClock (tick.stopRequest side reference)
      return history

/-- The thread of a momentum bot. -/
def momentumRun (bot : TradingBot P) :
    Table Symbol (List P) → List (MomentumTick bot) → Prog (MatchingEngine P) Unit
  | _, [] => return ()
  | history, tick :: ticks => do
    let history ← momentumStep bot history tick
    momentumRun bot history ticks

end

/-! ### A simulation -/

/-- `SymbolConfig`. -/
structure SymbolConfig (P : Type) where
  symbol : Symbol
  initialPrice : P
  volatility : P

/-- What `SimulationConfig` says about the market. -/
structure SimulationConfig (P : Type) where
  symbols : List (SymbolConfig P)
  noiseTraders : Nat
  momentumTraders : Nat
  marketMakers : Nat
  botInitialCash : P
  botInitialShares : Int

namespace SimulationConfig

/-- The number of clients, whose ids run from `1`. -/
def clients (config : SimulationConfig P) : Nat :=
  config.noiseTraders + config.momentumTraders + config.marketMakers

/-- `all_symbols`. -/
def allSymbols (config : SimulationConfig P) : List Symbol :=
  config.symbols.map SymbolConfig.symbol

/-- `volatilities`. -/
def volatilities (config : SimulationConfig P) : Table Symbol P :=
  config.symbols.foldl (fun table s => table.insert s.symbol s.volatility) ∅

/-- The calls of `make_client`. -/
def makeClient (config : SimulationConfig P) (id : ClientId) : List (SetupCall P) :=
  .ensureClient id config.botInitialCash ::
    config.allSymbols.map fun symbol => .grantInitialHoldings id symbol config.botInitialShares

/-- The calls of the constructor: the symbols, then the accounts of all bots. -/
def setup (config : SimulationConfig P) : List (SetupCall P) :=
  (config.symbols.map fun s => .registerSymbol s.symbol s.initialPrice) ++
    (List.range config.clients).flatMap fun (i : Nat) => config.makeClient (i + 1)

/-- The bot of a client. -/
def bot (config : SimulationConfig P) (id : ClientId) : TradingBot P where
  client := id
  symbols := config.allSymbols
  volatilities := config.volatilities

end SimulationConfig

/-- What one tick of the release watcher meets. -/
structure WatcherTick (P : Type) where
  order : ReleaseOrder P
  now : Int
  clock : Nat → Nat → Int

/-- The loop of `Simulation::run_release_watcher`, whose ticks are counted from `n`: every
tenth one scans all symbols, and so does the pass after the last one. -/
def releaseWatcher (n : Nat) : List (WatcherTick P) → List (EngineCall P)
  | [] => []
  | [last] => [.tryReleaseWaitingOrders last.order last.now last.clock true]
  | tick :: ticks =>
    .tryReleaseWaitingOrders tick.order tick.now tick.clock ((n + 1) % 10 = 0) ::
      releaseWatcher (n + 1) ticks

section

variable [Zero P] [One P] [Add P] [Sub P] [Neg P] [Mul P] [Div P] [IntCast P] [LT P]
  [DecidableLT P] [LE P] [DecidableLE P] [DecidableEq P] [OfScientific P]

/-- The market maker of a client. -/
def SimulationConfig.marketMaker (_ : SimulationConfig P) (id : ClientId) : MarketMakerBot P where
  client := id
  spreadFraction := 0.01

/-- What the threads of a simulation meet and draw: the ticks of each bot and of the watcher. -/
structure SimulationRun (config : SimulationConfig P) where
  noise : (i : Nat) → List (NoiseTick (config.bot (i + 1)))
  momentum : (i : Nat) → List (MomentumTick (config.bot (config.noiseTraders + i + 1)))
  quotes : Nat → List (QuoteTick P)
  watcher : List (WatcherTick P)
  picked : ∀ i, ∀ tick ∈ quotes i, tick.symbol ∈ config.allSymbols
  drawn : ∀ i, ∀ tick ∈ quotes i, ∀ side, 5 ≤ tick.quantity side ∧ tick.quantity side ≤ 20

/-- The threads of `Simulation::run`. -/
def SimulationRun.threads {config : SimulationConfig P} (run : SimulationRun config) :
    List (Prog (MatchingEngine P) Unit) :=
  ((List.range config.noiseTraders).map fun (i : Nat) => noiseRun _ (run.noise i)) ++
    ((List.range config.momentumTraders).map fun (i : Nat) => momentumRun _ ∅ (run.momentum i)) ++
    ((List.range config.marketMakers).map fun (i : Nat) =>
      (config.marketMaker (config.noiseTraders + config.momentumTraders + i + 1)).run
        (run.quotes i)) ++
    [threadProgram (releaseWatcher 0 run.watcher)]

end

end StockMarket
