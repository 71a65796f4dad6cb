import StockMarket.MatchingEngine

/-!
Candles and running totals for each symbol (`include/market_data.hpp`,
`src/market_data.cpp`).

`MarketData` subscribes to the bus and gets the events one after the other. A trade goes to
the last candle of its symbol or opens a new one; the candles before the last are never
looked at again. Instants are nanoseconds and the bucket size is in milliseconds, as in the
source. Volumes are added up with an addition that is a parameter (`onTradeWith`): the exact
one, or that of the type of quantities.
-/

namespace StockMarket

variable {P : Type}

/-- A candle; `opening` is `open` in the source. -/
structure Candle (P : Type) where
  bucketStart : Int
  opening : P
  high : P
  low : P
  close : P
  volume : Int
  deriving DecidableEq, Repr

/-- `MarketData::SymbolState`. -/
structure SymbolState (P : Type) where
  lastPrice : P
  totalVolume : Int
  cumulativeNotional : P
  candles : List (Candle P)

/-- `SymbolState{}`. -/
instance [Zero P] : Inhabited (SymbolState P) := ⟨⟨0, 0, 0, []⟩⟩

/-- `MarketData`, its bucket size in milliseconds. -/
structure MarketData (P : Type) where
  bucketSize : Int
  state : Table Symbol (SymbolState P) := ∅

/-- The start of the bucket that an instant lies in: the division of durations truncates. -/
def bucketStartOf (bucketSize : Int) (instant : Int) : Int :=
  instant.tdiv (bucketSize * 1000000) * (bucketSize * 1000000)

namespace Candle

/-- The candle that a trade opens. -/
def opened (start : Int) (trade : Trade P) : Candle P where
  bucketStart := start
  opening := trade.price
  high := trade.price
  low := trade.price
  close := trade.price
  volume := trade.quantity

section

variable [LT P] [DecidableLT P] (plus : Int → Int → Int)

/-- The candle after one more trade, with `std::max` and `std::min`. -/
def extendedWith (candle : Candle P) (trade : Trade P) : Candle P :=
  { candle with
    high := if candle.high < trade.price then trade.price else candle.high
    low := if trade.price < candle.low then trade.price else candle.low
    close := trade.price
    volume := plus candle.volume trade.quantity }

/-- The candles after one more trade. -/
def addWith (start : Int) (trade : Trade P) (candles : List (Candle P)) : List (Candle P) :=
  match candles.getLast? with
  | none => candles ++ [opened start trade]
  | some candle =>
    if candle.bucketStart ≠ start then candles ++ [opened start trade]
    else candles.dropLast ++ [extendedWith plus candle trade]

end

variable [LT P] [DecidableLT P]

/-- With the exact addition. -/
def extended (candle : Candle P) (trade : Trade P) : Candle P :=
  extendedWith (· + ·) candle trade

def add (start : Int) (trade : Trade P) (candles : List (Candle P)) : List (Candle P) :=
  addWith (· + ·) start trade candles

end Candle

namespace MarketData

section

variable [Zero P] [Add P] [Mul P] [IntCast P] [LT P] [DecidableLT P]

/-- The state of a symbol after one more trade. -/
def notedWith (plus : Int → Int → Int) (bucketSize : Int) (trade : Trade P)
    (state : SymbolState P) : SymbolState P where
  lastPrice := trade.price
  totalVolume := plus state.totalVolume trade.quantity
  cumulativeNotional := state.cumulativeNotional + (trade.quantity : P) * trade.price
  candles := Candle.addWith plus (bucketStartOf bucketSize trade.timestamp) trade state.candles

/-- `MarketData::on_trade`. -/
def onTradeWith (plus : Int → Int → Int) (m : MarketData P) (trade : Trade P) : MarketData P :=
  { m with state := Table.update trade.symbol default (notedWith plus m.bucketSize trade) m.state }

/-- With the exact addition. -/
def noted (bucketSize : Int) (trade : Trade P) (state : SymbolState P) : SymbolState P :=
  notedWith (· + ·) bucketSize trade state

def onTrade (m : MarketData P) (trade : Trade P) : MarketData P :=
  m.onTradeWith (· + ·) trade

/-- `MarketData::on_event`. -/
def onEvent (m : MarketData P) : Event P → MarketData P
  | .trade trade => m.onTrade trade
  | _ => m

end

/-- The candles of a symbol. -/
def candles (m : MarketData P) (symbol : Symbol) : List (Candle P) :=
  match m.state.lookup symbol with
  | none => []
  | some state => state.candles

variable [Zero P]

/-- `MarketData::last_price`. -/
def lastPrice (m : MarketData P) (symbol : Symbol) : P :=
  match m.state.lookup symbol with
  | none => 0
  | some state => state.lastPrice

/-- `MarketData::total_volume`. -/
def totalVolume (m : MarketData P) (symbol : Symbol) : Int :=
  match m.state.lookup symbol with
  | none => 0
  | some state => state.totalVolume

/-- `MarketData::vwap`. -/
def vwap [Div P] [IntCast P] (m : MarketData P) (symbol : Symbol) : P :=
  match m.state.lookup symbol with
  | none => 0
  | some state =>
    if state.totalVolume = 0 then 0 else state.cumulativeNotional / (state.totalVolume : P)

end MarketData

end StockMarket
