import StockMarket.MatchingEngine

/-!
The market maker (`MarketMakerBot` of `include/bot.hpp` and `src/bot.cpp`).

Each step cancels the two quotes of the step before and posts a new pair on some symbol. What
the random draws and `MarketData` give to a step, which the code does not determine, is in its
`QuoteTick`. The source has its cancellations and its submissions twice, once for each side;
they are `cancelQuote` and `quote` at the two sides.
-/

namespace StockMarket

open Atomic

variable {P : Type}

/-- `MarketMakerBot`: its client, its spread, and what it remembers of its last quotes; the id
`0` stands for none. -/
structure MarketMakerBot (P : Type) where
  client : ClientId
  spreadFraction : P
  lastQuoteSymbol : Symbol := ""
  lastBuyOrder : Nat := 0
  lastSellOrder : Nat := 0

/-- What one step meets: the symbol picked, the price that `MarketData` has for it, the
quantities drawn, and the clock at the two submissions. -/
structure QuoteTick (P : Type) where
  symbol : Symbol
  marketPrice : P
  quantity : Side → Int
  now : Side → Int
  clock : Side → Nat → Int

namespace MarketMakerBot

/-- The remembered id of one side. -/
def lastOrder (bot : MarketMakerBot P) : Side → Nat
  | .buy => bot.lastBuyOrder
  | .sell => bot.lastSellOrder

/-- The bot with another remembered id. -/
def setLastOrder (bot : MarketMakerBot P) (side : Side) (id : Nat) : MarketMakerBot P :=
  match side with
  | .buy => { bot with lastBuyOrder := id }
  | .sell => { bot with lastSellOrder := id }

/-- A quote on one side. -/
def quoteRequest (bot : MarketMakerBot P) (side : Side) (symbol : Symbol) (quantity : Int)
    (price : P) : OrderRequest P where
  client := bot.client
  side := side
  kind := .limit
  symbol := symbol
  quantity := quantity
  price := price
  triggerLower := none
  triggerUpper := none
  expiresIn := none
  notBeforeIn := none

/-- The bot after its quote was answered: it remembers the id if something is left resting. -/
def remember (bot : MarketMakerBot P) (side : Side) (quantity : Int) (result : SubmitResult P) :
    MarketMakerBot P :=
  if result.accepted ∧ result.filledQuantity < quantity then
    bot.setLastOrder side result.orderId
  else bot

section

variable [Zero P] [Add P] [Sub P] [Mul P] [Div P] [IntCast P] [LT P] [DecidableLT P] [LE P]
  [DecidableLE P] [OfScientific P]

/-- The last quote of one side is cancelled and forgotten. -/
def cancelQuote (bot : MarketMakerBot P) (side : Side) :
    Prog (MatchingEngine P) (MarketMakerBot P) := do
  if bot.lastOrder side ≠ 0 then
    let _ ← MatchingEngine.cancelOrder bot.lastQuoteSymbol (bot.lastOrder side)
    return bot.setLastOrder side 0
  else return bot

/-- A new quote on one side. -/
def quote (bot : MarketMakerBot P) (tick : QuoteTick P) (side : Side) (price : P) :
    Prog (MatchingEngine P) (MarketMakerBot P) := do
  let result ← MatchingEngine.submitOrder (tick.now side) (tick.clock side)
    (bot.quoteRequest side tick.symbol (tick.quantity side) price)
  return bot.remember side (tick.quantity side) result

/-- `MarketMakerBot::step`. -/
def step (bot : MarketMakerBot P) (tick : QuoteTick P) :
    Prog (MatchingEngine P) (MarketMakerBot P) := do
  let bot ← bot.cancelQuote .buy
  let bot ← bot.cancelQuote .sell
  let bot := { bot with lastQuoteSymbol := tick.symbol }
  let price ← .read (MatchingEngine.lastPrice · tick.symbol)
  let mid := if price ≤ 0 then tick.marketPrice else price
  if mid ≤ 0 then return bot
  else
    let halfSpread := mid * bot.spreadFraction / 2.0
    let floor : P := 0.01
    let bid := if floor < mid - halfSpread then mid - halfSpread else floor
    let ask := mid + halfSpread
    let bot ← bot.quote tick .buy bid
    bot.quote tick .sell ask

/-- The bot's thread: one step after the other. -/
def run (bot : MarketMakerBot P) : List (QuoteTick P) → Prog (MatchingEngine P) Unit
  | [] => return ()
  | tick :: ticks => do
    let bot ← bot.step tick
    bot.run ticks

end

end MarketMakerBot

end StockMarket
