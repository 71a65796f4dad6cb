import StockMarket.Engine.OpenOrders
import StockMarket.Net.Text

/-!
The commands of the simulation server (`src/net/simulation_server.cpp`).

A message is split into tokens, read as a `Command`, and run on the engine
(`dispatchCommand`). Numbers in responses are values, not text; the texts without
numbers are those of the source. What the code does not determine while it runs a
command (the time, the market data, which follow the engine on another thread) is
its `Env`.

Whatever a command does to the engine it does through calls of the engine's own
methods (`Command.exec_program`), so the engine's invariant holds on every run of
the server (`EngineInvariant.serveAll`).
-/

namespace StockMarket

open Atomic MatchingEngine

/-! ### Reading a command -/

/-- `parse_kind`. -/
def parseKind (text : String) : Option OrderKind :=
  if text = "MARKET" then some .market
  else if text = "LIMIT" then some .limit
  else if text = "STOP" then some .stop
  else if text = "LIMIT_STOP" then some .limitStop
  else none

/-- `kv_double`. -/
def kvDouble (kv : Table String String) (key : String) : Option Double :=
  (kv.lookup key).bind stod

/-- `kv_int`. -/
def kvInt (kv : Table String String) (key : String) : Option Int :=
  (kv.lookup key).bind stoll

/-- The request of an ORDER command from its `KEY=VALUE` tokens. -/
def requestOf (client : ClientId) (side : Side) (symbol : Symbol) (quantity : Int)
    (kind : OrderKind) (kv : Table String String) : OrderRequest Double :=
  let price := (kvDouble kv "PRICE").getD 0
  let triggerUpper := (kvDouble kv "TRIGGER_UPPER").or (kvDouble kv "TRIGGER")
  { client := client
    side := side
    kind := kind
    symbol := symbol
    quantity := quantity
    price := if kind = .stop ∧ price ≤ 0 then triggerUpper.getD price else price
    triggerLower := kvDouble kv "TRIGGER_LOWER"
    triggerUpper := triggerUpper
    expiresIn := kvInt kv "EXPIRES"
    notBeforeIn := kvInt kv "NOT_BEFORE" }

/-- The part of `handle_order_command` before the submission: a request, or the text
of an error. -/
def orderRequest (client : ClientId) (tokens : List String) :
    Except String (OrderRequest Double) :=
  let token := fun i => tokens.getD i ""
  if tokens.length < 5 then
    .error "ERR ORDER reason=usage:_ORDER_<BUY|SELL>_<SYMBOL>_<QTY>_<KIND>_[KEY=VALUE...]"
  else if token 1 ≠ "BUY" ∧ token 1 ≠ "SELL" then
    .error "ERR ORDER reason=side_must_be_BUY_or_SELL"
  else
    match stoll (token 3), parseKind (token 4) with
    | none, _ => .error "ERR ORDER reason=invalid_quantity"
    | some _, none => .error "ERR ORDER reason=kind_must_be_MARKET_LIMIT_STOP_or_LIMIT_STOP"
    | some quantity, some kind =>
      .ok (requestOf client (if token 1 = "BUY" then .buy else .sell) (token 2) quantity kind
        (parseKv (tokens.drop 5)))

/-- A command with its arguments. An argument that the source fails to convert makes
it `none`. -/
inductive Command where
  | order (request : Except String (OrderRequest Double))
  | cancel (orderId : Option Nat) (symbol : Symbol)
  | cancelWaiting (orderId : Option Nat)
  | cancelBook (orderId : Option Nat) (symbol : Symbol) (side : Side) (price : Option Double)
  | portfolio
  | market (symbol : Symbol)
  | symbols
  | metrics
  | unknown

/-- The tests of `dispatch_command`, in their order. -/
def readCommand (client : ClientId) (tokens : List String) : Command :=
  let token := fun i => tokens.getD i ""
  if token 0 = "ORDER" then .order (orderRequest client tokens)
  else if token 0 = "CANCEL" ∧ tokens.length = 3 then .cancel (stoull (token 1)) (token 2)
  else if token 0 = "CANCEL_WAITING" ∧ tokens.length = 2 then .cancelWaiting (stoull (token 1))
  else if token 0 = "CANCEL_BOOK" ∧ tokens.length = 5 then
    .cancelBook (stoull (token 1)) (token 2) (if token 3 = "BUY" then .buy else .sell)
      (stod (token 4))
  else if token 0 = "PORTFOLIO" then .portfolio
  else if token 0 = "MARKET" ∧ tokens.length = 2 then .market (token 1)
  else if token 0 = "SYMBOLS" then .symbols
  else if token 0 = "METRICS" then .metrics
  else .unknown

/-! ### Running a command -/

/-- What became of an accepted order. -/
inductive OrderStatus where
  | queued
  | filled
  | noLiquidity
  | resting
  deriving DecidableEq, Repr

inductive Response where
  | text (message : String)
  | orderRejected (orderId : Nat) (reason : String)
  | order (orderId : Nat) (status : OrderStatus) (filled : Int) (trades : Nat)
  | portfolio (cash : Double) (holdings : List (Symbol × Int))
  | market (symbol : Symbol) (last vwap : Double) (volume : Int) (bid ask : Option Double)
  | symbols (names : List Symbol)
  | metrics (report : Metrics) (waitingOrders : Nat)

/-- What a command meets: the time, the time stamps of its trades, and what the market
data report. -/
structure Env where
  now : Int
  clock : Nat → Int
  marketLastPrice : Symbol → Double
  marketVwap : Symbol → Double
  marketTotalVolume : Symbol → Int

/-- Instant zero, and market data that have seen no trade. -/
def quietEnv : Env where
  now := 0
  clock := fun _ => 0
  marketLastPrice := fun _ => 0
  marketVwap := fun _ => 0
  marketTotalVolume := fun _ => 0

/-- The answer to an ORDER command. -/
def orderResponse (kind : OrderKind) (result : SubmitResult Double) : Response :=
  if ¬result.accepted then .orderRejected result.orderId result.rejectReason
  else if result.queued then .order result.orderId .queued 0 0
  else if 0 < result.filledQuantity then
    .order result.orderId .filled result.filledQuantity result.trades.length
  else if kind = .market then .order result.orderId .noLiquidity 0 0
  else .order result.orderId .resting 0 0

/-- The answer to a cancellation. -/
def cancelResponse (found : Bool) : Response :=
  .text (if found then "OK CANCELLED" else "ERR NOT_FOUND")

/-- The branches of `dispatch_command`. -/
def Command.program (env : Env) (client : ClientId) :
    Command → Prog (MatchingEngine Double) Response
  | .order (.error message) => return .text message
  | .order (.ok request) => do
    let result ← submitOrder env.now env.clock request
    return orderResponse request.kind result
  | .cancel (some orderId) symbol => do
    -- the book first, then the waiting orders
    if ← cancelOrder symbol orderId then return cancelResponse true
    else
      let found ← cancelWaitingOrder orderId
      return cancelResponse found
  | .cancel none _ => return .text "ERR INVALID_ARGUMENTS"
  | .cancelWaiting (some orderId) => do
    let found ← cancelWaitingOrder orderId
    return cancelResponse found
  | .cancelWaiting none => return .text "ERR INVALID_ORDER_ID"
  | .cancelBook (some orderId) symbol side (some price) => do
    let found ← cancelOrderAt symbol side price orderId
    return cancelResponse found
  | .cancelBook _ _ _ _ => return .text "ERR INVALID_ARGUMENTS"
  | .portfolio => do
    let portfolio ← .read (portfolioSnapshot · client)
    return .portfolio portfolio.cash (portfolio.holdings.entries.map fun e => (e.1, e.2))
  | .market symbol => do
    let (bid, ask) ← .read fun e => ((e.bookFor symbol).bestBid, (e.bookFor symbol).bestAsk)
    let lastPrice ← .read (lastPrice · symbol)
    let last := env.marketLastPrice symbol
    return .market symbol (if last ≤ 0 then lastPrice else last) (env.marketVwap symbol)
      (env.marketTotalVolume symbol) bid ask
  | .symbols => do
    let names ← .read fun e => e.books.keys
    return .symbols names
  | .metrics => do
    let report ← .read MatchingEngine.metrics
    let waiting ← .read fun e => e.registry.size
    return .metrics report waiting
  | .unknown => return .text "ERR UNKNOWN_COMMAND"

/-- `SimulationServer::dispatch_command`. -/
def dispatchCommand (env : Env) (line : String) (client : ClientId) :
    Prog (MatchingEngine Double) Response :=
  (readCommand client (split line)).program env client

/-- The loop over the symbols that gives a new account its first shares. -/
def grantAll (client : ClientId) : List Symbol → Prog (MatchingEngine Double) Unit
  | [] => return ()
  | symbol :: symbols => do
    .modify (grantInitialHoldings client symbol 50)
    grantAll client symbols

/-- What a successful REGISTER does to the engine, `client` being the new id. -/
def openAccount (client : ClientId) : Prog (MatchingEngine Double) Unit := do
  .modify (ensureClient client 100000.0)
  let symbols ← .read fun e => e.books.keys
  grantAll client symbols

/-! ### Runs of the server -/

/-- What happens to the engine of a server: an account is opened, a message comes in
on the connection of a client, or the watcher ticks. -/
inductive ServerCall where
  | openAccount (client : ClientId)
  | message (client : ClientId) (line : String) (env : Env)
  | watcherTick (order : ReleaseOrder Double) (now : Int) (clock : Nat → Nat → Int)
      (fullScan : Bool)

namespace MatchingEngine

/-- The engine after the command of a message. -/
def afterMessage (e : MatchingEngine Double) (client : ClientId) (line : String) (env : Env) :
    MatchingEngine Double :=
  ((dispatchCommand env line client).exec e).2

/-- The engine after something happened. -/
def serve (e : MatchingEngine Double) : ServerCall → MatchingEngine Double
  | .openAccount client => ((openAccount client).exec e).2
  | .message client line env => e.afterMessage client line env
  | .watcherTick order now clock fullScan =>
      e.apply (.tryReleaseWaitingOrders order now clock fullScan)

/-- The engine after several things happened. -/
def serveAll (e : MatchingEngine Double) (calls : List ServerCall) : MatchingEngine Double :=
  calls.foldl serve e

end MatchingEngine

/-- The calls of the engine's methods that a command makes. -/
def Command.calls (env : Env) (e : MatchingEngine Double) : Command → List (EngineCall Double)
  | .order (.ok request) => [.submitOrder env.now env.clock request]
  | .cancel (some orderId) symbol =>
      .cancelOrder symbol orderId ::
        if (e.cancelledIn symbol (OrderBook.cancel · orderId)).1 then []
        else [.cancelWaitingOrder orderId]
  | .cancelWaiting (some orderId) => [.cancelWaitingOrder orderId]
  | .cancelBook (some orderId) symbol side (some price) =>
      [.cancelOrderAt symbol side price orderId]
  | _ => []

/-- **A command acts on the engine through its methods** and in no other way. -/
theorem Command.exec_program (env : Env) (client : ClientId) (command : Command)
    (e : MatchingEngine Double) :
    ((command.program env client).exec e).2 = e.run (command.calls env e) := by
  cases command with
  | order request =>
      cases request with
      | error message => rfl
      | ok request =>
          have only : e.run (Command.calls env e (.order (.ok request)))
              = ((submitOrder env.now env.clock request).exec e).2 := by
            rw [Command.calls, MatchingEngine.run, List.foldl_cons, MatchingEngine.apply,
              EngineCall.program, Prog.exec_bind]
            rfl
          rw [only, Command.program, Prog.exec_bind]
          rfl
  | cancel orderId symbol =>
      cases orderId with
      | none => rfl
      | some orderId =>
          rw [Command.program, Prog.exec_bind, Prog.exec_ite, Command.calls, exec_cancelOrder]
          have first : e.apply (.cancelOrder symbol orderId)
              = (e.cancelledIn symbol (OrderBook.cancel · orderId)).2 := by
            rw [MatchingEngine.apply, EngineCall.program, Prog.exec_bind, exec_cancelOrder]
            rfl
          split
          · exact first.symm
          · rw [MatchingEngine.run, List.foldl_cons, first]
            rfl
  | cancelWaiting orderId =>
      cases orderId with
      | none => rfl
      | some orderId => rfl
  | cancelBook orderId symbol side price =>
      cases orderId with
      | none => rfl
      | some orderId =>
          cases price with
          | none => rfl
          | some price =>
              have only : e.run (Command.calls env e (.cancelBook (some orderId) symbol side
                  (some price))) = ((cancelOrderAt symbol side price orderId).exec e).2 := by
                rw [Command.calls, MatchingEngine.run, List.foldl_cons, MatchingEngine.apply,
                  EngineCall.program, Prog.exec_bind]
                rfl
              rw [only, Command.program, Prog.exec_bind]
              rfl
  | portfolio => rfl
  | market symbol => rfl
  | symbols => rfl
  | metrics => rfl
  | unknown => rfl

theorem exec_grantAll (client : ClientId) (symbols : List Symbol) :
    ∀ e : MatchingEngine Double, ((grantAll client symbols).exec e).2
      = symbols.foldl (fun e symbol => e.grantInitialHoldings client symbol 50) e := by
  induction symbols with
  | nil => exact fun e => rfl
  | cons symbol symbols ih =>
      intro e
      rw [grantAll, Prog.exec_bind, ih, Prog.exec_modify, List.foldl_cons]

/-- Opening an account is setting up a client. -/
theorem exec_openAccount (client : ClientId) (e : MatchingEngine Double) :
    ((openAccount client).exec e).2
      = e.books.keys.foldl (fun e symbol => e.grantInitialHoldings client symbol 50)
          (e.ensureClient client 100000.0) := by
  rw [openAccount, Prog.exec_bind, Prog.exec_read_bind, exec_grantAll]
  rfl

namespace EngineInvariant

variable {e : MatchingEngine Double}

theorem openAccount (inv : EngineInvariant e []) (client : ClientId) :
    EngineInvariant ((StockMarket.openAccount client).exec e).2 [] := by
  have granted : ∀ (symbols : List Symbol) (e : MatchingEngine Double), EngineInvariant e [] →
      EngineInvariant (symbols.foldl (fun e symbol => e.grantInitialHoldings client symbol 50) e)
        [] := by
    intro symbols
    induction symbols with
    | nil => exact fun e inv => inv
    | cons symbol symbols ih => exact fun e inv => ih _ (inv.congr rfl rfl rfl)
  rw [exec_openAccount]
  exact granted _ _ (inv.congr rfl rfl rfl)

/-- **Whatever the server does keeps the invariant.** -/
theorem serve (inv : EngineInvariant e []) (call : ServerCall) :
    EngineInvariant (e.serve call) [] := by
  cases call with
  | openAccount client => exact inv.openAccount client
  | message client line env =>
      rw [MatchingEngine.serve, afterMessage, dispatchCommand, Command.exec_program]
      exact EngineInvariant.run _ inv
  | watcherTick order now clock fullScan => exact inv.apply _

theorem serveAll (calls : List ServerCall) : ∀ {e : MatchingEngine Double}, EngineInvariant e [] →
    EngineInvariant (e.serveAll calls) [] := by
  induction calls with
  | nil => exact fun inv => inv
  | cons call calls ih => exact fun inv => ih (inv.serve call)

end EngineInvariant

end StockMarket
