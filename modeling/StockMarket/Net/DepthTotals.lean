import StockMarket.Engine.DepthTotals
import StockMarket.Net.Server

/-!
The totals of the books of a server.

Wire commands can take a side past `2 ^ 63`: an order is limited by its price times its
quantity alone, and orders that rest already are not counted (`tinyBids_overflow`). As long as
every order that is matched fits its book, all totals are exact (`depthsExact_of_fits`).
-/

namespace StockMarket

open Atomic MatchingEngine

/-- Every order that is matched while the server handles a call fits its book. -/
def ServerCall.Fits (e : MatchingEngine Double) : ServerCall → Prop
  | .openAccount _ => True
  | .message client line env => CallsFit ((readCommand client (split line)).calls env e) e
  | .watcherTick order now clock fullScan =>
    (EngineCall.tryReleaseWaitingOrders order now clock fullScan).Fits e

/-- The same for several calls. -/
def ServerCallsFit : List ServerCall → MatchingEngine Double → Prop
  | [], _ => True
  | call :: calls, e => call.Fits e ∧ ServerCallsFit calls (e.serve call)

theorem ServerCallsFit.take {calls : List ServerCall} (n : Nat) {e : MatchingEngine Double}
    (fits : ServerCallsFit calls e) : ServerCallsFit (calls.take n) e := by
  induction calls generalizing n e with
  | nil =>
      rw [List.take_nil]
      exact trivial
  | cons call calls ih =>
      cases n with
      | zero => exact trivial
      | succ n => exact ⟨fits.1, ih n fits.2⟩

namespace MatchingEngine.Bounded

variable {e : MatchingEngine Double}

/-- Opening an account does not touch a book. -/
theorem openAccount (bounded : e.Bounded) (client : ClientId) :
    ((StockMarket.openAccount client).exec e).2.Bounded := by
  have granted : ∀ (symbols : List Symbol) (e : MatchingEngine Double),
      (symbols.foldl (fun e symbol => e.grantInitialHoldings client symbol 50) e).books
        = e.books := by
    intro symbols
    induction symbols with
    | nil => exact fun e => rfl
    | cons symbol symbols ih => exact fun e => ih _
  refine bounded.congr ?_
  rw [exec_openAccount, granted]
  rfl

/-- **A call to the server that fits keeps the bound.** -/
theorem serve (bounded : e.Bounded) (inv : EngineInvariant e []) {call : ServerCall}
    (fits : call.Fits e) : (e.serve call).Bounded := by
  cases call with
  | openAccount client => exact bounded.openAccount client
  | message client line env =>
      rw [MatchingEngine.serve, afterMessage, dispatchCommand, Command.exec_program]
      exact bounded.run _ inv fits
  | watcherTick order now clock fullScan => exact bounded.apply inv fits

/-- **Calls to the server that fit keep the bound.** -/
theorem serveAll (calls : List ServerCall) : ∀ {e : MatchingEngine Double}, e.Bounded →
    EngineInvariant e [] → ServerCallsFit calls e → (e.serveAll calls).Bounded := by
  induction calls with
  | nil => exact fun bounded _ _ => bounded
  | cons call calls ih =>
      exact fun bounded inv fits => ih (bounded.serve inv fits.1) (inv.serve call) fits.2

end MatchingEngine.Bounded

/-- **All totals are exact in every state** of a run of the server in which every order that is
matched fits its book. -/
theorem depthsExact_of_fits (setup : List (SetupCall Double)) (calls : List ServerCall)
    (fits : ServerCallsFit calls (setUp setup)) (n : Nat) (symbol : Symbol) :
    DepthsExact (((setUp setup).serveAll (calls.take n)).bookFor symbol) := by
  have idle := idle_setUp setup
  have bounded := idle.bounded.serveAll _ idle.invariant (fits.take n)
  exact bounded.depthsExact (EngineInvariant.serveAll _ idle.invariant) symbol

/-- Two orders at a tiny price, which fill 64 bits. -/
def fullLevel : List ServerCall :=
  [.openAccount 1,
    .message 1 "ORDER BUY AAPL 9223372036854775806 LIMIT PRICE=0.00000000000001" quietEnv,
    .message 1 "ORDER BUY AAPL 1 LIMIT PRICE=0.00000000000001" quietEnv]

theorem depthsExact_of_fits_fullLevel :
    DepthsExact (((setUp [.registerSymbol "AAPL" 180.0]).serveAll fullLevel).bookFor "AAPL") ∧
      ((((setUp [.registerSymbol "AAPL" 180.0]).serveAll fullLevel).bookFor "AAPL").snapshot add64
        1).bids.map BookLevel.quantity = [9223372036854775807] :=
  ⟨depthsExact_of_fits _ fullLevel ⟨trivial, ⟨fun _ _ => by decide +kernel, trivial⟩,
    ⟨fun _ _ => by decide +kernel, trivial⟩, trivial⟩ 3 "AAPL", by decide +kernel⟩

/-- Two orders of the largest quantity at a tiny price. -/
def tinyBids : List ServerCall :=
  [.openAccount 1,
    .message 1 "ORDER BUY AAPL 9223372036854775807 LIMIT PRICE=0.00000000000001" quietEnv,
    .message 1 "ORDER BUY AAPL 9223372036854775807 LIMIT PRICE=0.00000000000001" quietEnv]

/-- Both are accepted, and the total of their level is `-2` in 64 bits. -/
theorem tinyBids_overflow : ¬DepthsExact
    (((setUp [.registerSymbol "AAPL" 180.0]).serveAll tinyBids).bookFor "AAPL") := by
  intro sums
  have levels := congrArg (fun snap => snap.bids.map BookLevel.quantity) (sums.levels 1)
  have wrapped : ((((setUp [.registerSymbol "AAPL" 180.0]).serveAll tinyBids).bookFor
      "AAPL").snapshot add64 1).bids.map BookLevel.quantity = [-2] := by decide +kernel
  have total : ((((setUp [.registerSymbol "AAPL" 180.0]).serveAll tinyBids).bookFor
      "AAPL").snapshot (· + ·) 1).bids.map BookLevel.quantity = [18446744073709551614] := by
    decide +kernel
  rw [wrapped, total] at levels
  cases levels

end StockMarket
