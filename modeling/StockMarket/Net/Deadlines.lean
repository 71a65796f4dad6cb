import StockMarket.Engine.Deadlines
import StockMarket.Net.Server

/-!
EXPIRES and NOT_BEFORE of the wire.

`kv_int` accepts every 64-bit number of seconds, but an instant has 64 bits of nanoseconds. So
the deadlines of a request are right exactly up to some nine thousand million seconds
(`deadlinesHold_iff`); beyond, the deadline wraps around, possibly into the past
(`largest_deadline_wraps`).
-/

namespace StockMarket

open Atomic MatchingEngine

/-- **The deadlines of an order are right** if and only if they fit. -/
theorem deadlinesHold_iff (now s : Int) : DeadlinesHold Double now s ↔
    -((2 ^ 63 + now) / 1000000000) ≤ s ∧ s ≤ (2 ^ 63 - 1 - now) / 1000000000 :=
  deadlinesHold_iff_bounds now s

/-- An engine with one symbol, and a client with money and no shares. -/
def oneBuyer : MatchingEngine Double :=
  setUp [.registerSymbol "AAPL" 180.0, .ensureClient 1 100000.0]

/-- A submission at instant zero, as the server reads it from a line. -/
def submission (line : String) : List (EngineCall Double) :=
  match orderRequest 1 (split line) with
  | .ok request => [.submitOrder 0 (fun _ => 0) request]
  | .error _ => []

/-- A pass over all waiting orders at an instant. -/
def fullPass (now : Int) : EngineCall Double :=
  .tryReleaseWaitingOrders ⟨⟨.stored, fun _ => .stored⟩, .stored⟩ now (fun _ _ => 0) true

/-- The largest number of seconds that `kv_int` accepts ends one second before the submission:
the order expires at once, or starts at once. -/
theorem largest_deadline_wraps :
    kvInt (parseKv ["EXPIRES=9223372036854775807"]) "EXPIRES" = some 9223372036854775807 ∧
      (expiredBy (oneBuyer.runWith after64
        (submission "ORDER BUY AAPL 1 STOP TRIGGER=200 EXPIRES=9223372036854775807"))
        (fullPass 1)).map Order.id = [1] ∧
      (oneBuyer.runWith after64
        (submission "ORDER BUY AAPL 1 LIMIT PRICE=100 NOT_BEFORE=9223372036854775807")
        ).allResting.map Order.id = [1] ∧
      ¬DeadlinesHold Double 0 9223372036854775807 := by
  refine ⟨by decide +kernel, by decide +kernel, by decide +kernel, fun holds => ?_⟩
  exact absurd holds.fits (by decide)

end StockMarket
