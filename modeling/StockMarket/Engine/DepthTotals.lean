import StockMarket.Book.Totals
import StockMarket.Engine.OpenOrders

/-!
The totals of an engine's books along a run.

What rests on a side of a book grows only when an order is matched. `EngineCall.Fits` says of
a call that every order it matches fits its book at that moment. A call that fits keeps every
side of every book below `2 ^ 63` (`Bounded.apply`), and so does a run of such calls.
-/

namespace StockMarket

open Atomic MatchingEngine

variable {P : Type}

/-- Less than `2 ^ 63` rests on each side of each book. -/
def MatchingEngine.Bounded (e : MatchingEngine P) : Prop :=
  ∀ symbol s, (e.bookFor symbol).depth s < 2 ^ 63

theorem MatchingEngine.Bounded.congr {e e' : MatchingEngine P} (bounded : e.Bounded)
    (books : e'.books = e.books) : e'.Bounded := by
  intro symbol s
  unfold bookFor
  rw [books]
  exact bounded symbol s

theorem MatchingEngine.Bounded.withBook {e : MatchingEngine P} (bounded : e.Bounded)
    {symbol : Symbol} {b : OrderBook P} (depths : ∀ s, b.depth s < 2 ^ 63) :
    (e.withBook symbol b).Bounded := by
  intro t s
  by_cases here : t = symbol
  · subst here
    rw [bookFor_withBook]
    exact depths s
  · rw [bookFor_withBook_ne _ _ _ here]
    exact bounded t s

section

variable [LT P] {e : MatchingEngine P}

omit [LT P] in
/-- Nothing rests in an engine that is only set up. -/
theorem MatchingEngine.Idle.bounded {e : MatchingEngine P} (idle : Idle e) : e.Bounded := by
  intro symbol s
  rw [idle.book symbol]
  cases s <;> exact (by decide : (0 : Int) < 2 ^ 63)

/-- A cancellation keeps the bound. -/
theorem MatchingEngine.Bounded.cancelledIn (bounded : e.Bounded) (inv : EngineInvariant e [])
    {symbol : Symbol} {id : Nat} {f : OrderBook P → Bool × OrderBook P}
    (one : CancelsOne id (e.bookFor symbol) (f (e.bookFor symbol))) :
    (e.cancelledIn symbol f).2.Bounded := by
  unfold MatchingEngine.cancelledIn
  split
  · refine bounded.withBook fun s => ?_
    rcases one with missed | ⟨t, ls', removed, found⟩
    · rw [missed]
      exact bounded symbol s
    · rw [found]
      exact lt_of_le_of_lt (depth_removed (inv.book symbol).positive removed s) (bounded symbol s)
  · exact bounded

/-- **All sums of an engine within the bound are exact.** -/
theorem MatchingEngine.Bounded.depthsExact (bounded : e.Bounded) (inv : EngineInvariant e [])
    (symbol : Symbol) : DepthsExact (e.bookFor symbol) :=
  (depthsExact_iff (inv.book symbol).positive).mpr (bounded symbol)

end

section

variable [Zero P] [Add P] [Sub P] [Mul P] [IntCast P] [LT P] [DecidableLT P]

/-- Each of some orders fits its book when its turn to be matched comes. -/
def AllFit (clock : Nat → Nat → Int) : Nat → List (Order P) → MatchingEngine P → Prop
  | _, [], _ => True
  | n, o :: orders, e =>
    (e.bookFor o.symbol).Fits o ∧ AllFit clock (n + 1) orders (matched (clock n) o e)

section

variable [IsStrictOrder P (· < ·)] {e : MatchingEngine P}

omit [IsStrictOrder P (· < ·)] in
/-- **A match keeps the bound if and only if its order fits.** -/
theorem bounded_matched_iff {pending : List (Order P)} {o : Order P}
    (inv : EngineInvariant e (o :: pending)) (bounded : e.Bounded) (clock : Nat → Int) :
    (matched clock o e).Bounded ↔ (e.bookFor o.symbol).Fits o := by
  have books : (matched clock o e).books
      = (e.withBook o.symbol ((e.bookFor o.symbol).matchOrder clock o).2).books := by
    rw [matched, settleAll_books]
    rfl
  have positive := (inv.arriving o List.mem_cons_self).1
  have booked : (∀ s, ((e.bookFor o.symbol).matchOrder clock o).2.depth s < 2 ^ 63) ↔
      (e.bookFor o.symbol).Fits o :=
    depth_matchOrder_iff (inv.book o.symbol).positive positive (bounded o.symbol)
  rw [← booked]
  constructor
  · intro after s
    have here : (e.withBook o.symbol _).Bounded := after.congr books.symm
    have depth := here o.symbol s
    rwa [bookFor_withBook] at depth
  · exact fun depths => (bounded.withBook depths).congr books

/-- Matches that fit, one after the other. -/
theorem MatchingEngine.Bounded.matchedAll (clock : Nat → Nat → Int) :
    ∀ (n : Nat) (orders : List (Order P)) {e : MatchingEngine P}, EngineInvariant e orders →
      e.Bounded → AllFit clock n orders e → (matchedAll clock n orders e).Bounded
  | _, [], _, _, bounded, _ => bounded
  | n, _ :: orders, _, inv, bounded, fits =>
      Bounded.matchedAll clock (n + 1) orders (inv.matched (clock n))
        ((bounded_matched_iff inv bounded (clock n)).mpr fits.1) fits.2

end

variable [LE P] [DecidableLE P] [OfScientific P]

/-- Every order that a call matches fits its book. -/
def EngineCall.Fits (e : MatchingEngine P) : EngineCall P → Prop
  | .submitOrder now _ request =>
    let order := buildOrder request e.nextOrderId now
    e.Admits request → e.Ready now order → (e.bookFor order.symbol).Fits order
  | .tryReleaseWaitingOrders order now clock fullScan =>
    AllFit clock 0 (e.releaseScan order now fullScan).2.released (e.scanned order now fullScan)
  | _ => True

/-- Every call of a run fits. -/
def CallsFit : List (EngineCall P) → MatchingEngine P → Prop
  | [], _ => True
  | call :: calls, e => call.Fits e ∧ CallsFit calls (e.apply call)

variable [IsStrictOrder P (· < ·)] {e : MatchingEngine P}

/-- **A call that fits keeps the bound.** -/
theorem MatchingEngine.Bounded.apply (bounded : e.Bounded) (inv : EngineInvariant e [])
    {call : EngineCall P} (fits : call.Fits e) : (e.apply call).Bounded := by
  refine Bounded.congr ?_ (books_of_core (core_apply e call))
  cases call with
  | submitOrder now clock request =>
      rw [EngineCall.effect]
      rcases submitted_cases now clock request e with ⟨admits, ready, eq⟩ | ⟨-, -, eq⟩ | ⟨-, eq⟩
      · rw [eq]
        exact (bounded_matched_iff (inv.admitted now admits) (bounded.congr rfl) clock).mpr
          (fits admits ready)
      · rw [eq]
        exact bounded.congr rfl
      · rw [eq]
        exact bounded.congr rfl
  | tryReleaseWaitingOrders order now clock fullScan =>
      exact Bounded.matchedAll clock 0 _ (inv.scanned order now fullScan) (bounded.congr rfl) fits
  | cancelOrderAt symbol side price orderId =>
      exact bounded.cancelledIn inv (cancelAtPrice_one _ side price orderId)
  | cancelOrder symbol orderId =>
      exact bounded.cancelledIn inv (cancel_one (inv.book symbol) orderId)
  | cancelWaitingOrder orderId => exact bounded.congr rfl

/-- **A run of calls that fit keeps the bound.** -/
theorem MatchingEngine.Bounded.run (calls : List (EngineCall P)) : ∀ {e : MatchingEngine P},
    e.Bounded → EngineInvariant e [] → CallsFit calls e → (e.run calls).Bounded := by
  induction calls with
  | nil => exact fun bounded _ _ => bounded
  | cons call calls ih =>
      exact fun bounded inv fits => ih (bounded.apply inv fits.1) (inv.apply call) fits.2

end

end StockMarket
