import StockMarket.Types
import StockMarket.Lib.Greedy

/-!
The order book of one symbol (`src/order_book.cpp`).

A side is a list of price levels, best first, each with its FIFO queue: the
`std::map<Price, std::deque<Order>>` of the source in iteration order. Map
operations scan for the first level that does not come before the key, as
`lower_bound` does, and use the comparison of the side only; so they say what
the source does for every price, comparable or not.

The source has two copies of the matching loop, one for each side of the
incoming order. They are `matchIncoming` at the two sides.
-/

namespace StockMarket

variable {P : Type}

/-- One price level: a key of the side's map with its queue, oldest order first. -/
structure Level (P : Type) where
  price : P
  queue : List (Order P)
  deriving DecidableEq, Repr

structure OrderBook (P : Type) where
  symbol : Symbol
  bids : List (Level P)
  asks : List (Level P)
  deriving DecidableEq, Repr

namespace OrderBook

/-- A fresh book: `OrderBook::OrderBook`. -/
def new (symbol : Symbol) : OrderBook P := ⟨symbol, [], []⟩

/-- The levels of one side. -/
def levels (b : OrderBook P) : Side → List (Level P)
  | .buy => b.bids
  | .sell => b.asks

/-- The book with other levels on one side. -/
def setLevels (b : OrderBook P) : Side → List (Level P) → OrderBook P
  | .buy, ls => { b with bids := ls }
  | .sell, ls => { b with asks := ls }

/-- `OrderBook::best_bid`. -/
def bestBid (b : OrderBook P) : Option P := b.bids.head?.map Level.price

/-- `OrderBook::best_ask`. -/
def bestAsk (b : OrderBook P) : Option P := b.asks.head?.map Level.price

@[simp] theorem levels_setLevels (b : OrderBook P) (s : Side) (ls : List (Level P)) :
    (b.setLevels s ls).levels s = ls := by cases s <;> rfl

@[simp] theorem levels_setLevels_opposite (b : OrderBook P) (s : Side) (ls : List (Level P)) :
    (b.setLevels s ls).levels s.opposite = b.levels s.opposite := by cases s <;> rfl

@[simp] theorem levels_setLevels_of_opposite (b : OrderBook P) (s : Side) (ls : List (Level P)) :
    (b.setLevels s.opposite ls).levels s = b.levels s := by cases s <;> rfl

theorem levels_setLevels_of_ne (b : OrderBook P) {s s' : Side} (ne : s' ≠ s) (ls : List (Level P)) :
    (b.setLevels s ls).levels s' = b.levels s' := by
  cases s <;> cases s' <;> first | rfl | exact absurd rfl ne

@[simp] theorem symbol_setLevels (b : OrderBook P) (s : Side) (ls : List (Level P)) :
    (b.setLevels s ls).symbol = b.symbol := by cases s <;> rfl

end OrderBook

/-- The orders resting in some levels, in priority order. -/
def restingIn (ls : List (Level P)) : List (Order P) :=
  ls.flatMap Level.queue

@[simp] theorem restingIn_nil : restingIn ([] : List (Level P)) = [] := rfl

@[simp] theorem restingIn_cons (l : Level P) (ls : List (Level P)) :
    restingIn (l :: ls) = l.queue ++ restingIn ls := rfl

theorem mem_restingIn {o : Order P} {ls : List (Level P)} :
    o ∈ restingIn ls ↔ ∃ l ∈ ls, o ∈ l.queue := List.mem_flatMap

/-- `OrderBook::resting_orders`: both sides, bids first. -/
def OrderBook.restingOrders (b : OrderBook P) : List (Order P) :=
  restingIn b.bids ++ restingIn b.asks

theorem mem_restingOrders {b : OrderBook P} {o : Order P} :
    o ∈ b.restingOrders ↔ ∃ s, o ∈ restingIn (b.levels s) := by
  rw [OrderBook.restingOrders, List.mem_append]
  constructor
  · rintro (mem | mem)
    · exact ⟨.buy, mem⟩
    · exact ⟨.sell, mem⟩
  · rintro ⟨s, mem⟩
    cases s with
    | buy => exact .inl mem
    | sell => exact .inr mem

/-- The resting orders, with one side first. -/
theorem restingOrders_perm (b : OrderBook P) (s : Side) :
    b.restingOrders.Perm (restingIn (b.levels s) ++ restingIn (b.levels s.opposite)) := by
  cases s with
  | buy => exact List.Perm.refl _
  | sell => exact List.perm_append_comm

/-! ### Matching -/

section Matching

/-- The trade of `qty` units between an incoming order on side `aggressor` and a
resting order, at the level's price. -/
def tradeOf (aggressor : Side) (symbol : Symbol) (incoming resting : Order P) (qty : Int)
    (levelPrice : P) (timestamp : Int) : Trade P :=
  match aggressor with
  | .buy => ⟨incoming.id, resting.id, incoming.client, resting.client, symbol, qty, levelPrice,
      timestamp⟩
  | .sell => ⟨resting.id, incoming.id, resting.client, incoming.client, symbol, qty, levelPrice,
      timestamp⟩

/-- What a matching loop leaves: the trades, the incoming order with its unfilled
quantity, and the rest of what was walked. -/
structure Sweep (P α : Type) where
  trades : List (Trade P)
  incoming : Order P
  left : α

/-- The inner loop, over one level's queue. `clock i` is what `Clock::now()`
returns for the `i`-th trade of the match. A resting order that is left over has
used up the incoming one, so the loop is done there. -/
def matchQueue (aggressor : Side) (symbol : Symbol) (levelPrice : P) (clock : Nat → Int) :
    Nat → Order P → List (Order P) → Sweep P (List (Order P))
  | _, incoming, [] => ⟨[], incoming, []⟩
  | n, incoming, resting :: queue =>
    if 0 < incoming.quantity then
      let tradedQty := min incoming.quantity resting.quantity
      let trade := tradeOf aggressor symbol incoming resting tradedQty levelPrice (clock n)
      let incoming := incoming.withQuantity (incoming.quantity - tradedQty)
      let resting := resting.withQuantity (resting.quantity - tradedQty)
      if resting.quantity = 0 then
        let r := matchQueue aggressor symbol levelPrice clock (n + 1) incoming queue
        ⟨trade :: r.trades, r.incoming, r.left⟩
      else ⟨[trade], incoming, resting :: queue⟩
    else ⟨[], incoming, resting :: queue⟩

variable [LT P] [DecidableLT P]

/-- The test that ends the outer loop: a priced order does not cross a level
that is worse than its limit. -/
def refuses (aggressor : Side) (incoming : Order P) (levelPrice : P) : Prop :=
  incoming.kind ≠ .market ∧
    match aggressor with
    | .buy => incoming.price < levelPrice
    | .sell => levelPrice < incoming.price

instance (aggressor : Side) (incoming : Order P) (levelPrice : P) :
    Decidable (refuses aggressor incoming levelPrice) := by
  unfold refuses
  cases aggressor <;> infer_instance

/-- The outer loop, over the levels of the opposite side. A level whose queue was
emptied is erased; a level that keeps orders has used up the incoming one. -/
def matchLevels (aggressor : Side) (symbol : Symbol) (clock : Nat → Int) :
    Nat → Order P → List (Level P) → Sweep P (List (Level P))
  | _, incoming, [] => ⟨[], incoming, []⟩
  | n, incoming, level :: levels =>
    if 0 < incoming.quantity then
      if refuses aggressor incoming level.price then ⟨[], incoming, level :: levels⟩
      else
        let q := matchQueue aggressor symbol level.price clock n incoming level.queue
        if q.left = [] then
          let r := matchLevels aggressor symbol clock (n + q.trades.length) q.incoming levels
          ⟨q.trades ++ r.trades, r.incoming, r.left⟩
        else ⟨q.trades, q.incoming, { level with queue := q.left } :: levels⟩
    else ⟨[], incoming, level :: levels⟩

/-- The order of the levels of a side: `std::greater` for bids, `std::less` for
asks. -/
def Side.before : Side → P → P → Prop
  | .buy, p, q => q < p
  | .sell, p, q => p < q

instance (s : Side) (p q : P) : Decidable (s.before p q) := by
  cases s <;> unfold Side.before <;> infer_instance

/-- `side_[order.price].push_back(order)`. -/
def pushBack (s : Side) (order : Order P) : List (Level P) → List (Level P)
  | [] => [⟨order.price, [order]⟩]
  | level :: levels =>
    if s.before level.price order.price then level :: pushBack s order levels
    else if s.before order.price level.price then ⟨order.price, [order]⟩ :: level :: levels
    else { level with queue := level.queue ++ [order] } :: levels

namespace OrderBook

/-- Both copies of the matching loop: trade against the opposite side, then rest
what is left of an order that is not a MARKET order on its own side. -/
def matchIncoming (aggressor : Side) (b : OrderBook P) (clock : Nat → Int)
    (incoming : Order P) : List (Trade P) × OrderBook P :=
  let r := matchLevels aggressor b.symbol clock 0 incoming (b.levels aggressor.opposite)
  let b := b.setLevels aggressor.opposite r.left
  if 0 < r.incoming.quantity ∧ r.incoming.kind ≠ .market then
    (r.trades, b.setLevels aggressor (pushBack aggressor r.incoming (b.levels aggressor)))
  else (r.trades, b)

/-- `OrderBook::match_incoming_buy`. -/
def matchIncomingBuy (b : OrderBook P) (clock : Nat → Int) (incoming : Order P) :
    List (Trade P) × OrderBook P := matchIncoming .buy b clock incoming

/-- `OrderBook::match_incoming_sell`. -/
def matchIncomingSell (b : OrderBook P) (clock : Nat → Int) (incoming : Order P) :
    List (Trade P) × OrderBook P := matchIncoming .sell b clock incoming

/-- `OrderBook::match`. -/
def matchOrder (b : OrderBook P) (clock : Nat → Int) (incoming : Order P) :
    List (Trade P) × OrderBook P :=
  if incoming.side = .buy then b.matchIncomingBuy clock incoming
  else b.matchIncomingSell clock incoming

theorem matchOrder_eq (b : OrderBook P) (clock : Nat → Int) (incoming : Order P) :
    b.matchOrder clock incoming = matchIncoming incoming.side b clock incoming := by
  unfold matchOrder matchIncomingBuy matchIncomingSell
  cases incoming.side <;> rfl

/-- What the matching loop leaves of the incoming order. -/
def unfilled (b : OrderBook P) (clock : Nat → Int) (incoming : Order P) : Int :=
  (matchLevels incoming.side b.symbol clock 0 incoming
    (b.levels incoming.side.opposite)).incoming.quantity

end OrderBook

end Matching

/-! ### Cancelling -/

section Cancelling

/-- `std::find_if` and `erase`: drop the first order with the given id. -/
def eraseId (id : Nat) (queue : List (Order P)) : List (Order P) :=
  queue.eraseP fun o => o.id = id

/-- Is there an order with the given id in a queue? -/
def hasId (id : Nat) (queue : List (Order P)) : Bool :=
  queue.any fun o => o.id = id

variable [LT P] [DecidableLT P]

/-- `side_.erase(price)`: drop the levels whose key is equivalent to `price`. -/
def eraseLevel (s : Side) (price : P) (levels : List (Level P)) : List (Level P) :=
  levels.filter fun l => s.before l.price price ∨ s.before price l.price

/-- The cancellation at a known price, on one side: `none` if the order is not in
the level that `find(price)` returns. -/
def cancelAt (s : Side) (price : P) (id : Nat) : List (Level P) → Option (List (Level P))
  | [] => none
  | level :: levels =>
    if s.before level.price price then
      (cancelAt s price id levels).map fun rest => level :: rest
    else if s.before price level.price then none
    else if hasId id level.queue then
      if eraseId id level.queue = [] then some levels
      else some ({ level with queue := eraseId id level.queue } :: levels)
    else none

/-- The levels of one side with the queue of the first level that holds `id`
shortened, and that level's price: the loop of `OrderBook::cancel(order_id)`
before the check for an empty queue. -/
def dropId (id : Nat) : List (Level P) → Option (P × List (Order P) × List (Level P))
  | [] => none
  | level :: levels =>
    if hasId id level.queue then
      some (level.price, eraseId id level.queue,
        { level with queue := eraseId id level.queue } :: levels)
    else (dropId id levels).map fun (price, queue, rest) => (price, queue, level :: rest)

/-- The cancellation by id alone, on one side. -/
def cancelIn (s : Side) (id : Nat) (levels : List (Level P)) : Option (List (Level P)) :=
  (dropId id levels).map fun (price, queue, rest) =>
    if queue = [] then eraseLevel s price rest else rest

namespace OrderBook

/-- `OrderBook::cancel(side, price, order_id)`. -/
def cancelAtPrice (b : OrderBook P) (s : Side) (price : P) (id : Nat) : Bool × OrderBook P :=
  match cancelAt s price id (b.levels s) with
  | none => (false, b)
  | some ls => (true, b.setLevels s ls)

/-- `OrderBook::cancel(order_id)`: the bids are searched first. -/
def cancel (b : OrderBook P) (id : Nat) : Bool × OrderBook P :=
  match cancelIn .buy id b.bids with
  | some ls => (true, { b with bids := ls })
  | none =>
    match cancelIn .sell id b.asks with
    | some ls => (true, { b with asks := ls })
    | none => (false, b)

end OrderBook

end Cancelling

end StockMarket
