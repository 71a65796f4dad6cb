import StockMarket.Lib.Loop
import StockMarket.Lib.Table
import StockMarket.Sql.Database

/-!
The market of the SQL server (`Src_SQL/market.cpp`): the order books in memory and
the two matching loops.

A book is a vector of order ids, best price first; everything else about an order
is read from its row in the database. `process_fixing` and
`process_continuous_trading` share the body of their loop (`settlePair`) and differ
in how they look at the next pair (`fixingPair`, `continuousPair`). The two indices
of the loop are modelled by what is left of the vectors from there on: a vector is
neither read nor shortened before its index until the loop has ended, when exactly
that prefix is erased.

Both loops report the pairs they settled, as they log and notify them, with the
database before and after each pair.
-/

namespace StockMarket.Sql

/-- The state of `Market`. `transactions` counts the settled pairs. -/
structure Market where
  db : Database
  buyOrders : Table ID (List ID) := ∅
  sellOrders : Table ID (List ID) := ∅
  exchangePrice : ℚ := 0
  transactions : Nat := 0

/-! ### The books -/

/-- `std::lower_bound`: a binary search of `len` elements from `first` on for the first
one that is not before the new element. `fuel` bounds the length. -/
def lowerBoundFrom (before : ID → Bool) (orders : List ID) : Nat → Nat → Nat → Nat
  | 0, first, _ => first
  | fuel + 1, first, len =>
    if len = 0 then first
    else if (orders[first + len / 2]?).any before then
      lowerBoundFrom before orders fuel (first + len / 2 + 1) (len - len / 2 - 1)
    else lowerBoundFrom before orders fuel first (len / 2)

def lowerBound (before : ID → Bool) (orders : List ID) : Nat :=
  lowerBoundFrom before orders orders.length 0 orders.length

namespace Market

def buyOrderPriority (d : Database) (a b : ID) : Bool :=
  if d.getPrice a ≠ d.getPrice b then d.getPrice b < d.getPrice a
  else if d.getDateOrderTime a ≠ d.getDateOrderTime b then
    d.getDateOrderTime a < d.getDateOrderTime b
  else d.getDailyOrderTime a < d.getDailyOrderTime b

def sellOrderPriority (d : Database) (a b : ID) : Bool :=
  if d.getPrice a ≠ d.getPrice b then d.getPrice a < d.getPrice b
  else if d.getDateOrderTime a ≠ d.getDateOrderTime b then
    d.getDateOrderTime a < d.getDateOrderTime b
  else d.getDailyOrderTime a < d.getDailyOrderTime b

/-- Insert an order at its place. -/
def insertOrder (priority : ID → ID → Bool) (order : ID) (orders : List ID) : List ID :=
  let place := lowerBound (fun o => priority o order) orders
  orders.take place ++ order :: orders.drop place

/-- `accumulate_order`, for an order given by its row. -/
def accumulateOrder (o : OrderRow) (m : Market) : Market :=
  if ¬ m.db.clientExists o.clientId then m
  else
    let d := Client.addPendingOrder o m.db
    match o.orderType with
    | .buy =>
      { m with
        db := d
        buyOrders := m.buyOrders.update o.actionId []
          (insertOrder (buyOrderPriority d) o.orderId) }
    | .sell =>
      { m with
        db := d
        sellOrders := m.sellOrders.update o.actionId []
          (insertOrder (sellOrderPriority d) o.orderId) }

/-- `deaccumulate_order`, which nothing in the server calls. -/
def deaccumulateOrder (client order : ID) (type : OrderType) (action : ID) (m : Market) : Market :=
  if ¬ m.db.clientExists client then m
  else
    let d := Client.removePendingOrder client order m.db
    match type with
    | .buy => { m with db := d, buyOrders := m.buyOrders.update action [] (·.erase order) }
    | .sell => { m with db := d, sellOrders := m.sellOrders.update action [] (·.erase order) }

end Market

/-! ### One pair -/

def resolveExecutionPrice (env : Env) (d : Database) (exchangePrice : ℚ) (action : ID)
    (buyerTrigger sellerTrigger : OrderTrigger) (buyerPrice sellerPrice : ℚ) : ℚ :=
  if buyerTrigger = .market ∧ sellerTrigger = .market then
    let reference := d.getActionCurrentPrice env action
    if 0 < reference then reference else exchangePrice
  else if sellerTrigger = .market then buyerPrice
  else sellerPrice

/-- A settled pair, as the log has it, and the database around it. -/
structure Settlement where
  action : ID
  buyer : ID
  seller : ID
  quantity : Int
  price : ℚ
  before : Database
  after : Database

/-- What a matching loop works on: the database, the orders from the two indices on,
the last price and the number of the next transaction. -/
structure Sweep where
  db : Database
  buys : List ID
  sells : List ID
  exchangePrice : ℚ
  transactions : Nat

/-- The two legs of a trade, each behind its own check. -/
def bookTrade (env : Env) (action buyer seller : ID) (quantity : Int) (price : ℚ)
    (time : ID × ID) (d : Database) : Database :=
  Client.updatePortfolio env seller action quantity price time.2 time.1 .sell
    (Client.updatePortfolio env buyer action quantity price time.2 time.1 .buy d)

/-- Remove the row of a filled order. -/
def closeOrder (o : OrderRow) (d : Database) : Database :=
  Client.removePendingOrder o.clientId o.orderId d

/-- The draw of `get_new_order_id` with number `n`. -/
def Database.drawOrderId (env : Env) (n : Nat) (d : Database) : ID :=
  env.newOrderId n (d.orders.rows.map OrderRow.orderId)

/-- The row of the executed part of an order. -/
def completeOrder (env : Env) (n : Nat) (o : OrderRow) (quantity : Int) (price : ℚ)
    (time : ID × ID) (d : Database) : Database :=
  Client.addCompletedOrder
    { o with
      orderId := d.drawOrderId env n
      orderTimeDate := time.1
      orderTimeDaily := time.2
      quantity := quantity
      price := price } d

/-- The row of what is left of an order, and what the book has in its place. -/
def reopenOrder (env : Env) (n : Nat) (o : OrderRow) (quantity : Int) (others : List ID)
    (d : Database) : Database × List ID :=
  if quantity < o.quantity then
    let order := d.drawOrderId env n
    (Client.addPendingOrder { o with orderId := order, quantity := o.quantity - quantity } d,
      order :: others)
  else (d, others)

/-- The body of both loops for a pair that trades: `buyer` and `seller` are the rows of
the two first orders, `buys` and `sells` the orders behind them. -/
def settlePair (env : Env) (action : ID) (buyer seller : OrderRow) (buys sells : List ID)
    (s : Sweep) : Sweep × Settlement :=
  let n := s.transactions
  let buyer := { buyer with orderType := .buy, actionId := action }
  let seller := { seller with orderType := .sell, actionId := action }
  let quantity := min buyer.quantity seller.quantity
  let price := resolveExecutionPrice env s.db s.exchangePrice action buyer.triggerType
    seller.triggerType buyer.price seller.price
  let time := env.now n
  let d := bookTrade env action buyer.clientId seller.clientId quantity price time s.db
  let d := closeOrder seller (closeOrder buyer d)
  let d :=
    if 0 < quantity then
      completeOrder env (4 * n + 1) seller quantity price time
        (completeOrder env (4 * n) buyer quantity price time d)
    else d
  let bought := reopenOrder env (4 * n + 2) buyer quantity buys d
  let sold := reopenOrder env (4 * n + 3) seller quantity sells bought.1
  ({ db := sold.1
     buys := bought.2
     sells := sold.2
     exchangePrice := price
     transactions := n + 1 },
    { action := action
      buyer := buyer.clientId
      seller := seller.clientId
      quantity := quantity
      price := price
      before := s.db
      after := sold.1 })

/-- How the loop of `process_fixing` looks at a pair. An order without a row, which the
source reads as uninitialised locals, ends the loop here; no vector has one. -/
def fixingPair (d : Database) (buy sell : ID) : Option (OrderRow × OrderRow) :=
  match d.getOrderInfo buy, d.getOrderInfo sell with
  | some buyer, some seller =>
    if ¬ d.clientExists buyer.clientId ∨ ¬ d.clientExists seller.clientId then none
    else if buyer.price < seller.price then none
    else if buyer.quantity ≤ 0 ∨ seller.quantity ≤ 0 then none
    else some (buyer, seller)
  | _, _ => none

/-- How the loop of `process_continuous_trading` does: the prices come first. -/
def continuousPair (d : Database) (buy sell : ID) : Option (OrderRow × OrderRow) :=
  if d.getPrice buy < d.getPrice sell then none
  else
    match d.getOrderInfo buy, d.getOrderInfo sell with
    | some buyer, some seller =>
      if ¬ d.clientExists buyer.clientId ∨ ¬ d.clientExists seller.clientId then none
      else if buyer.quantity ≤ 0 ∨ seller.quantity ≤ 0 then none
      else some (buyer, seller)
    | _, _ => none

/-- One round of a matching loop. -/
def matchStep (pair : Database → ID → ID → Option (OrderRow × OrderRow)) (env : Env)
    (action : ID) (s : Sweep) : Option (Sweep × Settlement) :=
  match s.buys, s.sells with
  | buy :: buys, sell :: sells =>
    match pair s.db buy sell with
    | none => none
    | some (buyer, seller) => some (settlePair env action buyer seller buys sells s)
  | _, _ => none

/-! ### The loops -/

namespace Market

/-- Where a matching loop of an action starts. -/
def sweep (m : Market) (buys sells : List ID) : Sweep :=
  ⟨m.db, buys, sells, m.exchangePrice, m.transactions⟩

/-- Write back where it has ended. -/
def afterSweep (action : ID) (m : Market) (s : Sweep) : Market where
  db := s.db
  buyOrders := m.buyOrders.insert action s.buys
  sellOrders := m.sellOrders.insert action s.sells
  exchangePrice := s.exchangePrice
  transactions := s.transactions

/-- A matching loop over the books of one action. Every round leaves one of the two
orders behind (`matchStep_shortens`), so it ends within the orders there are. -/
def matchAction (pair : Database → ID → ID → Option (OrderRow × OrderRow)) (env : Env)
    (action : ID) (m : Market) : Market × List Settlement :=
  match m.buyOrders.lookup action, m.sellOrders.lookup action with
  | some buys, some sells =>
    if buys = [] ∨ sells = [] then (m, [])
    else
      let out := Loop.run (matchStep pair env action) (buys.length + sells.length)
        (m.sweep buys sells)
      (afterSweep action m out.1, out.2)
  | _, _ => (m, [])

def processContinuousTrading (env : Env) (action : ID) : Market → Market × List Settlement :=
  matchAction continuousPair env action

/-- `process_fixing`: the same for every action with a buy book, in the order in which
the `unordered_map` is iterated. -/
def processFixing (env : Env) (order : IterationOrder ID (List ID)) (m : Market) :
    Market × List Settlement :=
  Loop.chain (matchAction fixingPair env) ((order.walk m.buyOrders).map Sigma.fst) m

end Market

/-! ### The loops end -/

section

variable {pair : Database → ID → ID → Option (OrderRow × OrderRow)} {env : Env} {action : ID}

/-- What a round is: the first orders of both books have rows, and the pair settles. -/
theorem matchStep_some {s s' : Sweep} {e : Settlement}
    (next : matchStep pair env action s = some (s', e)) :
    ∃ buy buys sell sells buyer seller, s.buys = buy :: buys ∧ s.sells = sell :: sells ∧
      pair s.db buy sell = some (buyer, seller) ∧
      settlePair env action buyer seller buys sells s = (s', e) := by
  unfold matchStep at next
  split at next
  · rename_i buy buys sell sells eq eq'
    split at next
    · exact absurd next (by simp)
    · rename_i buyer seller found
      exact ⟨buy, buys, sell, sells, buyer, seller, eq, eq', found, Option.some.inj next⟩
  · exact absurd next (by simp)

theorem length_reopenOrder (env : Env) (n : Nat) (o : OrderRow) (quantity : Int)
    (others : List ID) (d : Database) :
    (reopenOrder env n o quantity others d).2.length
      = others.length + if quantity < o.quantity then 1 else 0 := by
  unfold reopenOrder
  split <;> simp

/-- One of the two orders is filled. -/
theorem matchStep_shortens {s s' : Sweep} {e : Settlement}
    (next : matchStep pair env action s = some (s', e)) :
    s'.buys.length + s'.sells.length < s.buys.length + s.sells.length := by
  obtain ⟨buy, buys, sell, sells, buyer, seller, eq, eq', -, settled⟩ := matchStep_some next
  simp only [settlePair, Prod.mk.injEq] at settled
  rw [← settled.1, eq, eq']
  simp only [length_reopenOrder, List.length_cons]
  rcases min_choice buyer.quantity seller.quantity with filled | filled
  · rw [filled, if_neg (lt_irrefl _)]
    split <;> omega
  · rw [filled, if_neg (lt_irrefl seller.quantity)]
    split <;> omega

/-- **A matching loop runs to its end.** -/
theorem matchAction_halts (m : Market) (buys sells : List ID) :
    matchStep pair env action
      (Loop.run (matchStep pair env action) (buys.length + sells.length)
        (m.sweep buys sells)).1 = none := by
  have shortens : ∀ s s' e, matchStep pair env action s = some (s', e) →
      s'.buys.length + s'.sells.length < s.buys.length + s.sells.length :=
    fun s s' e next => matchStep_shortens next
  exact Loop.halted_run shortens _ _ le_rfl

end

end StockMarket.Sql
