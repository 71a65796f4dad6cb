import Mathlib.Data.List.Perm.Subperm
import StockMarket.Sql.Settlement

/-!
The orders behind the books.

The market keeps the ids of the open orders of each side of each action in a vector; the
orders themselves are the rows with the status PENDING. `Market.Lists` says which rows
are behind which vector, and which PENDING rows are in no vector. An order that is
accumulated joins both (`Market.Lists.accumulateOrder`), and the matching loops replace,
round by round, the two orders of a trade by what is left of them
(`Sweep.Lists.settlePair`). So the PENDING rows in no vector never change
(`keeps_lists_matchAction`).

An order id that is drawn is assumed to be in no row (`Env.Fresh`).
-/

namespace StockMarket.Sql

open Client Database

/-- The order is open, of this side and of this action. -/
def OrderRow.Rests (side : OrderType) (action : ID) (o : OrderRow) : Prop :=
  o.orderStatus = .pending ∧ o.orderType = side ∧ o.actionId = action

instance (side : OrderType) (action : ID) : DecidablePred (OrderRow.Rests side action) :=
  fun o => by
    unfold OrderRow.Rests
    infer_instance

/-- What is left of an order that has traded, under its new id. -/
def OrderRow.leftover (o : OrderRow) (id : ID) (quantity : Int) : List OrderRow :=
  if quantity < o.quantity then [{ o with orderId := id, quantity := o.quantity - quantity }]
  else []

/-- Rows of one order, with whatever prices. -/
structure OrderRow.Same (o' o : OrderRow) : Prop where
  id : o'.orderId = o.orderId
  status : o'.orderStatus = o.orderStatus
  client : o'.clientId = o.clientId
  side : o'.orderType = o.orderType
  action : o'.actionId = o.actionId
  quantity : o'.quantity = o.quantity

/-- The row of a part of an order that has been executed. -/
def OrderRow.executed (o : OrderRow) (id : ID) (quantity : Int) (price : ℚ) (time : ID × ID) :
    OrderRow :=
  { o with
    orderId := id
    orderStatus := .completed
    orderTimeDate := time.1
    orderTimeDaily := time.2
    quantity := quantity
    price := price }

/-- The rows with the status PENDING of one side of one action. -/
def Database.pendingOrders (side : OrderType) (action : ID) (d : Database) : List OrderRow :=
  d.orders.select fun o => o.Rests side action

/-- The vector of one side of one action. -/
def Market.orderIds (m : Market) : OrderType → ID → List ID
  | .buy, action => (m.buyOrders.lookup action).getD []
  | .sell, action => (m.sellOrders.lookup action).getD []

/-- The comparator of the vectors of a side. -/
def Market.orderPriority : OrderType → Database → ID → ID → Bool
  | .buy => buyOrderPriority
  | .sell => sellOrderPriority

/-- `get_new_order_id` draws until the id is in no row. -/
def Env.Fresh (env : Env) : Prop :=
  ∀ n inUse, env.newOrderId n inUse ∉ inUse

section

variable {env : Env} {d : Database} {side : OrderType} {action : ID}

theorem OrderRow.Same.rfl {o : OrderRow} : o.Same o := ⟨Eq.refl _, Eq.refl _, Eq.refl _, Eq.refl _,
  Eq.refl _, Eq.refl _⟩

theorem OrderRow.Same.rests {o o' : OrderRow} (same : o'.Same o) :
    o'.Rests side action ↔ o.Rests side action := by
  rw [OrderRow.Rests, OrderRow.Rests, same.status, same.side, same.action]

theorem mem_pendingOrders {o : OrderRow} :
    o ∈ d.pendingOrders side action ↔ o ∈ d.orders.rows ∧ o.Rests side action := by
  simp [pendingOrders, Relation.select]

theorem nodup_pendingOrders : (d.pendingOrders side action).Nodup :=
  (List.Nodup.of_map _ d.orders.unique).filter _

theorem rests_unique {side' : OrderType} {action' : ID} {o : OrderRow}
    (rests : o.Rests side action) (rests' : o.Rests side' action') :
    side = side' ∧ action = action' :=
  ⟨rests.2.1.symm.trans rests'.2.1, rests.2.2.symm.trans rests'.2.2⟩

theorem pendingOrders_congr {d' : Database} (same : d'.orders = d.orders) :
    d'.pendingOrders side action = d.pendingOrders side action := by
  rw [pendingOrders, pendingOrders, same]

theorem mem_of_getOrderInfo {id : ID} {o : OrderRow} (found : d.getOrderInfo id = some o) :
    o ∈ d.orders.rows :=
  (List.mem_filter.mp (List.mem_of_mem_head? found)).1

theorem getOrderInfo_of_mem {o : OrderRow} (mem : o ∈ d.orders.rows) :
    d.getOrderInfo o.orderId = some o := by
  rw [getOrderInfo, Relation.select_key, Relation.find_some_iff.mpr ⟨mem, rfl⟩]
  rfl

/-! ### What the statements do to the open orders -/

@[simp] theorem orders_deposit (client : ID) (amount : ℚ) :
    (deposit client amount d).orders = d.orders := by
  unfold deposit
  split <;> rfl

/-- The legs of a trade change clients, portfolios and prices, and nothing else. -/
theorem bookTrade_frame {α : Type} (f : Database → α)
    (frame : ∀ (d : Database) clients portfolio prices,
      f { d with clients := clients, clientPortfolio := portfolio, prices := prices } = f d)
    (env : Env) (action buyer seller : ID) (quantity : Int) (price : ℚ) (time : ID × ID)
    (d : Database) : f (bookTrade env action buyer seller quantity price time d) = f d := by
  have noted : ∀ (row : PriceRow) (d : Database), f (notePrice row d) = f d := by
    intro row d
    unfold notePrice
    split
    · rfl
    · exact frame d _ _ _
  have added : ∀ (client : ID) (d : Database), f (addShares client action quantity d) = f d := by
    intro client d
    unfold addShares
    split <;> exact frame d _ _ _
  have removed : ∀ (client : ID) (d : Database),
      f (removeShares client action quantity d) = f d := by
    intro client d
    unfold removeShares
    split
    · exact frame d _ _ _
    · rfl
  have paid : ∀ (client : ID) (d : Database), f (deposit client (price * quantity) d) = f d := by
    intro client d
    unfold deposit
    split
    · exact frame d _ _ _
    · rfl
  have leg : ∀ (client : ID) (side : OrderType) (d : Database),
      f (updatePortfolio env client action quantity price time.2 time.1 side d) = f d := by
    intro client side d
    cases side with
    | buy =>
        rw [updatePortfolio]
        split
        · exact ((noted _ _).trans (added _ _)).trans (frame d _ _ _)
        · rfl
    | sell =>
        rw [updatePortfolio]
        split
        · exact ((noted _ _).trans (removed _ _)).trans (paid _ _)
        · rfl
  exact (leg seller .sell _).trans (leg buyer .buy d)

theorem orders_bookTrade (env : Env) (action buyer seller : ID) (quantity : Int) (price : ℚ)
    (time : ID × ID) (d : Database) :
    (bookTrade env action buyer seller quantity price time d).orders = d.orders :=
  bookTrade_frame Database.orders (fun _ _ _ _ => rfl) _ _ _ _ _ _ _ _

/-- The row of an order that is closed is deleted. -/
theorem rows_closeOrder {o : OrderRow} (mem : o ∈ d.orders.rows)
    (pending : o.orderStatus = .pending) :
    (closeOrder o d).orders.rows = d.orders.rows.filter (· ≠ o) := by
  refine Relation.rows_delete_row mem ?_ fun r hit => ?_
  · simp [pending]
  · exact (of_decide_eq_true hit).1

theorem closeOrder_of_same {o o' : OrderRow} (same : o'.Same o) :
    closeOrder o' d = closeOrder o d := by
  rw [closeOrder, closeOrder, same.id, same.client]

/-- Another order's row stays. -/
theorem mem_closeOrder {o o' : OrderRow} (mem : o' ∈ d.orders.rows)
    (other : o'.orderId ≠ o.orderId) : o' ∈ (closeOrder o d).orders.rows := by
  refine List.mem_filter.mpr ⟨mem, ?_⟩
  simp [other]

/-- The row of what is executed comes last. -/
theorem rows_completeOrder (fresh : env.Fresh) (n : Nat) (o : OrderRow) (quantity : Int) (price : ℚ)
    (time : ID × ID) (d : Database) : ∃ id,
    (completeOrder env n o quantity price time d).orders.rows
      = d.orders.rows ++ [o.executed id quantity price time] :=
  ⟨d.drawOrderId env n, Relation.rows_insert_of_fresh (fresh n _)⟩

/-- A row with an unused id joins the open orders. -/
theorem pendingOrders_addPendingOrder {o : OrderRow}
    (fresh : o.orderId ∉ d.orders.rows.map OrderRow.orderId) :
    (addPendingOrder o d).pendingOrders side action
      = d.pendingOrders side action
        ++ [{ o with orderStatus := .pending }].filter fun o => o.Rests side action :=
  Relation.select_insert_of_fresh fresh

/-- What is left of an order is opened again under an unused id, in front of its vector. -/
theorem reopenOrder_fresh (fresh : env.Fresh) (n : Nat) {o : OrderRow}
    (pending : o.orderStatus = .pending) (quantity : Int) (others : List OrderRow) (d : Database) :
    ∃ id, (reopenOrder env n o quantity (others.map OrderRow.orderId) d).2
        = (o.leftover id quantity ++ others).map OrderRow.orderId ∧
      (reopenOrder env n o quantity (others.map OrderRow.orderId) d).1.orders.rows
        = d.orders.rows ++ o.leftover id quantity := by
  refine ⟨d.drawOrderId env n, ?_, ?_⟩
  · unfold reopenOrder OrderRow.leftover
    split <;> rfl
  · unfold reopenOrder OrderRow.leftover
    split
    · have unused : d.drawOrderId env n ∉ d.orders.rows.map OrderRow.orderId := fresh n _
      simp only [addPendingOrder, addOrder, pending]
      exact Relation.rows_insert_of_fresh unused
    · simp

/-- The first one of some distinct orders is taken out. -/
theorem perm_filter_ne {o : OrderRow} {os rest : List OrderRow} (nodup : os.Nodup)
    (same : os.Perm (o :: rest)) : (os.filter (· ≠ o)).Perm rest := by
  have ⟨fresh, _⟩ := List.nodup_cons.mp (same.nodup_iff.mp nodup)
  have others : rest.filter (· ≠ o) = rest := by
    refine List.filter_eq_self.mpr fun o' mem => decide_eq_true ?_
    rintro rfl
    exact fresh mem
  have kept : (o :: rest).filter (· ≠ o) = rest := by
    rw [List.filter_cons_of_neg (by simp), others]
  exact kept ▸ same.filter _

theorem filter_ne_of_not_rests {o : OrderRow} (elsewhere : ¬o.Rests side action) :
    (d.pendingOrders side action).filter (· ≠ o) = d.pendingOrders side action := by
  refine List.filter_eq_self.mpr fun o' mem => decide_eq_true ?_
  rintro rfl
  exact elsewhere (mem_pendingOrders.mp mem).2

/-- What is left of an order stays on its side of its action. -/
theorem rests_of_mem_leftover {o o' : OrderRow} {id : ID} {quantity : Int}
    (mem : o' ∈ o.leftover id quantity) : o'.Rests side action ↔ o.Rests side action := by
  unfold OrderRow.leftover at mem
  split at mem
  · rw [List.mem_singleton.mp mem]
    rfl
  · cases mem

theorem filter_leftover {o : OrderRow} (rests : o.Rests side action) (id : ID) (quantity : Int) :
    (o.leftover id quantity).filter (fun o => o.Rests side action) = o.leftover id quantity :=
  List.filter_eq_self.mpr fun _ mem => decide_eq_true ((rests_of_mem_leftover mem).mpr rests)

theorem filter_leftover_of_not_rests {o : OrderRow} (elsewhere : ¬o.Rests side action) (id : ID)
    (quantity : Int) : (o.leftover id quantity).filter (fun o => o.Rests side action) = [] := by
  refine List.filter_eq_nil_iff.mpr fun o' mem here => elsewhere ?_
  exact (rests_of_mem_leftover mem).mp (of_decide_eq_true here)

/-! ### Clients stay -/

theorem clientExists_congr {d' : Database} {client : ID}
    (same : (d'.clients.find client).isSome = (d.clients.find client).isSome) :
    d'.clientExists client = d.clientExists client := by
  have known : ∀ d : Database, (d.clients.select fun c => c.clientId = client).map ClientRow.clientId
      = if (d.clients.find client).isSome then [client] else [] := fun d => by
    rw [Relation.select_key]
    cases found : d.clients.find client with
    | none => rfl
    | some c => simp [(Relation.find_some_iff.mp found).2]
  simp only [clientExists, known, same]

@[simp] theorem isSome_client_notePrice (row : PriceRow) (client : ID) :
    ((notePrice row d).clients.find client).isSome = (d.clients.find client).isSome := by
  unfold notePrice
  split <;> rfl

@[simp] theorem isSome_client_addShares (c action client : ID) (quantity : Int) :
    ((addShares c action quantity d).clients.find client).isSome
      = (d.clients.find client).isSome := by
  unfold addShares
  split <;> rfl

@[simp] theorem isSome_client_removeShares (c action client : ID) (quantity : Int) :
    ((removeShares c action quantity d).clients.find client).isSome
      = (d.clients.find client).isSome := by
  unfold removeShares
  split <;> rfl

@[simp] theorem isSome_client_deposit (c client : ID) (amount : ℚ) :
    ((deposit c amount d).clients.find client).isSome = (d.clients.find client).isSome := by
  unfold deposit
  split
  · simp
  · rfl

@[simp] theorem isSome_client_updatePortfolio (c action client : ID) (quantity : Int) (price : ℚ)
    (daily date : ID) : ∀ type : OrderType,
    ((updatePortfolio env c action quantity price daily date type d).clients.find client).isSome
      = (d.clients.find client).isSome
  | .buy => by
      rw [updatePortfolio]
      split
      · simp [buy, addAction, withdraw]
      · rfl
  | .sell => by
      rw [updatePortfolio]
      split
      · simp [sell, removeAction]
      · rfl

/-- Behind the two legs only the orders change. -/
theorem settlePair_frame {α : Type} (f : Database → α)
    (frame : ∀ (d : Database) orders, f { d with orders := orders } = f d) (env : Env)
    (action : ID) (buyer seller : OrderRow) (buys sells : List ID) (s : Sweep) :
    f (settlePair env action buyer seller buys sells s).1.db
      = f (bookTrade env action buyer.clientId seller.clientId (min buyer.quantity seller.quantity)
          (resolveExecutionPrice env s.db s.exchangePrice action buyer.triggerType
            seller.triggerType buyer.price seller.price)
          (env.now s.transactions) s.db) := by
  have reopened : ∀ n o quantity others (d : Database),
      f (reopenOrder env n o quantity others d).1 = f d := by
    intro n o quantity others d
    unfold reopenOrder
    split
    · exact frame d _
    · rfl
  have closed : ∀ (o : OrderRow) (d : Database), f (closeOrder o d) = f d :=
    fun o d => frame d _
  have completed : ∀ n o quantity price time (d : Database),
      f (completeOrder env n o quantity price time d) = f d := fun _ _ _ _ _ d => frame d _
  simp only [settlePair, reopened]
  split
  · simp only [completed, closed]
  · simp only [closed]

/-- The clients are as the two legs of the trade leave them. -/
theorem clients_settlePair (env : Env) (action : ID) (buyer seller : OrderRow)
    (buys sells : List ID) (s : Sweep) :
    (settlePair env action buyer seller buys sells s).1.db.clients
      = (bookTrade env action buyer.clientId seller.clientId (min buyer.quantity seller.quantity)
          (resolveExecutionPrice env s.db s.exchangePrice action buyer.triggerType
            seller.triggerType buyer.price seller.price)
          (env.now s.transactions) s.db).clients :=
  settlePair_frame Database.clients (fun _ _ => rfl) env action buyer seller buys sells s

/-- No trade adds or removes a client. -/
theorem clientExists_settlePair (env : Env) (action : ID) (buyer seller : OrderRow)
    (buys sells : List ID) (s : Sweep) (client : ID) :
    (settlePair env action buyer seller buys sells s).1.db.clientExists client
      = s.db.clientExists client := by
  refine clientExists_congr ?_
  rw [clients_settlePair]
  simp [bookTrade]

end

/-! ### One pair -/

/-- The pair that is settled is read from the rows of the two ids. -/
def ReadsRows (pair : Database → ID → ID → Option (OrderRow × OrderRow)) : Prop :=
  ∀ d buy sell buyer seller, pair d buy sell = some (buyer, seller) →
    d.getOrderInfo buy = some buyer ∧ d.getOrderInfo sell = some seller

/-- It is read from them up to prices. -/
def ReadsOrders (pair : Database → ID → ID → Option (OrderRow × OrderRow)) : Prop :=
  ∀ d buy sell bid ask, pair d buy sell = some (bid, ask) →
    ∃ buyer seller, d.getOrderInfo buy = some buyer ∧ d.getOrderInfo sell = some seller ∧
      bid.Same buyer ∧ ask.Same seller

theorem ReadsRows.orders {pair : Database → ID → ID → Option (OrderRow × OrderRow)}
    (reads : ReadsRows pair) : ReadsOrders pair := by
  intro d buy sell bid ask found
  obtain ⟨row, row'⟩ := reads d buy sell bid ask found
  exact ⟨bid, ask, row, row', .rfl, .rfl⟩

theorem readsRows_fixingPair : ReadsRows fixingPair := by
  intro d buy sell buyer seller found
  unfold fixingPair at found
  grind

theorem readsRows_continuousPair : ReadsRows continuousPair := by
  intro d buy sell buyer seller found
  unfold continuousPair at found
  grind

/-- The orders behind the two vectors of a matching loop, and the other PENDING rows of the
action. -/
structure Sweep.Lists (action : ID) (others : OrderType → List OrderRow)
    (buys sells : List OrderRow) (s : Sweep) : Prop where
  buyIds : s.buys = buys.map OrderRow.orderId
  sellIds : s.sells = sells.map OrderRow.orderId
  pendingBuys : (s.db.pendingOrders .buy action).Perm (buys ++ others .buy)
  pendingSells : (s.db.pendingOrders .sell action).Perm (sells ++ others .sell)

namespace Sweep.Lists

variable {env : Env} {action : ID} {others : OrderType → List OrderRow} {s : Sweep}
  {buys sells : List OrderRow} {o : OrderRow}

theorem buy_mem (lists : s.Lists action others buys sells) (mem : o ∈ buys) :
    o ∈ s.db.orders.rows ∧ o.Rests .buy action :=
  mem_pendingOrders.mp (lists.pendingBuys.mem_iff.mpr (List.mem_append_left _ mem))

theorem sell_mem (lists : s.Lists action others buys sells) (mem : o ∈ sells) :
    o ∈ s.db.orders.rows ∧ o.Rests .sell action :=
  mem_pendingOrders.mp (lists.pendingSells.mem_iff.mpr (List.mem_append_left _ mem))

/-- What a settled pair does to the rows: those of the two orders go, and what is executed and
what is left of them comes. -/
theorem rows_settlePair_of_same {buyer seller bid ask : OrderRow} (same : bid.Same buyer)
    (same' : ask.Same seller) (fresh : env.Fresh)
    (lists : s.Lists action others (buyer :: buys) (seller :: sells)) :
    ∃ id id' done done',
      (settlePair env action bid ask (buys.map OrderRow.orderId)
          (sells.map OrderRow.orderId) s).1.buys
        = (bid.leftover id (min bid.quantity ask.quantity) ++ buys).map OrderRow.orderId ∧
      (settlePair env action bid ask (buys.map OrderRow.orderId)
          (sells.map OrderRow.orderId) s).1.sells
        = (ask.leftover id' (min bid.quantity ask.quantity) ++ sells).map
          OrderRow.orderId ∧
      (settlePair env action bid ask (buys.map OrderRow.orderId)
          (sells.map OrderRow.orderId) s).1.db.orders.rows
        = ((((s.db.orders.rows.filter (· ≠ buyer)).filter (· ≠ seller))
          ++ if 0 < min bid.quantity ask.quantity then
              [bid.executed done (min bid.quantity ask.quantity)
                (settlePair env action bid ask (buys.map OrderRow.orderId)
                  (sells.map OrderRow.orderId) s).2.price (env.now s.transactions),
              ask.executed done' (min bid.quantity ask.quantity)
                (settlePair env action bid ask (buys.map OrderRow.orderId)
                  (sells.map OrderRow.orderId) s).2.price (env.now s.transactions)]
            else [])
          ++ bid.leftover id (min bid.quantity ask.quantity))
          ++ ask.leftover id' (min bid.quantity ask.quantity) := by
  obtain ⟨bought, buys'⟩ := lists.buy_mem (o := buyer) List.mem_cons_self
  obtain ⟨sold, sells'⟩ := lists.sell_mem (o := seller) List.mem_cons_self
  have bids := same.rests.mpr buys'
  have asks := same'.rests.mpr sells'
  have bid' : { bid with orderType := .buy, actionId := action } = bid := by
    rw [← bids.2.1, ← bids.2.2]
  have ask' : { ask with orderType := .sell, actionId := action } = ask := by
    rw [← asks.2.1, ← asks.2.2]
  simp only [settlePair, bid', ask']
  set quantity := min bid.quantity ask.quantity
  set price := resolveExecutionPrice env s.db s.exchangePrice action bid.triggerType
    ask.triggerType bid.price ask.price
  set d₁ := bookTrade env action bid.clientId ask.clientId quantity price
    (env.now s.transactions) s.db with booked
  have orders : d₁.orders = s.db.orders := orders_bookTrade _ _ _ _ _ _ _ _
  have apart : seller.orderId ≠ buyer.orderId := by
    intro equal
    have one := List.inj_on_of_nodup_map s.db.orders.unique sold bought equal
    have := sells'.2.1.symm.trans (one ▸ buys'.2.1)
    cases this
  set d₂ := closeOrder ask (closeOrder bid d₁)
  have closed : d₂.orders.rows = (s.db.orders.rows.filter (· ≠ buyer)).filter (· ≠ seller) := by
    have closes : closeOrder ask (closeOrder bid d₁) = closeOrder seller (closeOrder buyer d₁) := by
      rw [closeOrder_of_same same, closeOrder_of_same same']
    change (closeOrder ask (closeOrder bid d₁)).orders.rows = _
    rw [closes, rows_closeOrder (mem_closeOrder (orders ▸ sold) apart) sells'.1,
      rows_closeOrder (orders ▸ bought) buys'.1, orders]
  set d₃ := if 0 < quantity then
      completeOrder env (4 * s.transactions + 1) ask quantity price (env.now s.transactions)
        (completeOrder env (4 * s.transactions) bid quantity price (env.now s.transactions) d₂)
    else d₂ with completed
  obtain ⟨done, first⟩ := rows_completeOrder fresh (4 * s.transactions) bid quantity price
    (env.now s.transactions) d₂
  obtain ⟨done', second⟩ := rows_completeOrder fresh (4 * s.transactions + 1) ask quantity price
    (env.now s.transactions)
    (completeOrder env (4 * s.transactions) bid quantity price (env.now s.transactions) d₂)
  have rows₃ : d₃.orders.rows = d₂.orders.rows ++ if 0 < quantity then
      [bid.executed done quantity price (env.now s.transactions),
        ask.executed done' quantity price (env.now s.transactions)] else [] := by
    rw [completed]
    split
    · rw [second, first, List.append_assoc]
      rfl
    · rw [List.append_nil]
  obtain ⟨id, ids, rows⟩ := reopenOrder_fresh fresh (4 * s.transactions + 2) bids.1 quantity buys d₃
  set reopened := reopenOrder env (4 * s.transactions + 2) bid quantity
    (buys.map OrderRow.orderId) d₃
  obtain ⟨id', ids', rows'⟩ := reopenOrder_fresh fresh (4 * s.transactions + 3) asks.1 quantity
    sells reopened.1
  refine ⟨id, id', done, done', ids, ids', ?_⟩
  rw [rows', rows, rows₃, closed]

/-- Of the PENDING rows, those of the two orders go, and what is left of them comes. -/
theorem pendingOrders_settlePair_of_same {buyer seller bid ask : OrderRow} (same : bid.Same buyer)
    (same' : ask.Same seller) (fresh : env.Fresh)
    (lists : s.Lists action others (buyer :: buys) (seller :: sells)) :
    ∃ id id',
      (settlePair env action bid ask (buys.map OrderRow.orderId)
          (sells.map OrderRow.orderId) s).1.buys
        = (bid.leftover id (min bid.quantity ask.quantity) ++ buys).map OrderRow.orderId ∧
      (settlePair env action bid ask (buys.map OrderRow.orderId)
          (sells.map OrderRow.orderId) s).1.sells
        = (ask.leftover id' (min bid.quantity ask.quantity) ++ sells).map
          OrderRow.orderId ∧
      ∀ side a, (settlePair env action bid ask (buys.map OrderRow.orderId)
          (sells.map OrderRow.orderId) s).1.db.pendingOrders side a
        = (((s.db.pendingOrders side a).filter (· ≠ buyer)).filter (· ≠ seller)
          ++ (bid.leftover id (min bid.quantity ask.quantity)).filter
              fun o => o.Rests side a)
          ++ (ask.leftover id' (min bid.quantity ask.quantity)).filter
              fun o => o.Rests side a := by
  obtain ⟨id, id', done, done', ids, ids', rows⟩ := lists.rows_settlePair_of_same same same' fresh
  refine ⟨id, id', ids, ids', fun side a => ?_⟩
  have executed : ∀ (o : OrderRow) id quantity price time,
      ¬(o.executed id quantity price time).Rests side a := fun _ _ _ _ _ rests => by cases rests.1
  rw [pendingOrders, Relation.select, rows]
  simp only [List.filter_append]
  congr 2
  have none : (if 0 < min bid.quantity ask.quantity then
      [bid.executed done (min bid.quantity ask.quantity)
        (settlePair env action bid ask (buys.map OrderRow.orderId)
          (sells.map OrderRow.orderId) s).2.price (env.now s.transactions),
      ask.executed done' (min bid.quantity ask.quantity)
        (settlePair env action bid ask (buys.map OrderRow.orderId)
          (sells.map OrderRow.orderId) s).2.price (env.now s.transactions)] else []).filter
        (fun o => o.Rests side a) = [] := by
    split
    · simp [executed]
    · rfl
  rw [none, List.append_nil, List.filter_comm, List.filter_comm _ _ s.db.orders.rows]
  rfl

/-- **A settled pair** replaces the first two orders by what is left of them, and touches no
order of another action. -/
theorem settlePair_of_same {buyer seller bid ask : OrderRow} (same : bid.Same buyer)
    (same' : ask.Same seller) (fresh : env.Fresh)
    (lists : s.Lists action others (buyer :: buys) (seller :: sells)) :
    ∃ id id',
      (settlePair env action bid ask (buys.map OrderRow.orderId)
        (sells.map OrderRow.orderId) s).1.Lists action others
          (bid.leftover id (min bid.quantity ask.quantity) ++ buys)
          (ask.leftover id' (min bid.quantity ask.quantity) ++ sells) ∧
      ∀ side a, a ≠ action →
        (Sql.settlePair env action bid ask (buys.map OrderRow.orderId)
          (sells.map OrderRow.orderId) s).1.db.pendingOrders side a
        = s.db.pendingOrders side a := by
  obtain ⟨-, buys'⟩ := lists.buy_mem (o := buyer) List.mem_cons_self
  obtain ⟨-, sells'⟩ := lists.sell_mem (o := seller) List.mem_cons_self
  obtain ⟨id, id', ids, ids', rows⟩ := lists.pendingOrders_settlePair_of_same same same' fresh
  have notSell : ¬buyer.Rests .sell action := fun rests => by cases (rests_unique buys' rests).1
  have notBuy : ¬seller.Rests .buy action := fun rests => by cases (rests_unique sells' rests).1
  have bids := same.rests.mpr buys'
  have asks := same'.rests.mpr sells'
  refine ⟨id, id', ⟨ids, ids', ?_, ?_⟩, fun side a other => ?_⟩
  · have less := perm_filter_ne nodup_pendingOrders lists.pendingBuys
    rw [rows, filter_leftover bids,
      filter_leftover_of_not_rests (mt same'.rests.mp notBuy), List.append_nil,
      List.filter_comm, filter_ne_of_not_rests notBuy, List.append_assoc]
    exact (less.append_right _).trans List.perm_append_comm
  · have less := perm_filter_ne nodup_pendingOrders lists.pendingSells
    rw [rows, filter_leftover asks,
      filter_leftover_of_not_rests (mt same.rests.mp notSell), List.append_nil,
      filter_ne_of_not_rests notSell, List.append_assoc]
    exact (less.append_right _).trans List.perm_append_comm
  · have elsewhere : ¬buyer.Rests side a := fun rests => other (rests_unique rests buys').2
    have elsewhere' : ¬seller.Rests side a := fun rests => other (rests_unique rests sells').2
    rw [rows, filter_leftover_of_not_rests (mt same.rests.mp elsewhere),
      filter_leftover_of_not_rests (mt same'.rests.mp elsewhere'),
      filter_ne_of_not_rests elsewhere, filter_ne_of_not_rests elsewhere', List.append_nil,
      List.append_nil]

theorem settlePair {buyer seller : OrderRow} (fresh : env.Fresh)
    (lists : s.Lists action others (buyer :: buys) (seller :: sells)) :
    ∃ id id',
      (settlePair env action buyer seller (buys.map OrderRow.orderId)
        (sells.map OrderRow.orderId) s).1.Lists action others
          (buyer.leftover id (min buyer.quantity seller.quantity) ++ buys)
          (seller.leftover id' (min buyer.quantity seller.quantity) ++ sells) ∧
      ∀ side a, a ≠ action →
        (Sql.settlePair env action buyer seller (buys.map OrderRow.orderId)
          (sells.map OrderRow.orderId) s).1.db.pendingOrders side a
        = s.db.pendingOrders side a :=
  lists.settlePair_of_same .rfl .rfl fresh

variable {pair : Database → ID → ID → Option (OrderRow × OrderRow)}

/-- **One round** settles the first two orders behind the vectors, as they are read. -/
theorem matchStep_of_same (reads : ReadsOrders pair) (fresh : env.Fresh)
    (lists : s.Lists action others buys sells) {s' : Sweep} {e : Settlement}
    (next : matchStep pair env action s = some (s', e)) :
    ∃ buyer buys' seller sells' bid ask id id', buys = buyer :: buys' ∧ sells = seller :: sells' ∧
      bid.Same buyer ∧ ask.Same seller ∧
      pair s.db buyer.orderId seller.orderId = some (bid, ask) ∧
      Sql.settlePair env action bid ask (buys'.map OrderRow.orderId)
        (sells'.map OrderRow.orderId) s = (s', e) ∧
      s'.Lists action others (bid.leftover id (min bid.quantity ask.quantity) ++ buys')
        (ask.leftover id' (min bid.quantity ask.quantity) ++ sells') ∧
      ∀ side a, a ≠ action → s'.db.pendingOrders side a = s.db.pendingOrders side a := by
  obtain ⟨buy, buyIds, sell, sellIds, bid, ask, eq, eq', found, settled⟩ := matchStep_some next
  obtain ⟨buyer, buys', rfl, rfl, rfl⟩ := List.map_eq_cons_iff.mp (lists.buyIds.symm.trans eq)
  obtain ⟨seller, sells', rfl, rfl, rfl⟩ := List.map_eq_cons_iff.mp (lists.sellIds.symm.trans eq')
  obtain ⟨buyer', seller', row, row', same, same'⟩ := reads _ _ _ _ _ found
  rw [getOrderInfo_of_mem (lists.buy_mem List.mem_cons_self).1] at row
  rw [getOrderInfo_of_mem (lists.sell_mem List.mem_cons_self).1] at row'
  cases row
  cases row'
  obtain ⟨id, id', after, frame⟩ := lists.settlePair_of_same same same' fresh
  rw [settled] at after frame
  exact ⟨buyer, buys', seller, sells', bid, ask, id, id', rfl, rfl, same, same', found, settled,
    after, frame⟩

/-- **One round** for a pair of rows. -/
theorem matchStep (reads : ReadsRows pair) (fresh : env.Fresh)
    (lists : s.Lists action others buys sells) {s' : Sweep} {e : Settlement}
    (next : matchStep pair env action s = some (s', e)) :
    ∃ buyer buys' seller sells' id id', buys = buyer :: buys' ∧ sells = seller :: sells' ∧
      pair s.db buyer.orderId seller.orderId = some (buyer, seller) ∧
      Sql.settlePair env action buyer seller (buys'.map OrderRow.orderId)
        (sells'.map OrderRow.orderId) s = (s', e) ∧
      s'.Lists action others (buyer.leftover id (min buyer.quantity seller.quantity) ++ buys')
        (seller.leftover id' (min buyer.quantity seller.quantity) ++ sells') ∧
      ∀ side a, a ≠ action → s'.db.pendingOrders side a = s.db.pendingOrders side a := by
  obtain ⟨buyer, buys', seller, sells', bid, ask, id, id', rfl, rfl, -, -, found, settled, after,
    frame⟩ := lists.matchStep_of_same reads.orders fresh next
  obtain ⟨row, row'⟩ := reads _ _ _ _ _ found
  rw [getOrderInfo_of_mem (lists.buy_mem List.mem_cons_self).1] at row
  rw [getOrderInfo_of_mem (lists.sell_mem List.mem_cons_self).1] at row'
  cases row
  cases row'
  exact ⟨buyer, buys', seller, sells', id, id', rfl, rfl, found, settled, after, frame⟩

end Sweep.Lists

/-! ### The books -/

/-- The orders behind the vectors, and the other PENDING rows. -/
structure Market.Lists (orders others : OrderType → ID → List OrderRow) (m : Market) : Prop where
  ids : ∀ side action, m.orderIds side action = (orders side action).map OrderRow.orderId
  pending : ∀ side action,
    (m.db.pendingOrders side action).Perm (orders side action ++ others side action)

/-- The PENDING rows that are in no vector. -/
def Market.Strands (others : OrderType → ID → List OrderRow) (m : Market) : Prop :=
  ∃ orders, m.Lists orders others

/-- The vectors list open orders of their side and action, each at most once. -/
def Market.Backed (m : Market) : Prop :=
  ∀ side action,
    (m.orderIds side action).Subperm ((m.db.pendingOrders side action).map OrderRow.orderId)

namespace Market

variable {env : Env} {orders others : OrderType → ID → List OrderRow} {m : Market}
  {pair : Database → ID → ID → Option (OrderRow × OrderRow)}

/-- The orders of one action are others. -/
def withOrders (orders : OrderType → ID → List OrderRow) (action : ID)
    (orders' : OrderType → List OrderRow) : OrderType → ID → List OrderRow :=
  fun side a => if a = action then orders' side else orders side a

theorem Strands.backed (strands : m.Strands others) : m.Backed := by
  obtain ⟨orders, lists⟩ := strands
  intro side action
  rw [lists.ids]
  have listed := (List.sublist_append_left (orders side action) (others side action)).map
    OrderRow.orderId
  exact listed.subperm.trans ((lists.pending side action).map OrderRow.orderId).symm.subperm

/-- A market that starts has empty vectors, so all PENDING rows are in none. -/
theorem strands_start (d : Database) :
    ({ db := d } : Market).Strands fun side action => d.pendingOrders side action := by
  refine ⟨fun _ _ => [], fun side action => ?_, fun side action => .refl _⟩
  cases side <;> rfl

theorem withOrders_self (orders : OrderType → ID → List OrderRow) (action : ID) :
    withOrders orders action (orders · action) = orders := by
  funext side a
  by_cases here : a = action <;> simp [withOrders, here]

/-- The vectors of other actions stay. -/
theorem orderIds_afterSweep (m : Market) (action : ID) (s : Sweep) : ∀ side a,
    (afterSweep action m s).orderIds side a
      = if a = action then (match side with | .buy => s.buys | .sell => s.sells)
        else m.orderIds side a
  | .buy, a => by
      by_cases here : a = action
      · subst here
        simp [orderIds, afterSweep]
      · simp [orderIds, afterSweep, here, AList.lookup_insert_ne here]
  | .sell, a => by
      by_cases here : a = action
      · subst here
        simp [orderIds, afterSweep]
      · simp [orderIds, afterSweep, here, AList.lookup_insert_ne here]

/-- What the rounds of a matching loop keep. -/
structure Sweeping (action : ID) (others : OrderType → List OrderRow) (d : Database)
    (s : Sweep) : Prop where
  lists : ∃ buys sells, s.Lists action others buys sells
  frame : ∀ side a, a ≠ action → s.db.pendingOrders side a = d.pendingOrders side a

theorem keeps_sweeping (reads : ReadsOrders pair) (fresh : env.Fresh) (action : ID)
    (others : OrderType → List OrderRow) (d : Database) (n : Nat) :
    Loop.Keeps (Sweeping action others d) (fun e => e.action = action) (fun _ => True)
      (fun s c => s.db.clientExists c) (Loop.run (matchStep pair env action) n) := by
  refine Loop.keeps_run (fun s s' e sweeping next => ?_) n
  obtain ⟨buys, sells, lists⟩ := sweeping.lists
  obtain ⟨buyer, buys', seller, sells', bid, ask, id, id', rfl, rfl, -, -, -, settled, after,
    frame⟩ := lists.matchStep_of_same reads fresh next
  obtain ⟨rfl, rfl⟩ := Prod.mk.inj settled
  refine ⟨⟨⟨_, _, after⟩, fun side a ne => (frame side a ne).trans (sweeping.frame side a ne)⟩,
    ?_, fun _ => ?_⟩
  · intro e mem
    rw [List.mem_singleton.mp mem]
  · funext c
    exact clientExists_settlePair env action bid ask _ _ s c

/-- Where a matching loop of an action ends, and what it settles. -/
def swept (pair : Database → ID → ID → Option (OrderRow × OrderRow)) (env : Env) (action : ID)
    (m : Market) : Sweep × List Settlement :=
  Loop.run (matchStep pair env action)
    ((m.orderIds .buy action).length + (m.orderIds .sell action).length)
    (m.sweep (m.orderIds .buy action) (m.orderIds .sell action))

/-- A matching loop works on the two vectors of its action, if there is anything in both. -/
theorem matchAction_swept (pair : Database → ID → ID → Option (OrderRow × OrderRow)) (env : Env)
    (action : ID) (m : Market) :
    matchAction pair env action m = (m, []) ∧
        (m.orderIds .buy action = [] ∨ m.orderIds .sell action = []) ∨
      matchStep pair env action (swept pair env action m).1 = none ∧
        matchAction pair env action m = (afterSweep action m (swept pair env action m).1,
          (swept pair env action m).2) := by
  unfold matchAction swept
  split
  · rename_i buys sells found found'
    simp only [orderIds, found, found', Option.getD_some]
    split
    · rename_i empty
      exact .inl ⟨rfl, empty⟩
    · exact .inr ⟨matchAction_halts m buys sells, rfl⟩
  · rename_i missing
    refine .inl ⟨rfl, ?_⟩
    simp only [orderIds]
    cases found : m.buyOrders.lookup action with
    | none => exact .inl rfl
    | some buys =>
        cases found' : m.sellOrders.lookup action with
        | none => exact .inr rfl
        | some sells => exact absurd found' (missing buys sells found)

theorem matchAction_cases (pair : Database → ID → ID → Option (OrderRow × OrderRow)) (env : Env)
    (action : ID) (m : Market) :
    matchAction pair env action m = (m, []) ∧
        (m.orderIds .buy action = [] ∨ m.orderIds .sell action = []) ∨
      ∃ n out, Loop.run (matchStep pair env action) n
          (m.sweep (m.orderIds .buy action) (m.orderIds .sell action)) = out ∧
        matchStep pair env action out.1 = none ∧
        matchAction pair env action m = (afterSweep action m out.1, out.2) :=
  (matchAction_swept pair env action m).imp_right fun some => ⟨_, _, rfl, some⟩

/-- What holds of the rows, and of what is executed and left of the two orders of a pair, holds
of the rows after the pair is settled. -/
theorem forall_rows_settlePair {R : OrderRow → Prop} (env : Env) (action : ID)
    {buyer seller : OrderRow} (buys sells : List ID) {s : Sweep}
    (rows : ∀ o ∈ s.db.orders.rows, R o)
    (executed : ∀ id, 0 < min buyer.quantity seller.quantity →
      R (({ buyer with orderType := .buy, actionId := action } : OrderRow).executed id
        (min buyer.quantity seller.quantity)
        (settlePair env action buyer seller buys sells s).2.price (env.now s.transactions)))
    (executed' : ∀ id, 0 < min buyer.quantity seller.quantity →
      R (({ seller with orderType := .sell, actionId := action } : OrderRow).executed id
        (min buyer.quantity seller.quantity)
        (settlePair env action buyer seller buys sells s).2.price (env.now s.transactions)))
    (left : ∀ id quantity, 0 < quantity →
      R { buyer with
        orderId := id, orderStatus := .pending, orderType := .buy, actionId := action,
        quantity := quantity })
    (left' : ∀ id quantity, 0 < quantity →
      R { seller with
        orderId := id, orderStatus := .pending, orderType := .sell, actionId := action,
        quantity := quantity }) :
    ∀ o ∈ (settlePair env action buyer seller buys sells s).1.db.orders.rows, R o := by
  have reopened : ∀ {n : Nat} {o : OrderRow} {quantity : Int} {others : List ID} {d : Database},
      (∀ id quantity, 0 < quantity →
        R { o with orderId := id, orderStatus := .pending, quantity := quantity }) →
      (∀ o ∈ d.orders.rows, R o) →
      ∀ o' ∈ (reopenOrder env n o quantity others d).1.orders.rows, R o' := by
    intro n o quantity others d left rows
    unfold reopenOrder
    split
    · rename_i more
      exact Relation.forall_insert rows (left _ _ (sub_pos.mpr more))
    · exact rows
  have closed : ∀ {o o' : OrderRow} {d : Database}, (∀ o ∈ d.orders.rows, R o) →
      ∀ o'' ∈ (closeOrder o (closeOrder o' d)).orders.rows, R o'' :=
    fun rows => Relation.forall_delete (Relation.forall_delete rows)
  simp only [settlePair] at executed executed' ⊢
  refine reopened left' (reopened left ?_)
  split
  · rename_i some
    refine Relation.forall_insert (Relation.forall_insert ?_ (executed _ some)) (executed' _ some)
    exact closed (by rwa [orders_bookTrade])
  · exact closed (by rwa [orders_bookTrade])

/-- A matching loop keeps what every pair that it settles keeps of the database. -/
theorem keeps_db_of_pair {D : Database → Prop} (env : Env) (action : ID)
    (settles : ∀ buy sell bid ask buys sells (s : Sweep), D s.db →
      pair s.db buy sell = some (bid, ask) → D (settlePair env action bid ask buys sells s).1.db) :
    Loop.Keeps (fun m : Market => D m.db) (fun _ => True) (fun _ => True) (fun _ => ())
      (matchAction pair env action) := by
  intro m holds
  rcases matchAction_cases pair env action m with ⟨same, -⟩ | ⟨n, out, rfl, -, same⟩
  · rw [same]
    exact .idle holds
  · rw [same]
    have rounds : Loop.Keeps (fun s : Sweep => D s.db) (fun _ => True) (fun _ => True)
        (fun _ => ()) (Loop.run (matchStep pair env action) n) := by
      refine Loop.keeps_run (fun s s' e holds next => ?_) n
      obtain ⟨buy, buys, sell, sells, bid, ask, -, -, found, settled⟩ := matchStep_some next
      have holds' := settles buy sell bid ask buys sells s holds found
      rw [settled] at holds'
      exact ⟨holds', fun _ _ => trivial, fun _ => rfl⟩
    exact ⟨(rounds _ holds).inv, fun _ _ => trivial, fun _ => rfl⟩

/-- The orders of the pair have rows. -/
theorem keeps_db_matchAction {D : Database → Prop} (reads : ReadsRows pair) (env : Env)
    (action : ID)
    (settles : ∀ buyer seller buys sells (s : Sweep), D s.db → buyer ∈ s.db.orders.rows →
      seller ∈ s.db.orders.rows → D (settlePair env action buyer seller buys sells s).1.db) :
    Loop.Keeps (fun m : Market => D m.db) (fun _ => True) (fun _ => True) (fun _ => ())
      (matchAction pair env action) := by
  refine keeps_db_of_pair env action fun buy sell buyer seller buys sells s holds found => ?_
  obtain ⟨row, row'⟩ := reads _ _ _ _ _ found
  exact settles buyer seller buys sells s holds (mem_of_getOrderInfo row)
    (mem_of_getOrderInfo row')

/-- The same for what holds of all rows. -/
theorem keeps_rows_matchAction {R : OrderRow → Prop} (reads : ReadsOrders pair)
    (part : ∀ o o' : OrderRow, R o → o'.clientId = o.clientId → o'.orderStatus ≠ .waiting →
      0 < o'.quantity → R o') (env : Env) (action : ID) :
    Loop.Keeps (fun m : Market => ∀ o ∈ m.db.orders.rows, R o) (fun _ => True) (fun _ => True)
      (fun _ => ()) (matchAction pair env action) := by
  refine keeps_db_of_pair (D := fun d => ∀ o ∈ d.orders.rows, R o) env action
    fun buy sell bid ask buys sells s rows found => ?_
  obtain ⟨buyer, seller, row, row', same, same'⟩ := reads _ _ _ _ _ found
  have known := rows _ (mem_of_getOrderInfo row)
  have known' := rows _ (mem_of_getOrderInfo row')
  exact forall_rows_settlePair env action buys sells rows
    (fun _ pos => part _ _ known same.client (by simp [OrderRow.executed]) pos)
    (fun _ pos => part _ _ known' same'.client (by simp [OrderRow.executed]) pos)
    (fun _ _ pos => part _ _ known same.client (by simp) pos)
    (fun _ _ pos => part _ _ known' same'.client (by simp) pos)

theorem withOrders_withOrders (orders : OrderType → ID → List OrderRow) (action : ID)
    (orders' orders'' : OrderType → List OrderRow) :
    withOrders (withOrders orders action orders') action orders''
      = withOrders orders action orders'' := by
  funext side a
  by_cases here : a = action <;> simp [withOrders, here]

/-- The orders behind the vectors that a loop starts with. -/
theorem Lists.sweep (lists : m.Lists orders others) (action : ID) :
    (m.sweep (m.orderIds .buy action) (m.orderIds .sell action)).Lists action (others · action)
      (orders .buy action) (orders .sell action) :=
  ⟨lists.ids .buy action, lists.ids .sell action, lists.pending .buy action,
    lists.pending .sell action⟩

/-- Those behind the vectors where it ends are written back. -/
theorem Lists.afterSweep (lists : m.Lists orders others) {s : Sweep} {buys sells : List OrderRow}
    (after : s.Lists action (others · action) buys sells)
    (frame : ∀ side a, a ≠ action → s.db.pendingOrders side a = m.db.pendingOrders side a) :
    (Market.afterSweep action m s).Lists (withOrders orders action fun
      | .buy => buys
      | .sell => sells) others := by
  constructor
  · intro side a
    rw [orderIds_afterSweep]
    by_cases here : a = action
    · cases side
      · simpa [withOrders, here] using after.buyIds
      · simpa [withOrders, here] using after.sellIds
    · simpa only [withOrders, here, if_false] using lists.ids side a
  · intro side a
    by_cases here : a = action
    · subst here
      simp only [withOrders, if_pos]
      cases side
      · exact after.pendingBuys
      · exact after.pendingSells
    · simp only [withOrders, here, if_false]
      exact (frame side a here).symm ▸ lists.pending side a

/-- **A matching loop strands no order**, and leaves the books of the other actions alone. -/
theorem keeps_lists_matchAction (reads : ReadsOrders pair) (fresh : env.Fresh) (action : ID)
    (orders others : OrderType → ID → List OrderRow) :
    Loop.Keeps (fun m : Market => ∃ orders', m.Lists (withOrders orders action orders') others)
      (fun e => e.action = action) (fun _ => True) (fun m c => m.db.clientExists c)
      (matchAction pair env action) := by
  rintro m ⟨orders', lists⟩
  rcases matchAction_cases pair env action m with ⟨same, -⟩ | ⟨n, out, rfl, -, same⟩
  · rw [same]
    exact .idle ⟨orders', lists⟩
  · rw [same]
    have kept := keeps_sweeping reads fresh action (others · action) m.db n _
      ⟨⟨_, _, lists.sweep action⟩, fun _ _ _ => rfl⟩
    obtain ⟨⟨buys, sells, after⟩, frame⟩ := kept.inv
    have written := lists.afterSweep after frame
    rw [withOrders_withOrders] at written
    exact ⟨⟨_, written⟩, kept.events, kept.quantity⟩

/-- What `Q` says of the orders behind the two vectors is kept by a round that settles the
first two of them. -/
def RoundKeeps (pair : Database → ID → ID → Option (OrderRow × OrderRow))
    (Q : List OrderRow → List OrderRow → Prop) : Prop :=
  ∀ d buyer buys seller sells id id',
    pair d buyer.orderId seller.orderId = some (buyer, seller) →
    Q (buyer :: buys) (seller :: sells) →
    Q (buyer.leftover id (min buyer.quantity seller.quantity) ++ buys)
      (seller.leftover id' (min buyer.quantity seller.quantity) ++ sells)

theorem keeps_rounds (reads : ReadsRows pair) (fresh : env.Fresh) (action : ID)
    (others : OrderType → List OrderRow) {Q : List OrderRow → List OrderRow → Prop}
    (round : RoundKeeps pair Q) (n : Nat) :
    Loop.Keeps (fun s : Sweep => ∃ buys sells, s.Lists action others buys sells ∧ Q buys sells)
      (fun _ => True) (fun _ => True) (fun _ => ()) (Loop.run (matchStep pair env action) n) := by
  refine Loop.keeps_run (fun s s' e inv next => ?_) n
  obtain ⟨buys, sells, lists, kept⟩ := inv
  obtain ⟨buyer, buys', seller, sells', id, id', rfl, rfl, found, -, after, -⟩ :=
    lists.matchStep reads fresh next
  exact ⟨⟨_, _, after, round _ _ _ _ _ id id' found kept⟩, fun _ _ => trivial, fun _ => rfl⟩

/-- Where a loop has ended, it sees no pair in the first two orders. -/
theorem pair_of_halted {s : Sweep} {others' : OrderType → List OrderRow} {buyer seller : OrderRow}
    {buys sells : List OrderRow} (lists : s.Lists action others' (buyer :: buys) (seller :: sells))
    (halted : matchStep pair env action s = none) :
    pair s.db buyer.orderId seller.orderId = none := by
  unfold matchStep at halted
  rw [lists.buyIds, lists.sellIds] at halted
  simp only [List.map_cons] at halted
  split at halted
  · assumption
  · cases halted

/-- **What every round keeps** of the orders behind the two vectors holds of those behind the
vectors where the loop ends, and there it sees no pair. -/
theorem Lists.matchAction (lists : m.Lists orders others) (reads : ReadsRows pair)
    (fresh : env.Fresh) (action : ID) {Q : List OrderRow → List OrderRow → Prop}
    (start : Q (orders .buy action) (orders .sell action)) (round : RoundKeeps pair Q) :
    ∃ orders', (Market.matchAction pair env action m).1.Lists (withOrders orders action orders')
        others ∧ Q (orders' .buy) (orders' .sell) ∧
      ∀ buyer buys seller sells, orders' .buy = buyer :: buys → orders' .sell = seller :: sells →
        pair (Market.matchAction pair env action m).1.db buyer.orderId seller.orderId = none := by
  rcases matchAction_cases pair env action m with ⟨same, empty⟩ | ⟨n, out, rfl, stops, same⟩
  · rw [same]
    refine ⟨(orders · action), (withOrders_self orders action).symm ▸ lists, start, ?_⟩
    intro buyer buys seller sells some some'
    simp [lists.ids, some, some'] at empty
  · rw [same]
    have begun := lists.sweep action
    have frame := (keeps_sweeping reads.orders fresh action (others · action) m.db n _
      ⟨⟨_, _, begun⟩, fun _ _ _ => rfl⟩).inv.frame
    obtain ⟨buys, sells, after, kept⟩ :=
      (keeps_rounds reads fresh action (others · action) round n _ ⟨_, _, begun, start⟩).inv
    refine ⟨_, lists.afterSweep after frame, kept, ?_⟩
    rintro buyer buys' seller sells' rfl rfl
    exact pair_of_halted after stops

/-- So the calls that match orders strand none. -/
theorem keeps_strands_matchAction (reads : ReadsOrders pair) (fresh : env.Fresh)
    (others : OrderType → ID → List OrderRow) (action : ID) :
    Loop.Keeps (Strands others) (fun _ => True) (fun _ => True) (fun m c => m.db.clientExists c)
      (matchAction pair env action) := by
  rintro m ⟨orders, lists⟩
  have kept := keeps_lists_matchAction reads fresh action orders others m
    ⟨(orders · action), (withOrders_self orders action).symm ▸ lists⟩
  obtain ⟨new, lists'⟩ := kept.inv
  exact ⟨⟨_, lists'⟩, fun _ _ => trivial, kept.quantity⟩

theorem Strands.processContinuousTrading (strands : m.Strands others) (fresh : env.Fresh)
    (action : ID) : (m.processContinuousTrading env action).1.Strands others :=
  (keeps_strands_matchAction readsRows_continuousPair.orders fresh others action m strands).inv

theorem Strands.processFixing (strands : m.Strands others) (fresh : env.Fresh)
    (order : IterationOrder ID (List ID)) : (m.processFixing env order).1.Strands others :=
  (Loop.keeps_chain (keeps_strands_matchAction readsRows_fixingPair.orders fresh others)
    _ m strands).inv

/-- An order is inserted into its vector, and the other vectors stay. -/
theorem orderIds_accumulateOrder {o : OrderRow} (known : m.db.clientExists o.clientId)
    (side : OrderType) (a : ID) :
    (m.accumulateOrder o).orderIds side a
      = if side = o.orderType ∧ a = o.actionId then
          insertOrder (orderPriority side (addPendingOrder o m.db)) o.orderId (m.orderIds side a)
        else m.orderIds side a := by
  unfold Market.accumulateOrder
  rw [if_neg (not_not.mpr known)]
  cases type : o.orderType with
  | buy =>
      cases side with
      | sell => simp [orderIds]
      | buy =>
          by_cases here : a = o.actionId
          · subst here
            simp [orderIds, orderPriority]
          · simp [orderIds, here, Table.lookup_update_ne here]
  | sell =>
      cases side with
      | buy => simp [orderIds]
      | sell =>
          by_cases here : a = o.actionId
          · subst here
            simp [orderIds, orderPriority]
          · simp [orderIds, here, Table.lookup_update_ne here]

theorem db_accumulateOrder {o : OrderRow} (known : m.db.clientExists o.clientId) :
    (m.accumulateOrder o).db = addPendingOrder o m.db := by
  unfold Market.accumulateOrder
  rw [if_neg (not_not.mpr known)]
  cases o.orderType <;> rfl

/-- **An order that is accumulated** under an unused id joins its vector and the PENDING
rows. -/
theorem Lists.accumulateOrder {o : OrderRow} (lists : m.Lists orders others)
    (fresh : o.orderId ∉ m.db.orders.rows.map OrderRow.orderId) :
    (m.accumulateOrder o).Strands others := by
  by_cases known : m.db.clientExists o.clientId
  · set row : OrderRow := { o with orderStatus := .pending } with hrow
    set place := fun side a => lowerBound
      (fun r => orderPriority side (addPendingOrder o m.db) r o.orderId) (m.orderIds side a)
    refine ⟨fun side a => if side = o.orderType ∧ a = o.actionId then
      (orders side a).take (place side a) ++ row :: (orders side a).drop (place side a)
      else orders side a, ?_, ?_⟩
    · intro side a
      rw [orderIds_accumulateOrder known]
      split <;> simp [insertOrder, row, place, lists.ids]
    · intro side a
      rw [db_accumulateOrder known, pendingOrders_addPendingOrder fresh]
      by_cases here : side = o.orderType ∧ a = o.actionId
      · have rests : row.Rests side a := ⟨rfl, here.1.symm, here.2.symm⟩
        have joins : [row].filter (fun o => o.Rests side a) = [row] :=
          List.filter_eq_self.mpr fun o' mem => by
            rw [List.mem_singleton.mp mem]
            exact decide_eq_true rests
        rw [if_pos here, joins, List.append_assoc, List.cons_append]
        have first := (List.perm_append_singleton row _).trans ((lists.pending side a).cons row)
        refine first.trans (List.Perm.trans ?_ List.perm_middle.symm)
        rw [← List.append_assoc, List.take_append_drop]
      · have elsewhere : ¬row.Rests side a := fun rests => here ⟨rests.2.1.symm, rests.2.2.symm⟩
        have stays : [row].filter (fun o => o.Rests side a) = [] :=
          List.filter_eq_nil_iff.mpr fun o' mem rests => elsewhere <| by
            rw [← List.mem_singleton.mp mem]
            exact of_decide_eq_true rests
        rw [if_neg here, stays, List.append_nil]
        exact lists.pending side a
  · refine ⟨orders, ?_⟩
    rw [Market.accumulateOrder, if_pos known]
    exact lists

end Market

end StockMarket.Sql
