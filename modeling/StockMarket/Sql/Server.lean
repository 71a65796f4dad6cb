import Mathlib.Logic.Relation
import StockMarket.Sql.Settlement

/-!
The server around the market (`Src_SQL/server.cpp`).

`admitOrder` is the part of `handle_client` that reads an order line and decides
whether to take it. `Step` is what the threads of the server do to what they share:
clients' threads deposit, withdraw and place orders, the watcher expires and
releases waiting orders, the session fixes prices and opens and closes continuous
trading, and a new `play` starts on the database of the last one with empty books.
A thread that has checked a request carries it out later, so what it still has to do
is a `Task`, and other threads may come between; matching under the mutex is one
step. Texts of orders are read into an `OrderLine`; dates in them are the encoded
numbers.

`Server.Sound` holds in every reachable state (`Server.Reachable.sound`).
-/

namespace StockMarket.Sql

open Client Database

/-! ### The initial database -/

namespace Database

/-- `Market::add_action`. -/
def addAction (action : ID) (quantity : Int) (price : ℚ) (daily date : ID) (d : Database) :
    Database :=
  { d with
    actions :=
      if d.actionExists action then
        d.actions.update (fun a => a.actionId = action)
          (fun a => { a with quantity := a.quantity + quantity }) fun _ => rfl
      else d.actions.insert ⟨action, quantity⟩
    prices := d.prices ++ [⟨action, price, date, daily⟩] }

/-- `Market::add_client`, which binds 32 bits of the id of the client and prints all of
it into the rows of the portfolio. -/
def addClient (client : ID) (balance : ℚ) (portfolio : List (ID × Int)) (d : Database) :
    Database :=
  { d with
    clients := d.clients.insert ⟨columnInt client, balance⟩
    clientPortfolio := portfolio.foldl
      (fun t share => t.insert ⟨client, share.1, share.2⟩) d.clientPortfolio }

/-- What `reset` and any number of actions and clients of `init` leave: no orders, and
portfolios of clients there are, in valid actions. -/
structure Initial (d : Database) : Prop where
  orders : d.orders.rows = []
  holding_nonneg : ∀ r ∈ d.clientPortfolio.rows, 0 ≤ r.quantity
  holding_action : ∀ r ∈ d.clientPortfolio.rows, ValidAction r.actionId
  holding_owner : ∀ r ∈ d.clientPortfolio.rows, (d.clients.find r.clientId).isSome

variable {d : Database}

theorem Initial.sound (initial : d.Initial) : d.Sound :=
  ⟨initial.holding_nonneg, initial.holding_action, initial.holding_owner, by
    rw [initial.orders]
    exact fun _ mem => absurd mem List.not_mem_nil⟩

theorem initial_empty : Database.empty.Initial :=
  ⟨rfl, fun _ mem => absurd mem List.not_mem_nil, fun _ mem => absurd mem List.not_mem_nil,
    fun _ mem => absurd mem List.not_mem_nil⟩

theorem initial_addAction (initial : d.Initial) (action : ID) (quantity : Int) (price : ℚ)
    (daily date : ID) : (d.addAction action quantity price daily date).Initial :=
  ⟨initial.orders, initial.holding_nonneg, initial.holding_action, initial.holding_owner⟩

theorem initial_addClient (initial : d.Initial) {client : ID} (id : columnInt client = client)
    (balance : ℚ) {portfolio : List (ID × Int)}
    (valid : ∀ share ∈ portfolio, ValidAction share.1 ∧ 0 ≤ share.2) :
    (d.addClient client balance portfolio).Initial := by
  have rows : ∀ {P : PortfolioRow → Prop}, (∀ r ∈ d.clientPortfolio.rows, P r) →
      (∀ share ∈ portfolio, P ⟨client, share.1, share.2⟩) →
      ∀ r ∈ (d.addClient client balance portfolio).clientPortfolio.rows, P r := by
    intro P old new
    simp only [addClient]
    generalize d.clientPortfolio = t at old
    clear valid
    induction portfolio generalizing t with
    | nil => exact old
    | cons share shares ih =>
        have ⟨first, later⟩ := List.forall_mem_cons.mp new
        exact ih later _ (Relation.forall_insert old first)
  have owned : ∀ c, (d.clients.find c).isSome ∨ c = client →
      ((d.addClient client balance portfolio).clients.find c).isSome := by
    rintro c (old | rfl)
    · exact Relation.isSome_find_insert old
    · simp [addClient, Relation.find_insert, id]
  constructor
  · exact initial.orders
  · exact rows initial.holding_nonneg fun share mem => (valid share mem).2
  · exact rows initial.holding_action fun share mem => (valid share mem).1
  · exact rows (fun r mem => owned _ (.inl (initial.holding_owner r mem)))
      fun share _ => owned _ (.inr rfl)

/-- The two clients and two actions of `init` without arguments. -/
def demo (daily date : ID) : Database :=
  ((Database.empty.addAction 1 20 10 daily date).addAction 2 10 20 daily date
    |>.addClient 1 1000 []).addClient 2 100 [(1, 20), (2, 10)]

theorem initial_demo (daily date : ID) : (demo daily date).Initial := by
  refine initial_addClient (initial_addClient ?_ (by decide) _ ?_) (by decide) _ ?_
  · exact initial_addAction (initial_addAction initial_empty _ _ _ _ _) _ _ _ _ _
  · exact fun _ mem => absurd mem List.not_mem_nil
  · unfold ValidAction
    decide

/-- Where `get_new_order_id` stops drawing. -/
def orderIdIsFree (order : ID) (d : Database) : Bool :=
  executeSqlQueryId ((d.orders.select fun o => o.orderId = order).map OrderRow.orderId) = -1

end Database

/-! ### Taking an order -/

/-- An order line of a client. The validity is `max_number` and `0` if none is given. -/
structure OrderLine where
  clientId : ID
  typeStr : String
  quantity : Int
  actionId : ID
  triggerTypeStr : String
  price : ℚ
  triggerPriceLower : ℚ
  triggerPriceUpper : ℚ
  validityDate : ID := maxNumber
  validityDaily : ID := 0

/-- The two checks made of every price a client gives. -/
def givenPrice (what order : String) (price : ℚ) : Except String ℚ :=
  if price = 0 then .error ("Error: " ++ what ++ " must be provided for a " ++ order ++ " order")
  else if price < 0 then
    .error ("Error: " ++ what ++ " must be positive for a " ++ order ++ " order")
  else .ok price

/-- The side of an order line. -/
def readType (line : OrderLine) : Except String OrderType :=
  if line.typeStr = "SELL" then .ok .sell
  else if line.typeStr ≠ "BUY" then
    .error "Error: Order type not recognized (use BUY or SELL)"
  else .ok .buy

/-- The trigger, the price and the two trigger prices of an order line. -/
def readTrigger (line : OrderLine) (type : OrderType) :
    Except String (OrderTrigger × ℚ × ℚ × ℚ) := do
  if line.triggerTypeStr = "MARKET" then
    .ok (.market, if type = .buy then maxNumber else 0, 0, maxNumber)
  else if line.triggerTypeStr = "LIMIT" then
    let price ← givenPrice "Price" "limit" line.price
    let lower ← givenPrice "Trigger price lower" "limit" line.triggerPriceLower
    .ok (.limit, price, lower, maxNumber)
  else if line.triggerTypeStr = "STOP" then
    let price ← givenPrice "Price" "stop" line.price
    let upper ← givenPrice "Trigger price upper" "stop" line.triggerPriceUpper
    .ok (.stop, price, 0, upper)
  else if line.triggerTypeStr = "LIMIT_STOP" then
    let price ← givenPrice "Price" "limit-stop" line.price
    let lower ← givenPrice "Trigger price lower" "limit stop" line.triggerPriceLower
    let upper ← givenPrice "Trigger price upper" "limit stop" line.triggerPriceUpper
    .ok (.limitStop, price, lower, upper)
  else .error "Error: Trigger type not recognized (use MARKET, LIMIT, STOP or LIMIT_STOP)"

/-- What `handle_client` decides on an order line: the row of the order, with an id and
a time, or the response that refuses it. -/
def admitOrder (env : Env) (line : OrderLine) (order date daily : ID) (d : Database) :
    Except String OrderRow := do
  let type ← readType line
  let (trigger, price, lower, upper) ← readTrigger line type
  if ¬ d.actionExists line.actionId then
    .error ("Error: Action " ++ toString line.actionId ++ " does not exist")
  else if type = .buy ∧ ¬ canAfford env line.clientId line.actionId line.quantity price d then
    .error "Error: Insufficient balance for buying"
  else if type = .sell ∧ ¬ hasShares line.clientId line.actionId line.quantity d then
    .error "Error: Failed to sell action, client does not have enough shares"
  else
    .ok
      { orderId := order
        orderStatus := if trigger = .market then .pending else .waiting
        orderTimeDate := date
        orderTimeDaily := daily
        clientId := line.clientId
        orderType := type
        quantity := line.quantity
        actionId := line.actionId
        triggerType := trigger
        price := price
        triggerPriceLower := lower
        triggerPriceUpper := upper
        expirationTimeDate := line.validityDate
        expirationTimeDaily := line.validityDaily }

/-! ### The threads -/

/-- What a thread has checked and still has to do: put an order into the book, record
one that waits, pay out. -/
inductive Task where
  | enter (o : OrderRow)
  | wait (o : OrderRow)
  | withdraw (client : ID) (amount : ℚ)

structure Server where
  market : Market
  isContinuousTradingPeriod : Bool := false
  tasks : List Task := []

namespace Server

/-- The database is another one. -/
def withDb (s : Server) (d : Database) : Server :=
  { s with market := { s.market with db := d } }

def addTask (s : Server) (t : Task) : Server :=
  { s with tasks := s.tasks ++ [t] }

/-- Do a task. An order that enters the book is matched at once in the continuous
trading period. -/
def perform (env : Env) (s : Server) : Task → Server
  | .enter o =>
    let m := s.market.accumulateOrder o
    { s with
      market := if s.isContinuousTradingPeriod then
        (m.processContinuousTrading env o.actionId).1 else m }
  | .wait o => s.withDb (addWaitingOrder o s.market.db)
  | .withdraw client amount => s.withDb (Client.withdraw client amount s.market.db)

/-- What `handle_client` does with an order it takes. -/
def orderTask (o : OrderRow) : Task :=
  if o.triggerType = .market then .enter o else .wait o

/-- The watcher's expiration check at a date and time of day. -/
def isExpired (nowDate nowDaily : ID) (o : OrderRow) : Bool :=
  o.expirationTimeDate ≠ maxNumber ∧
    (o.expirationTimeDate < nowDate ∨
      o.expirationTimeDate = nowDate ∧ o.expirationTimeDaily ≤ nowDaily)

/-- The watcher's trigger check. -/
def isTriggered (env : Env) (d : Database) (o : OrderRow) : Bool :=
  let currentPrice := d.getActionCurrentPrice env o.actionId
  ¬ currentPrice ≤ 0 ∧ o.triggerPriceLower ≤ currentPrice ∧ currentPrice ≤ o.triggerPriceUpper

/-- One step of one thread. -/
inductive Step (env : Env) (order : IterationOrder ID (List ID)) : Server → Server → Prop where
  | deposit {s : Server} (client : ID) (amount : ℚ) (known : s.market.db.clientExists client) :
      Step env order s (s.withDb (Client.deposit client amount s.market.db))
  | askWithdrawal {s : Server} (client : ID) (amount : ℚ)
      (known : s.market.db.clientExists client)
      (covered : canAfford env client (-1) 1 amount s.market.db) :
      Step env order s (s.addTask (.withdraw client amount))
  | placeOrder {s : Server} (line : OrderLine) (id date daily : ID) {o : OrderRow}
      (free : s.market.db.orderIdIsFree id)
      (taken : admitOrder env line id date daily s.market.db = .ok o) :
      Step env order s (s.addTask (orderTask o))
  | perform {s : Server} {t : Task} {front back : List Task} (next : s.tasks = front ++ t :: back) :
      Step env order s ({ s with tasks := front ++ back }.perform env t)
  | expire {s : Server} {o : OrderRow} (nowDate nowDaily : ID)
      (waits : o ∈ s.market.db.getWaitingOrders) (expired : isExpired nowDate nowDaily o) :
      Step env order s (s.withDb (removeWaitingOrder o.clientId o.orderId s.market.db))
  | release {s : Server} {o : OrderRow} (nowDate nowDaily : ID)
      (waits : o ∈ s.market.db.getWaitingOrders) (lasts : ¬ isExpired nowDate nowDaily o)
      (triggered : isTriggered env s.market.db o) :
      Step env order s
        ((s.withDb (removeWaitingOrder o.clientId o.orderId s.market.db)).addTask (.enter o))
  | fixing {s : Server} :
      Step env order s { s with market := (s.market.processFixing env order).1 }
  | period {s : Server} (running : Bool) :
      Step env order s { s with isContinuousTradingPeriod := running }
  | play {s : Server} : Step env order s { market := { db := s.market.db } }

/-- What the server can reach from an initial database. -/
def Reachable (env : Env) (order : IterationOrder ID (List ID)) (s : Server) : Prop :=
  ∃ d : Database, d.Initial ∧ Relation.ReflTransGen (Step env order) { market := { db := d } } s

end Server

/-! ### What holds in every reachable state -/

/-- A sale that is still to be recorded is of a valid action. -/
def Task.Valid : Task → Prop
  | .enter o => o.orderType = .sell → ValidAction o.actionId
  | .wait o => o.orderType = .sell → ValidAction o.actionId
  | .withdraw _ _ => True

structure Server.Sound (s : Server) : Prop where
  market : s.market.Sound
  tasks : ∀ t ∈ s.tasks, t.Valid

section

variable {env : Env} {order : IterationOrder ID (List ID)}

theorem ok_of_bind {ε α β : Type} {x : Except ε α} {f : α → Except ε β} {b : β}
    (result : x.bind f = .ok b) : ∃ a, x = .ok a ∧ f a = .ok b := by
  cases x with
  | error e => exact absurd result (by simp [Except.bind])
  | ok a => exact ⟨a, rfl, result⟩

/-- What is read of an order that is taken, and what it has passed. -/
theorem admitOrder_cases {line : OrderLine} {id date daily : ID} {d : Database} {o : OrderRow}
    (taken : admitOrder env line id date daily d = .ok o) :
    ∃ type trigger price lower upper, readType line = .ok type ∧
      readTrigger line type = .ok (trigger, price, lower, upper) ∧
      d.actionExists line.actionId ∧
      (type = .buy → canAfford env line.clientId line.actionId line.quantity price d) ∧
      (type = .sell → hasShares line.clientId line.actionId line.quantity d) ∧
      o =
        { orderId := id
          orderStatus := if trigger = .market then .pending else .waiting
          orderTimeDate := date
          orderTimeDaily := daily
          clientId := line.clientId
          orderType := type
          quantity := line.quantity
          actionId := line.actionId
          triggerType := trigger
          price := price
          triggerPriceLower := lower
          triggerPriceUpper := upper
          expirationTimeDate := line.validityDate
          expirationTimeDaily := line.validityDaily } := by
  obtain ⟨type, side, taken⟩ := ok_of_bind taken
  obtain ⟨⟨trigger, price, lower, upper⟩, terms, taken⟩ := ok_of_bind taken
  refine ⟨type, trigger, price, lower, upper, side, terms, ?_⟩
  simp only at taken
  split at taken
  · cases taken
  · rename_i known
    split at taken
    · cases taken
    · rename_i covered
      split at taken
      · cases taken
      · rename_i held
        refine ⟨not_not.mp known, fun buys => ?_, fun sells => ?_, (Except.ok.inj taken).symm⟩
        · by_contra refused
          exact covered ⟨buys, refused⟩
        · by_contra refused
          exact held ⟨sells, refused⟩

/-- An order that is taken has passed the check of its side. -/
theorem admitOrder_ok {line : OrderLine} {id date daily : ID} {d : Database} {o : OrderRow}
    (taken : admitOrder env line id date daily d = .ok o) :
    o.orderId = id ∧ o.clientId = line.clientId ∧ o.actionId = line.actionId ∧
      o.quantity = line.quantity ∧ d.actionExists line.actionId ∧
      (o.orderType = .buy → canAfford env o.clientId o.actionId o.quantity o.price d) ∧
      (o.orderType = .sell → hasShares o.clientId o.actionId o.quantity d) := by
  obtain ⟨type, trigger, price, lower, upper, -, -, known, covered, held, rfl⟩ :=
    admitOrder_cases taken
  exact ⟨rfl, rfl, rfl, rfl, known, covered, held⟩

theorem pos_of_givenPrice {what order : String} {given price : ℚ}
    (ok : givenPrice what order given = .ok price) : 0 < price := by
  unfold givenPrice at ok
  split at ok
  · cases ok
  · rename_i nonzero
    split at ok
    · cases ok
    · rename_i nonneg
      obtain rfl := Except.ok.inj ok
      exact lt_of_le_of_ne (not_lt.mp nonneg) (Ne.symm nonzero)

/-- A MARKET order gets a price of its side, and every other order names a positive one. -/
theorem price_of_readTrigger {line : OrderLine} {type : OrderType} {trigger : OrderTrigger}
    {price lower upper : ℚ} (ok : readTrigger line type = .ok (trigger, price, lower, upper)) :
    trigger = .market ∧ price = (if type = .buy then (maxNumber : ℚ) else 0) ∨
      trigger ≠ .market ∧ 0 < price := by
  unfold readTrigger at ok
  split at ok
  · cases ok
    exact .inl ⟨rfl, by split <;> simp [maxNumber]⟩
  · refine .inr ?_
    split at ok
    · obtain ⟨p, given, ok⟩ := ok_of_bind ok
      obtain ⟨l, -, ok⟩ := ok_of_bind ok
      cases ok
      exact ⟨nofun, pos_of_givenPrice given⟩
    · split at ok
      · obtain ⟨p, given, ok⟩ := ok_of_bind ok
        obtain ⟨u, -, ok⟩ := ok_of_bind ok
        cases ok
        exact ⟨nofun, pos_of_givenPrice given⟩
      · split at ok
        · obtain ⟨p, given, ok⟩ := ok_of_bind ok
          obtain ⟨l, -, ok⟩ := ok_of_bind ok
          obtain ⟨u, -, ok⟩ := ok_of_bind ok
          cases ok
          exact ⟨nofun, pos_of_givenPrice given⟩
        · cases ok

/-- The price of a purchase is positive, and `max_number` at the market. -/
theorem pos_of_readTrigger {line : OrderLine} {trigger : OrderTrigger} {price lower upper : ℚ}
    (ok : readTrigger line .buy = .ok (trigger, price, lower, upper)) : 0 < price := by
  rcases price_of_readTrigger ok with ⟨-, rfl⟩ | ⟨-, pos⟩
  · decide +kernel
  · exact pos

theorem pos_of_admitOrder {line : OrderLine} {id date daily : ID} {d : Database} {o : OrderRow}
    (taken : admitOrder env line id date daily d = .ok o) (buys : o.orderType = .buy) :
    0 < o.price := by
  obtain ⟨type, trigger, price, lower, upper, -, terms, -, -, -, rfl⟩ := admitOrder_cases taken
  obtain rfl : type = .buy := buys
  exact pos_of_readTrigger terms

theorem sound_accumulateOrder {m : Market} (sound : m.Sound) {o : OrderRow}
    (valid : o.orderType = .sell → ValidAction o.actionId) : (m.accumulateOrder o).Sound := by
  unfold Market.accumulateOrder
  split
  · exact sound
  · have db := sound_addOrder sound.db .pending valid
    cases side : o.orderType with
    | buy => exact ⟨db, sound.sales⟩
    | sell =>
        refine ⟨db, fun action sells found ne => ?_⟩
        by_cases eq : action = o.actionId
        · rw [eq]
          exact valid side
        · exact sound.sales action sells ((Table.lookup_update_ne eq _ _ _).symm.trans found) ne

namespace Server

variable {s s' : Server}

theorem Sound.withDb (sound : s.Sound) {d : Database} (db : d.Sound) : (s.withDb d).Sound :=
  ⟨⟨db, sound.market.sales⟩, sound.tasks⟩

theorem Sound.addTask (sound : s.Sound) {t : Task} (valid : t.Valid) : (s.addTask t).Sound :=
  ⟨sound.market, List.forall_mem_append.mpr ⟨sound.tasks, by simpa using valid⟩⟩

/-- Every task leaves the server sound. -/
theorem Sound.perform (sound : s.Sound) {t : Task} (valid : t.Valid) :
    (s.perform env t).Sound := by
  cases t with
  | enter o =>
      have entered := sound_accumulateOrder sound.market valid
      refine ⟨?_, sound.tasks⟩
      simp only [Server.perform]
      split
      · exact (keeps_processContinuousTrading env o.actionId _ entered).inv
      · exact entered
  | wait o => exact sound.withDb (sound_addOrder sound.market.db .waiting valid)
  | withdraw client amount => exact sound.withDb (sound_withdraw sound.market.db)

/-- Every step leaves the server sound. -/
theorem Sound.step (sound : s.Sound) (step : Step env order s s') : s'.Sound := by
  have db := sound.market.db
  cases step with
  | deposit client amount known => exact sound.withDb (sound_deposit db)
  | askWithdrawal client amount known covered => exact sound.addTask trivial
  | placeOrder line id date daily free taken =>
      rename_i o
      obtain ⟨-, -, -, -, -, -, held⟩ := admitOrder_ok taken
      have valid : o.orderType = .sell → ValidAction o.actionId := fun sells =>
        (db.of_held (of_hasShares db (held sells)).2.1).1
      refine sound.addTask ?_
      unfold orderTask
      split <;> exact valid
  | @perform t front back next =>
      have tasks := sound.tasks
      rw [next, List.forall_mem_append, List.forall_mem_cons] at tasks
      obtain ⟨before, valid, behind⟩ := tasks
      have rest : ({ s with tasks := front ++ back } : Server).Sound :=
        ⟨sound.market, List.forall_mem_append.mpr ⟨before, behind⟩⟩
      exact rest.perform valid
  | expire nowDate nowDaily waits expired => exact sound.withDb (sound_removeOrder db _ _ _)
  | release nowDate nowDaily waits lasts triggered =>
      have valid := db.sale_action _ (List.mem_filter.mp waits).1
      exact (sound.withDb (sound_removeOrder db _ _ _)).addTask valid
  | fixing => exact ⟨(keeps_processFixing env order _ sound.market).inv, sound.tasks⟩
  | period running => exact ⟨sound.market, sound.tasks⟩
  | play =>
      exact ⟨⟨db, fun _ _ found => absurd found (by simp)⟩, fun _ mem =>
        absurd mem List.not_mem_nil⟩

/-- **Every reachable state is sound.** -/
theorem Reachable.sound (reachable : Reachable env order s) : s.Sound := by
  obtain ⟨d, initial, run⟩ := reachable
  induction run with
  | refl =>
      exact ⟨⟨initial.sound, fun _ _ found => absurd found (by simp)⟩,
        fun _ mem => absurd mem List.not_mem_nil⟩
  | tail _ step sound => exact sound.step step

end Server

end

end StockMarket.Sql
