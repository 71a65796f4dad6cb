import Mathlib.Algebra.Order.Ring.Rat
import Mathlib.Tactic.Linarith
import StockMarket.Lib.Relation

/-!
The database of the SQL server (`Src_SQL/database_management.cpp`) and the methods
of `Client` (`Src_SQL/client.cpp`) and of `Market` that only work on it.

A `Database` has the tables of `create_tables` with their primary keys. Columns and
tables that no statement here reads (names, passwords, messages, encryption keys)
are left out, and a text column over a fixed set of words is an enumeration.
Every statement is executed as it is written, and every read goes through one of
the `execute_SQL_query_*` functions, with its default for an empty result and, for
integers, its 32-bit column read. Amounts are rationals here, added and multiplied
without rounding, and prices are compared as they are stored. `Spending` and
`Valuation` compute with doubles, and `Texts` with prices that are read back from
the 15 digits SQLite prints.
-/

namespace StockMarket.Sql

abbrev ID := Int

/-- `max_number`, which is `UINT16_MAX`. -/
def maxNumber : Int := 65535

/-- `safety_percentage`. -/
def safetyPercentage : ℚ := 11 / 10

inductive OrderType where
  | buy
  | sell
  deriving DecidableEq, Repr

inductive OrderTrigger where
  | market
  | limit
  | stop
  | limitStop
  | noTrigger
  deriving DecidableEq, Repr

/-- The column `order_status`. -/
inductive OrderStatus where
  | pending
  | completed
  | waiting
  deriving DecidableEq, Repr

structure ActionRow where
  actionId : ID
  quantity : Int
  deriving DecidableEq, Repr

structure PriceRow where
  actionId : ID
  price : ℚ
  dateTime : ID
  dailyTime : ID
  deriving DecidableEq, Repr

structure ClientRow where
  clientId : ID
  balance : ℚ
  deriving DecidableEq, Repr

structure OrderRow where
  orderId : ID
  orderStatus : OrderStatus
  orderTimeDate : ID
  orderTimeDaily : ID
  clientId : ID
  orderType : OrderType
  quantity : Int
  actionId : ID
  triggerType : OrderTrigger
  price : ℚ
  triggerPriceLower : ℚ
  triggerPriceUpper : ℚ
  expirationTimeDate : ID
  expirationTimeDaily : ID
  deriving DecidableEq, Repr

structure PortfolioRow where
  clientId : ID
  actionId : ID
  quantity : Int
  deriving DecidableEq, Repr

/-- The primary key of `client_portfolio`. -/
def PortfolioRow.key (r : PortfolioRow) : ID × ID := (r.clientId, r.actionId)

structure Database where
  actions : Relation ActionRow.actionId
  prices : List PriceRow
  clients : Relation ClientRow.clientId
  orders : Relation OrderRow.orderId
  clientPortfolio : Relation PortfolioRow.key

/-- What `reset_database` leaves. -/
def Database.empty : Database where
  actions := .empty
  prices := []
  clients := .empty
  orders := .empty
  clientPortfolio := .empty

/-! ### Reading a result -/

/-- `sqlite3_column_int`: the low 32 bits of an integer column. -/
def columnInt (n : Int) : Int := n.bmod (2 ^ 32)

/-- `execute_SQL_query_int`. -/
def executeSqlQueryInt (column : List Int) : Int := (column.head?.map columnInt).getD (-1)

/-- `execute_SQL_query_ID`, which reads 32 bits as well. -/
def executeSqlQueryId (column : List ID) : ID := (column.head?.map columnInt).getD (-1)

/-- `execute_SQL_query_double`. -/
def executeSqlQueryDouble (column : List ℚ) : ℚ := column.head?.getD (-1)

theorem columnInt_of_bounds {n : Int} (lower : -2 ^ 31 ≤ n) (upper : n < 2 ^ 31) :
    columnInt n = n :=
  Int.bmod_eq_of_le (by omega) (by omega)

/-- The column read never makes a natural number larger. -/
theorem columnInt_le {n : Int} (nonneg : 0 ≤ n) : columnInt n ≤ n := by
  by_cases small : n < 2 ^ 31
  · exact (columnInt_of_bounds (by omega) small).le
  · have : columnInt n < 2 ^ 31 := Int.bmod_lt (by decide)
    omega

/-! ### What the program reads from outside -/

/-- The sort keys of `r` come before those of `r'`. -/
def PriceRow.Earlier (r r' : PriceRow) : Prop :=
  r.dateTime < r'.dateTime ∨ r.dateTime = r'.dateTime ∧ r.dailyTime < r'.dailyTime

instance : DecidableRel PriceRow.Earlier := fun r r' => by
  unfold PriceRow.Earlier
  infer_instance

/-- `ORDER BY date_time DESC, daily_time DESC LIMIT 1`: some row that no row is later
than. SQLite may return rows with equal sort keys in any order. -/
structure LatestRow where
  pick : List PriceRow → Option PriceRow
  pick_mem : ∀ {rows r}, pick rows = some r → r ∈ rows
  pick_last : ∀ {rows r}, pick rows = some r → ∀ r' ∈ rows, ¬ r.Earlier r'
  pick_none : ∀ {rows}, pick rows = none → rows = []

/-- The first of the latest rows. -/
def firstLatest : List PriceRow → Option PriceRow
  | [] => none
  | r :: rows =>
    match firstLatest rows with
    | none => some r
    | some r' => if r.Earlier r' then some r' else some r

theorem firstLatest_none : ∀ {rows : List PriceRow}, firstLatest rows = none → rows = []
  | [], _ => rfl
  | r :: rows, missing => by
      simp only [firstLatest] at missing
      split at missing
      · exact absurd missing (by simp)
      · split at missing <;> exact absurd missing (by simp)

theorem firstLatest_spec : ∀ {rows : List PriceRow} {r : PriceRow}, firstLatest rows = some r →
    r ∈ rows ∧ ∀ r' ∈ rows, ¬ r.Earlier r'
  | r :: rows, latest, found => by
      have irrefl : ¬ r.Earlier r := by simp [PriceRow.Earlier]
      cases rest : firstLatest rows with
      | none =>
          have nil : rows = [] := firstLatest_none rest
          simp only [firstLatest, rest, Option.some.injEq] at found
          subst found nil
          simpa using irrefl
      | some r' =>
          have ⟨mem, last⟩ := firstLatest_spec rest
          simp only [firstLatest, rest] at found
          split at found
          · rename_i later
            obtain rfl := Option.some.inj found
            refine ⟨List.mem_cons_of_mem _ mem, List.forall_mem_cons.mpr ⟨?_, last⟩⟩
            grind [PriceRow.Earlier]
          · rename_i notLater
            obtain rfl := Option.some.inj found
            refine ⟨List.mem_cons_self, List.forall_mem_cons.mpr ⟨irrefl, fun r'' mem'' => ?_⟩⟩
            have last'' := last r'' mem''
            grind [PriceRow.Earlier]

/-- Of rows with equal sort keys, the first. -/
def LatestRow.first : LatestRow where
  pick := firstLatest
  pick_mem found := (firstLatest_spec found).1
  pick_last found := (firstLatest_spec found).2
  pick_none := firstLatest_none

/-- The clock, the random order ids and the rows SQLite picks. `now n` is the time of
the `n`-th transaction, `newOrderId n` is what `get_new_order_id` returns at the
`n`-th draw when the order ids in its argument are in use. -/
structure Env where
  latest : LatestRow
  now : Nat → ID × ID
  newOrderId : Nat → List ID → ID

/-! ### Queries -/

namespace Database

/-- The rows of `SELECT price FROM prices WHERE action_id = …` with the latest first
and `LIMIT 1`. -/
def latestPrice (env : Env) (action : ID) (d : Database) : List ℚ :=
  ((env.latest.pick (d.prices.filter fun p => p.actionId = action)).map PriceRow.price).toList

/-- `Market::get_action_current_price`. -/
def getActionCurrentPrice (env : Env) (action : ID) (d : Database) : ℚ :=
  executeSqlQueryDouble (d.latestPrice env action)

/-- `Market::client_exists`. -/
def clientExists (client : ID) (d : Database) : Bool :=
  executeSqlQueryId ((d.clients.select fun c => c.clientId = client).map ClientRow.clientId)
    = client

/-- `Market::action_exists`. -/
def actionExists (action : ID) (d : Database) : Bool :=
  executeSqlQueryId ((d.actions.select fun a => a.actionId = action).map ActionRow.actionId)
    = action

/-- `Order::get_price`. -/
def getPrice (order : ID) (d : Database) : ℚ :=
  executeSqlQueryDouble ((d.orders.select fun o => o.orderId = order).map OrderRow.price)

/-- `Order::get_date_order_time`. -/
def getDateOrderTime (order : ID) (d : Database) : ID :=
  executeSqlQueryId ((d.orders.select fun o => o.orderId = order).map OrderRow.orderTimeDate)

/-- `Order::get_daily_order_time`. -/
def getDailyOrderTime (order : ID) (d : Database) : ID :=
  executeSqlQueryId ((d.orders.select fun o => o.orderId = order).map OrderRow.orderTimeDaily)

/-- `Order::get_order_info`. Of the row it prints, the callers read every column but
the status, the type and the action. -/
def getOrderInfo (order : ID) (d : Database) : Option OrderRow :=
  (d.orders.select fun o => o.orderId = order).head?

/-- `Market::get_waiting_orders`. -/
def getWaitingOrders (d : Database) : List OrderRow :=
  d.orders.select fun o => o.orderStatus = .waiting

/-- What one open order counts for in `can_afford`. -/
def openAmount (env : Env) (d : Database) (o : OrderRow) : ℚ :=
  o.quantity *
    if o.triggerType = .market then (d.latestPrice env o.actionId).head?.getD 0 * safetyPercentage
    else o.price

/-- The sum in `can_afford`: the open orders of a client, on both sides of the book. -/
def reserved (env : Env) (client : ID) (d : Database) : ℚ :=
  ((d.orders.select fun o =>
      o.clientId = client ∧ (o.orderStatus = .pending ∨ o.orderStatus = .waiting)).map
    (d.openAmount env)).sum

/-- The balance less what the open orders reserve. -/
def availableBalance (env : Env) (client : ID) (d : Database) : ℚ :=
  executeSqlQueryDouble
    ((d.clients.select fun c => c.clientId = client).map fun c =>
      c.balance - d.reserved env c.clientId)

end Database

/-! ### Clients -/

namespace Client

variable (env : Env) (client action : ID) (quantity : Int) (price amount : ℚ) (daily date : ID)

def isActionInPortfolio (d : Database) : Bool :=
  executeSqlQueryId
    ((d.clientPortfolio.select fun r => r.key = (client, action)).map PortfolioRow.actionId)
    = action

def deposit (d : Database) : Database :=
  if 0 < amount then
    { d with
      clients := d.clients.update (fun c => c.clientId = client)
        (fun c => { c with balance := c.balance + amount }) fun _ => rfl }
  else d

def withdraw (d : Database) : Database :=
  { d with
    clients := d.clients.update (fun c => c.clientId = client)
      (fun c => { c with balance := c.balance - amount }) fun _ => rfl }

/-- What `can_afford` takes a purchase to cost, if it can tell. The price `max_number`
stands for the current one and a margin, except for the action `-1`. -/
def cost (d : Database) : Option ℚ :=
  if price = maxNumber ∧ action ≠ -1 then
    let currentPrice := d.getActionCurrentPrice env action
    if currentPrice ≤ 0 then none else some (quantity * currentPrice * safetyPercentage)
  else some (quantity * price)

def canAfford (d : Database) : Bool :=
  match cost env action quantity price d with
  | none => false
  | some amount => 0 ≤ amount ∧ amount ≤ d.availableBalance env client

/-- `add_completed_order`, `add_pending_order` and `add_waiting_order`. -/
def addOrder (status : OrderStatus) (o : OrderRow) (d : Database) : Database :=
  { d with orders := d.orders.insert { o with orderStatus := status } }

def addCompletedOrder : OrderRow → Database → Database := addOrder .completed

def addPendingOrder : OrderRow → Database → Database := addOrder .pending

def addWaitingOrder : OrderRow → Database → Database := addOrder .waiting

/-- `remove_pending_order` and `remove_waiting_order`. -/
def removeOrder (status : OrderStatus) (order : ID) (d : Database) : Database :=
  { d with
    orders := d.orders.delete fun o =>
      o.orderId = order ∧ o.orderStatus = status ∧ o.clientId = client }

def removePendingOrder : ID → Database → Database := removeOrder client .pending

def removeWaitingOrder : ID → Database → Database := removeOrder client .waiting

/-- The end of `add_action` and `remove_action`: note a price that is not there yet. -/
def notePrice (row : PriceRow) (d : Database) : Database :=
  if row ∈ d.prices then d else { d with prices := d.prices ++ [row] }

/-- `Client::add_action`, the change of the portfolio. -/
def addShares (d : Database) : Database :=
  if isActionInPortfolio client action d then
    { d with
      clientPortfolio := d.clientPortfolio.update (fun r => r.key = (client, action))
        (fun r => { r with quantity := r.quantity + quantity }) fun _ => rfl }
  else { d with clientPortfolio := d.clientPortfolio.insert ⟨client, action, quantity⟩ }

def addAction (d : Database) : Database :=
  notePrice ⟨action, price, date, daily⟩ (addShares client action quantity d)

/-- `Client::remove_action`, the change of the portfolio. -/
def removeShares (d : Database) : Database :=
  if isActionInPortfolio client action d then
    { d with
      clientPortfolio := d.clientPortfolio.update (fun r => r.key = (client, action))
        (fun r => { r with quantity := max (r.quantity - quantity) 0 }) fun _ => rfl }
  else d

def removeAction (d : Database) : Database :=
  notePrice ⟨action, price, date, daily⟩ (removeShares client action quantity d)

def hasShares (d : Database) : Bool :=
  0 < quantity ∧ quantity ≤ executeSqlQueryInt
    ((d.clientPortfolio.select fun r => r.key = (client, action)).map PortfolioRow.quantity)

/-- The two statements of a purchase that has passed its check. -/
def buy (d : Database) : Database :=
  addAction client action quantity price daily date (withdraw client (price * quantity) d)

/-- The two statements of a sale that has passed its check. -/
def sell (d : Database) : Database :=
  removeAction client action quantity price daily date (deposit client (price * quantity) d)

def updatePortfolio : OrderType → Database → Database
  | .buy, d =>
    if canAfford env client action quantity price d then
      buy client action quantity price daily date d
    else d
  | .sell, d =>
    if hasShares client action quantity d then
      sell client action quantity price daily date d
    else d

end Client

end StockMarket.Sql
