import StockMarket.Sql.Server

/-!
Does matching conserve cash and shares?

A call of `process_continuous_trading` or `process_fixing` should leave the sum of
all balances and, for every action, the sum of all holdings as they were, every
trade being booked on both sides or on neither (`Conserved`). It does exactly when
the two checks of `update_portfolio` agree on every pair it settles
(`conserved_iff`). They need not: the check of the purchase still counts the order
that is being filled as open, so a buyer who cannot pay for the trade on top of what
his order reserves gets nothing, while the seller is paid (`demo_not_conserved`).
-/

namespace StockMarket.Sql

/-- The calls that match orders. -/
inductive MatchCall where
  | continuousTrading (action : ID)
  | fixing
  deriving DecidableEq, Repr

def MatchCall.run (env : Env) (order : IterationOrder ID (List ID)) :
    MatchCall → Market → Market × List Settlement
  | .continuousTrading action => Market.processContinuousTrading env action
  | .fixing => Market.processFixing env order

/-- What a matching call should do: no total changes, and every pair it settles is
booked on both sides or on neither. -/
structure Conserved (m : Market) (out : Market × List Settlement) : Prop where
  balance : out.1.db.totalBalance = m.db.totalBalance
  shares : ∀ action, out.1.db.totalShares action = m.db.totalShares action
  atomic : ∀ e ∈ out.2, e.Atomic

section

variable {env : Env} {order : IterationOrder ID (List ID)}

theorem keeps_matchCall (env : Env) (order : IterationOrder ID (List ID)) (call : MatchCall) :
    Loop.Keeps Market.Sound (fun e => e.Atomic ↔ e.ChecksAgree env)
      (Settlement.ChecksAgree env) (fun m => totals m.db) (call.run env order) := by
  cases call with
  | continuousTrading action => exact keeps_processContinuousTrading env action
  | fixing => exact keeps_processFixing env order

/-- **Conservation.** In every reachable state a matching call conserves cash and
shares if and only if, for every pair it settles, the purchase is covered exactly
when the shares can be delivered. -/
theorem conserved_iff {s : Server} (reachable : Server.Reachable env order s)
    (call : MatchCall) :
    Conserved s.market (call.run env order s.market)
      ↔ ∀ e ∈ (call.run env order s.market).2, e.ChecksAgree env := by
  have kept := keeps_matchCall env order call _ reachable.sound.market
  constructor
  · intro conserved e mem
    exact (kept.events e mem).mp (conserved.atomic e mem)
  · intro agree
    have same := kept.quantity agree
    exact ⟨congrArg Prod.fst same, congrFun (congrArg Prod.snd same),
      fun e mem => (kept.events e mem).mpr (agree e mem)⟩

/-! ### The two clients of `init` -/

/-- A clock that counts, and order ids one above those in use. -/
def countingEnv : Env where
  latest := .first
  now n := (1, n)
  newOrderId _ inUse := inUse.foldl max 0 + 1

/-- `1 BUY … 1 MARKET` and `2 SELL … 1 MARKET`. -/
def marketLine (client : ID) (typeStr : String) (quantity : Int) : OrderLine where
  clientId := client
  typeStr := typeStr
  quantity := quantity
  actionId := 1
  triggerTypeStr := "MARKET"
  price := 0
  triggerPriceLower := 0
  triggerPriceUpper := 0

/-- The row of a market order of action 1. -/
def marketRow (order client : ID) (type : OrderType) (quantity : Int) : OrderRow where
  orderId := order
  orderStatus := .pending
  orderTimeDate := 1
  orderTimeDaily := order
  clientId := client
  orderType := type
  quantity := quantity
  actionId := 1
  triggerType := .market
  price := if type = .buy then maxNumber else 0
  triggerPriceLower := 0
  triggerPriceUpper := maxNumber
  expirationTimeDate := maxNumber
  expirationTimeDaily := 0

/-- Client 1 buys a quantity before trading is open. -/
def demoBuy (quantity : Int) : Server :=
  ({ market := { db := Database.demo 0 1 } } : Server).perform countingEnv
    (.enter (marketRow 1 1 .buy quantity))

/-- And client 2 sells 20. -/
def demoOrders (quantity : Int) : Server :=
  (demoBuy quantity).perform countingEnv (.enter (marketRow 2 2 .sell 20))

/-- An order that is taken while no task is waiting is put into effect, in two steps. -/
theorem steps_submit {s : Server} (idle : s.tasks = []) {line : OrderLine} {id date daily : ID}
    {o : OrderRow} (free : s.market.db.orderIdIsFree id)
    (taken : admitOrder env line id date daily s.market.db = .ok o) :
    Server.Step env order s (s.addTask (Server.orderTask o)) ∧
      Server.Step env order (s.addTask (Server.orderTask o))
        (s.perform env (Server.orderTask o)) := by
  have tasks : (s.addTask (Server.orderTask o)).tasks = [] ++ Server.orderTask o :: [] := by
    simp [Server.addTask, idle]
  have done : Server.Step env order (s.addTask (Server.orderTask o)) _ := .perform tasks
  have same : { s.addTask (Server.orderTask o) with tasks := [] ++ [] } = s := by
    cases s
    simp_all [Server.addTask]
  rw [same] at done
  exact ⟨.placeOrder line id date daily free taken, done⟩

/-- A waiting order that is triggered while no task is waiting is put into the book. -/
theorem steps_release {s : Server} (idle : s.tasks = []) {o : OrderRow} (nowDate nowDaily : ID)
    (waits : o ∈ s.market.db.getWaitingOrders) (lasts : ¬ Server.isExpired nowDate nowDaily o)
    (triggered : Server.isTriggered env s.market.db o) :
    Server.Step env order s
        ((s.withDb (Client.removeWaitingOrder o.clientId o.orderId s.market.db)).addTask
          (.enter o)) ∧
      Server.Step env order
        ((s.withDb (Client.removeWaitingOrder o.clientId o.orderId s.market.db)).addTask
          (.enter o))
        ((s.withDb (Client.removeWaitingOrder o.clientId o.orderId s.market.db)).perform env
          (.enter o)) := by
  have tasks : ((s.withDb (Client.removeWaitingOrder o.clientId o.orderId s.market.db)).addTask
      (.enter o)).tasks = [] ++ .enter o :: [] := by
    simp [Server.addTask, Server.withDb, idle]
  have done : Server.Step env order ((s.withDb
      (Client.removeWaitingOrder o.clientId o.orderId s.market.db)).addTask (.enter o)) _ :=
    .perform tasks
  have same : { (s.withDb (Client.removeWaitingOrder o.clientId o.orderId s.market.db)).addTask
      (.enter o) with tasks := [] ++ [] }
        = s.withDb (Client.removeWaitingOrder o.clientId o.orderId s.market.db) := by
    simp [Server.addTask, Server.withDb, idle]
  rw [same] at done
  exact ⟨.release nowDate nowDaily waits lasts triggered, done⟩

theorem run_submit {s₀ s : Server} (run : Relation.ReflTransGen (Server.Step env order) s₀ s)
    (idle : s.tasks = []) {line : OrderLine} {id date daily : ID} {o : OrderRow}
    (free : s.market.db.orderIdIsFree id)
    (taken : admitOrder env line id date daily s.market.db = .ok o) :
    Relation.ReflTransGen (Server.Step env order) s₀ (s.perform env (Server.orderTask o)) :=
  have ⟨placed, done⟩ := steps_submit idle free taken
  (run.tail placed).tail done

theorem reachable_submit {s : Server} (reachable : Server.Reachable env order s)
    (idle : s.tasks = []) {line : OrderLine} {id date daily : ID} {o : OrderRow}
    (free : s.market.db.orderIdIsFree id)
    (taken : admitOrder env line id date daily s.market.db = .ok o) :
    Server.Reachable env order (s.perform env (Server.orderTask o)) := by
  obtain ⟨d, initial, run⟩ := reachable
  exact ⟨d, initial, run_submit run idle free taken⟩

/-- The checks of both orders pass, so the demo orders are reached through the server. -/
theorem reachable_demoOrders {quantity : Int}
    (taken : admitOrder countingEnv (marketLine 1 "BUY" quantity) 1 1 1 (Database.demo 0 1)
      = .ok (marketRow 1 1 .buy quantity))
    (free : (demoBuy quantity).market.db.orderIdIsFree 2)
    (taken' : admitOrder countingEnv (marketLine 2 "SELL" 20) 2 1 2 (demoBuy quantity).market.db
      = .ok (marketRow 2 2 .sell 20)) :
    Server.Reachable countingEnv order (demoOrders quantity) := by
  have start : Server.Reachable countingEnv order { market := { db := Database.demo 0 1 } } :=
    ⟨_, Database.initial_demo 0 1, .refl⟩
  have bought := reachable_submit start rfl (by decide) taken
  exact reachable_submit bought rfl free taken'

/-- `2 SELL 5 1 LIMIT` at a price, to be released from 10 on. -/
def offerLine (price : ℚ) : OrderLine :=
  { marketLine 2 "SELL" 5 with
    triggerTypeStr := "LIMIT"
    price := price
    triggerPriceLower := 10 }

def offerRow (price : ℚ) : OrderRow :=
  { marketRow 1 2 .sell 5 with
    orderStatus := .waiting
    triggerType := .limit
    price := price
    triggerPriceLower := 10 }

/-- The offer is recorded. -/
def demoWaiting (price : ℚ) : Server :=
  ({ market := { db := Database.demo 0 1 } } : Server).perform countingEnv (.wait (offerRow price))

/-- It is released at once. -/
def demoOffer (price : ℚ) : Server :=
  ((demoWaiting price).withDb
    (Client.removeWaitingOrder 2 1 (demoWaiting price).market.db)).perform countingEnv
      (.enter (offerRow price))

/-- And client 1 buys 5 at the market. -/
def demoTaker (price : ℚ) : Server :=
  (demoOffer price).perform countingEnv (.enter (marketRow 2 1 .buy 5))

/-- Every positive price is taken. -/
theorem admitOrder_offer {price : ℚ} (pos : 0 < price) :
    admitOrder countingEnv (offerLine price) 1 1 1 (Database.demo 0 1) = .ok (offerRow price) := by
  have named : givenPrice "Price" "limit" price = .ok price := by
    rw [givenPrice, if_neg pos.ne', if_neg (not_lt.mpr pos.le)]
  have lower : givenPrice "Trigger price lower" "limit" 10 = .ok 10 := by decide +kernel
  have terms : readTrigger (offerLine price) .sell = .ok (.limit, price, 10, maxNumber) := by
    simp only [readTrigger, offerLine, if_true, named, lower]
    rfl
  have side : readType (offerLine price) = .ok .sell := rfl
  have exists_one : (Database.demo 0 1).actionExists 1 := by decide +kernel
  have known : (Database.demo 0 1).actionExists (offerLine price).actionId := exists_one
  have shares : Client.hasShares 2 1 5 (Database.demo 0 1) := by decide +kernel
  have held : Client.hasShares (offerLine price).clientId (offerLine price).actionId
      (offerLine price).quantity (Database.demo 0 1) := shares
  rw [admitOrder, side]
  simp only [bind, Except.bind, terms]
  rw [if_neg (not_not.mpr known), if_neg nofun, if_neg fun refused => refused.2 held]
  rfl

theorem steps_demoWaiting (order : IterationOrder ID (List ID)) {price : ℚ} (pos : 0 < price) :
    Server.Step countingEnv order { market := { db := Database.demo 0 1 } }
        (({ market := { db := Database.demo 0 1 } } : Server).addTask (.wait (offerRow price))) ∧
      Server.Step countingEnv order
        (({ market := { db := Database.demo 0 1 } } : Server).addTask (.wait (offerRow price)))
        (demoWaiting price) :=
  steps_submit (o := offerRow price) rfl (by decide) (admitOrder_offer pos)

/-- Its trigger is the current price, whatever its own is. -/
theorem steps_demoOffer (order : IterationOrder ID (List ID)) (price : ℚ) :
    Server.Step countingEnv order (demoWaiting price) (((demoWaiting price).withDb
        (Client.removeWaitingOrder 2 1 (demoWaiting price).market.db)).addTask
          (.enter (offerRow price))) ∧
      Server.Step countingEnv order (((demoWaiting price).withDb
        (Client.removeWaitingOrder 2 1 (demoWaiting price).market.db)).addTask
          (.enter (offerRow price))) (demoOffer price) := by
  have waiting : (demoWaiting price).market.db.getWaitingOrders = [offerRow price] := rfl
  have waits : offerRow price ∈ (demoWaiting price).market.db.getWaitingOrders := by
    rw [waiting]
    exact List.mem_singleton_self _
  have lasts : ¬ Server.isExpired 1 1 (offerRow price) := Bool.false_ne_true
  have atTrigger : Server.isTriggered countingEnv (Database.demo 0 1) (offerRow 0) := by
    decide +kernel
  have triggered : Server.isTriggered countingEnv (demoWaiting price).market.db
      (offerRow price) := atTrigger
  exact steps_release (o := offerRow price) rfl 1 1 waits lasts triggered

theorem steps_demoTaker (order : IterationOrder ID (List ID)) (price : ℚ) :
    Server.Step countingEnv order (demoOffer price)
        ((demoOffer price).addTask (.enter (marketRow 2 1 .buy 5))) ∧
      Server.Step countingEnv order
        ((demoOffer price).addTask (.enter (marketRow 2 1 .buy 5))) (demoTaker price) := by
  have start : admitOrder countingEnv (marketLine 1 "BUY" 5) 2 1 2 (Database.demo 0 1)
      = .ok (marketRow 2 1 .buy 5) := by decide +kernel
  -- what the check reads is as it was
  have taken : admitOrder countingEnv (marketLine 1 "BUY" 5) 2 1 2 (demoOffer price).market.db
      = .ok (marketRow 2 1 .buy 5) := start
  exact steps_submit (o := marketRow 2 1 .buy 5) rfl rfl taken

/-- The server gets there, whatever the offer is. -/
theorem run_demoTaker {price : ℚ} (pos : 0 < price) :
    Relation.ReflTransGen (Server.Step countingEnv order)
      { market := { db := Database.demo 0 1 } } (demoTaker price) := by
  obtain ⟨placed, recorded⟩ := steps_demoWaiting order pos
  obtain ⟨released, entered⟩ := steps_demoOffer order price
  obtain ⟨bid, bought⟩ := steps_demoTaker order price
  exact (((((Relation.ReflTransGen.single placed).tail recorded).tail released).tail
    entered).tail bid).tail bought

/-- With 20 asked for, the trade is booked on both sides. -/
theorem demo_conserved :
    Conserved (demoOrders 20).market
      (MatchCall.run countingEnv .stored (.continuousTrading 1) (demoOrders 20).market) :=
  (conserved_iff (reachable_demoOrders (by decide +kernel) (by decide +kernel)
    (by decide +kernel)) _).mpr (by decide +kernel)

/-- **Matching does not always conserve.** Client 1 of `init` reserves 880 of his 1000
for 80 at the market. When client 2 sells him 20 at 10, the purchase is refused and the
sale is booked, in continuous trading and in a fixing. -/
theorem demo_not_conserved :
    Server.Reachable countingEnv .stored (demoOrders 80) ∧
      ¬ Conserved (demoOrders 80).market
        (MatchCall.run countingEnv .stored (.continuousTrading 1) (demoOrders 80).market) ∧
      ¬ Conserved (demoOrders 80).market
        (MatchCall.run countingEnv .stored .fixing (demoOrders 80).market) := by
  refine ⟨reachable_demoOrders (by decide +kernel) (by decide +kernel) (by decide +kernel),
    fun conserved => ?_, fun conserved => ?_⟩
  · exact absurd conserved.balance (by decide +kernel)
  · exact absurd conserved.balance (by decide +kernel)

end

end StockMarket.Sql
