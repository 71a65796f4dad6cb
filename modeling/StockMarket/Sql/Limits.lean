import StockMarket.Sql.Prices
import StockMarket.Sql.Session

/-!
Executions respect limits.

A MARKET order stands in its vector at a price that nobody has named, `max_number` or 0. The
price of a trade is never this one: it is the limit of a side that has one, which the other
side's limit allows because the pair crosses, or the current price of the action
(`respectsLimits_of_pair`). That these are positive holds in every run (`Server.Quoted.step`):
admission takes no other limit, an action never loses its prices, and each trade notes one
that is positive again.
-/

namespace StockMarket.Sql

open Client Database

/-- There is a price of the action. -/
def Database.IsListed (action : ID) (d : Database) : Prop := d.priceRows action ≠ []

/-- Every action has a price, and all prices are positive. -/
structure Database.Quoted (d : Database) : Prop where
  listed : ∀ a ∈ d.actions.rows, d.IsListed a.actionId
  positive : ∀ r ∈ d.prices, 0 < r.price

/-- An order that is no MARKET order has a positive price, and an order to SELL is of an action
with a price. -/
structure OrderRow.Quoted (d : Database) (o : OrderRow) : Prop where
  limit : o.triggerType ≠ .market → 0 < o.price
  listed : o.orderType = .sell → d.IsListed o.actionId

/-- The loops have read these two rows and settled them as this pair. -/
def Settlement.Pairs (env : Env) (buyer seller : OrderRow) (e : Settlement) : Prop :=
  ∃ (s : Sweep) (buy sell : ID) (buys sells : List ID), s.buys = buy :: buys ∧
    s.sells = sell :: sells ∧ continuousPair s.db buy sell = some (buyer, seller) ∧
    (settlePair env e.action buyer seller buys sells s).2 = e

/-- The price is within the limits of both orders, and it is one of these limits or, of two
MARKET orders, the current price. -/
structure Settlement.RespectsLimits (env : Env) (buyer seller : OrderRow) (e : Settlement) :
    Prop where
  positive : 0 < e.price
  atMost : buyer.triggerType ≠ .market → e.price ≤ buyer.price
  atLeast : seller.triggerType ≠ .market → seller.price ≤ e.price
  source : seller.triggerType ≠ .market ∧ e.price = seller.price ∨
    buyer.triggerType ≠ .market ∧ e.price = buyer.price ∨
    buyer.triggerType = .market ∧ seller.triggerType = .market ∧
      e.price = e.before.getActionCurrentPrice env e.action

/-- Its two orders allow the price. -/
def Settlement.WithinLimits (env : Env) (e : Settlement) : Prop :=
  ∃ buyer seller, e.Pairs env buyer seller ∧ e.RespectsLimits env buyer seller

/-! ### What a trade leaves -/

section

variable {env : Env} {d d' : Database} {action : ID} {o buyer seller : OrderRow} {s : Sweep}
  {buys sells : List ID}

/-- A price that is there stays. -/
theorem IsListed.mono (listed : d.IsListed action) (kept : d.prices ⊆ d'.prices) :
    d'.IsListed action := by
  obtain ⟨r, mem⟩ := List.exists_mem_of_ne_nil _ listed
  rw [mem_priceRows] at mem
  exact List.ne_nil_of_mem (mem_priceRows.mpr ⟨kept mem.1, mem.2⟩)

theorem OrderRow.Quoted.mono (quoted : o.Quoted d) (kept : d.prices ⊆ d'.prices) : o.Quoted d' :=
  ⟨quoted.limit, fun sells => IsListed.mono (quoted.listed sells) kept⟩

/-- The current price of an action with prices is one of them. -/
theorem Database.Quoted.currentPrice_pos (quoted : d.Quoted) (env : Env)
    (listed : d.IsListed action) : 0 < d.getActionCurrentPrice env action := by
  obtain ⟨r, latest, price⟩ := exists_latestIn env listed
  rw [price]
  exact quoted.positive r (mem_priceRows.mp latest.1).1

/-- The price of a pair that crosses. -/
theorem respectsLimits_of_pair (quoted : s.db.Quoted) (bought : buyer.Quoted s.db)
    (sold : seller.Quoted s.db) (listed : s.db.IsListed action)
    (crosses : seller.price ≤ buyer.price) :
    (settlePair env action buyer seller buys sells s).2.RespectsLimits env buyer seller := by
  have current := quoted.currentPrice_pos env listed
  by_cases atMarket : seller.triggerType = .market
  · by_cases atMarket' : buyer.triggerType = .market
    · have price : (settlePair env action buyer seller buys sells s).2.price
          = s.db.getActionCurrentPrice env action := by
        simp [settlePair, resolveExecutionPrice, atMarket, atMarket', current]
      exact ⟨price.symm ▸ current, fun limit => absurd atMarket' limit,
        fun limit => absurd atMarket limit, .inr (.inr ⟨atMarket', atMarket, price⟩)⟩
    · have price : (settlePair env action buyer seller buys sells s).2.price = buyer.price := by
        simp [settlePair, resolveExecutionPrice, atMarket, atMarket']
      exact ⟨price.symm ▸ bought.limit atMarket', fun _ => price.le,
        fun limit => absurd atMarket limit, .inr (.inl ⟨atMarket', price⟩)⟩
  · have price : (settlePair env action buyer seller buys sells s).2.price = seller.price := by
      simp [settlePair, resolveExecutionPrice, atMarket]
    exact ⟨price.symm ▸ sold.limit atMarket, fun _ => price.le.trans crosses,
      fun _ => price.ge, .inl ⟨atMarket, price⟩⟩

theorem prices_subset_settlePair (env : Env) (action : ID) (buyer seller : OrderRow)
    (buys sells : List ID) (s : Sweep) :
    s.db.prices ⊆ (settlePair env action buyer seller buys sells s).1.db.prices :=
  fun _ mem => (mem_prices_settlePair env action buyer seller buys sells s).mpr (.inl mem)

/-- No trade adds or removes an action. -/
theorem actions_settlePair (env : Env) (action : ID) (buyer seller : OrderRow)
    (buys sells : List ID) (s : Sweep) :
    (settlePair env action buyer seller buys sells s).1.db.actions = s.db.actions := by
  rw [settlePair_frame Database.actions fun _ _ => rfl]
  exact bookTrade_frame Database.actions (fun _ _ _ _ => rfl) _ _ _ _ _ _ _ _

/-- A trade adds a positive price. -/
theorem Quoted.settlePair (quoted : s.db.Quoted)
    (positive : 0 < (settlePair env action buyer seller buys sells s).2.price) :
    (Sql.settlePair env action buyer seller buys sells s).1.db.Quoted where
  listed a mem :=
    IsListed.mono (quoted.listed a (actions_settlePair env action buyer seller buys sells s ▸ mem))
      (prices_subset_settlePair env action buyer seller buys sells s)
  positive r mem := by
    rcases (mem_prices_settlePair env action buyer seller buys sells s).mp mem with
      mem | ⟨-, rfl⟩
    · exact quoted.positive r mem
    · exact positive

end

/-! ### The loops -/

/-- What holds of the database. -/
structure Database.AllQuoted (d : Database) : Prop where
  quoted : d.Quoted
  orders : ∀ o ∈ d.orders.rows, o.Quoted d

/-- What the rounds of the loop of an action keep: the prices that were there stay. -/
structure Sweep.Quoted (action : ID) (d : Database) (s : Sweep) : Prop where
  db : s.db.AllQuoted
  sales : s.sells ≠ [] → s.db.IsListed action
  grown : d.prices ⊆ s.db.prices

/-- Only actions with a price have a sale in the book. -/
structure Market.Quoted (m : Market) : Prop where
  db : m.db.AllQuoted
  sales : ∀ action, m.orderIds .sell action ≠ [] → m.db.IsListed action

section

variable {d d' : Database}

theorem AllQuoted.congr (all : d.AllQuoted) (prices : d'.prices = d.prices)
    (actions : d'.actions = d.actions) (orders : ∀ o ∈ d'.orders.rows, o.Quoted d) :
    d'.AllQuoted := by
  have kept : d.prices ⊆ d'.prices := prices ▸ List.Subset.refl _
  refine ⟨⟨fun a mem => IsListed.mono (all.quoted.listed a (actions ▸ mem)) kept, ?_⟩,
    fun o mem => (orders o mem).mono kept⟩
  rw [prices]
  exact all.quoted.positive

/-- **One round** settles a pair within its limits. -/
theorem kept_round (env : Env) (action : ID) (d : Database) (s s' : Sweep) (e : Settlement)
    (quoted : s.Quoted action d) (next : matchStep continuousPair env action s = some (s', e)) :
    Loop.Kept (Sweep.Quoted action d) (Settlement.WithinLimits env) (fun _ => True) (fun _ => ())
      s (s', [e]) := by
  obtain ⟨all, sales, grown⟩ := quoted
  obtain ⟨buy, buys, sell, sells, buyer, seller, bought, sold, found, settled⟩ :=
    matchStep_some next
  obtain ⟨row, row'⟩ := readsRows_continuousPair _ _ _ _ _ found
  have buyer' := all.orders _ (mem_of_getOrderInfo row)
  have seller' := all.orders _ (mem_of_getOrderInfo row')
  have listed : s.db.IsListed action := sales (by simp [sold])
  have crosses : seller.price ≤ buyer.price := by
    rw [← fixingPair_eq_continuousPair] at found
    exact crosses_of_fixingPair found
  have limits : (settlePair env action buyer seller buys sells s).2.RespectsLimits env
      buyer seller :=
    respectsLimits_of_pair all.quoted buyer' seller' listed crosses
  obtain ⟨rfl, rfl⟩ := Prod.mk.inj settled
  have kept := prices_subset_settlePair env action buyer seller buys sells s
  have listed' := IsListed.mono listed kept
  refine ⟨⟨⟨Quoted.settlePair all.quoted limits.positive, ?_⟩, fun _ => listed',
    List.Subset.trans grown kept⟩, ?_, fun _ => rfl⟩
  · refine Market.forall_rows_settlePair env action buys sells
      (fun o mem => (all.orders o mem).mono kept) ?_ ?_ ?_ ?_
    · exact fun _ _ => ⟨fun _ => limits.positive, nofun⟩
    · exact fun _ _ => ⟨fun _ => limits.positive, fun _ => listed'⟩
    · exact fun _ _ _ => ⟨buyer'.limit, nofun⟩
    · exact fun _ _ _ => ⟨seller'.limit, fun _ => listed'⟩
  · intro e mem
    obtain rfl := List.mem_singleton.mp mem
    exact ⟨buyer, seller, ⟨s, buy, sell, buys, sells, bought, sold, found, rfl⟩, limits⟩

/-- The loop of one action. -/
theorem keeps_quoted_processContinuousTrading (env : Env) (action : ID) :
    Loop.Keeps Market.Quoted (Settlement.WithinLimits env) (fun _ => True) (fun _ => ())
      (Market.processContinuousTrading env action) := by
  intro m quoted
  unfold Market.processContinuousTrading
  rcases Market.matchAction_cases continuousPair env action m with ⟨same, -⟩ | ⟨n,
    out, rfl, -, same⟩
  · rw [same]
    exact .idle quoted
  · rw [same]
    have kept := Loop.keeps_run (kept_round env action m.db) n
      (m.sweep (m.orderIds .buy action) (m.orderIds .sell action))
      ⟨quoted.db, quoted.sales action, List.Subset.refl _⟩
    obtain ⟨all, sales, grown⟩ := kept.inv
    refine ⟨⟨all, fun a some => ?_⟩, kept.events, fun _ => rfl⟩
    rw [Market.orderIds_afterSweep] at some
    by_cases here : a = action
    · rw [if_pos here] at some
      exact here ▸ sales some
    · rw [if_neg here] at some
      exact IsListed.mono (quoted.sales a some) grown

theorem keeps_quoted_matchCall (env : Env) (order : IterationOrder ID (List ID))
    (call : MatchCall) :
    Loop.Keeps Market.Quoted (Settlement.WithinLimits env) (fun _ => True) (fun _ => ())
      (call.run env order) :=
  keeps_matchCall_of_each (keeps_quoted_processContinuousTrading env) order call

end

/-! ### Runs -/

/-- What holds between two steps of the server. -/
structure Server.Quoted (s : Server) : Prop where
  sound : s.Sound
  market : s.market.Quoted
  tasks : ∀ t ∈ s.tasks, ∀ o ∈ t.orders, o.Quoted s.market.db

section

variable {env : Env} {order : IterationOrder ID (List ID)} {s s' : Server} {d : Database}
  {m : Market} {o : OrderRow}

theorem mem_actions_of_actionExists {action : ID} (valid : ValidAction action)
    (known : d.actionExists action) : ∃ a ∈ d.actions.rows, a.actionId = action := by
  unfold actionExists executeSqlQueryId at known
  cases rows : d.actions.select fun a => a.actionId = action with
  | nil =>
      simp only [rows, List.map_nil, List.head?_nil, Option.map_none, Option.getD_none,
        decide_eq_true_eq] at known
      exact absurd (known ▸ valid.1) (by decide)
  | cons a as =>
      have mem : a ∈ d.actions.select fun a => a.actionId = action := rows ▸ List.mem_cons_self
      obtain ⟨mem, key⟩ := List.mem_filter.mp mem
      exact ⟨a, mem, of_decide_eq_true key⟩

/-- Admission takes positive limits, and sales of what is held. -/
theorem quoted_of_admitOrder {line : OrderLine} {id date daily : ID} (sound : d.Sound)
    (quoted : d.Quoted) (taken : admitOrder env line id date daily d = .ok o) : o.Quoted d := by
  obtain ⟨type, trigger, price, lower, upper, -, terms, known, -, held, rfl⟩ :=
    admitOrder_cases taken
  refine ⟨fun limit => ?_, fun sells => ?_⟩
  · rcases price_of_readTrigger terms with ⟨atMarket, -⟩ | ⟨-, pos⟩
    · exact absurd atMarket limit
    · exact pos
  · have valid := (sound.of_held (of_hasShares sound (held sells)).2.1).1
    obtain ⟨a, mem, same⟩ := mem_actions_of_actionExists valid known
    exact same ▸ quoted.listed a mem

/-- The vectors stay, on a database with the same prices. -/
theorem Market.Quoted.withDb (quoted : m.Quoted) (prices : d.prices = m.db.prices)
    (actions : d.actions = m.db.actions) (orders : ∀ o ∈ d.orders.rows, o.Quoted m.db) :
    ({ m with db := d } : Market).Quoted := by
  refine ⟨AllQuoted.congr quoted.db prices actions orders, fun action some => ?_⟩
  have listed : m.db.IsListed action := quoted.sales action some
  exact IsListed.mono listed (prices ▸ List.Subset.refl _)

theorem Market.Quoted.accumulateOrder (quoted : m.Quoted) (named : o.Quoted m.db) :
    (m.accumulateOrder o).Quoted := by
  by_cases known : m.db.clientExists o.clientId
  · have db : (m.accumulateOrder o).db = addPendingOrder o m.db := Market.db_accumulateOrder known
    have rows : ∀ o' ∈ (m.accumulateOrder o).db.orders.rows, o'.Quoted m.db := by
      rw [db]
      exact Relation.forall_insert quoted.db.orders ⟨named.limit, named.listed⟩
    refine ⟨AllQuoted.congr quoted.db (by rw [db]; rfl) (by rw [db]; rfl) rows,
      fun action some => ?_⟩
    rw [Market.orderIds_accumulateOrder known] at some
    rw [db]
    by_cases here : OrderType.sell = o.orderType ∧ action = o.actionId
    · exact here.2 ▸ named.listed here.1.symm
    · rw [if_neg here] at some
      exact quoted.sales action some
  · have same : m.accumulateOrder o = m := by
      rw [Market.accumulateOrder, if_pos known]
    rwa [same]

namespace Server

theorem Quoted.withDb (quoted : s.Quoted) (sound : d.Sound) (prices : d.prices = s.market.db.prices)
    (actions : d.actions = s.market.db.actions)
    (orders : ∀ o ∈ d.orders.rows, o.Quoted s.market.db) : (s.withDb d).Quoted := by
  have kept : s.market.db.prices ⊆ d.prices := prices ▸ List.Subset.refl _
  exact ⟨quoted.sound.withDb sound, quoted.market.withDb prices actions orders,
    fun t mem o here => (quoted.tasks t mem o here).mono kept⟩

/-- A market with more prices. -/
theorem Quoted.withMarket (quoted : s.Quoted) {m : Market} (sound : m.Sound) (new : m.Quoted)
    (kept : s.market.db.prices ⊆ m.db.prices) : ({ s with market := m } : Server).Quoted :=
  ⟨⟨sound, quoted.sound.tasks⟩, new, fun t mem o here => (quoted.tasks t mem o here).mono kept⟩

/-- Matching keeps the prices that were there. -/
theorem prices_subset_matchCall (env : Env) (order : IterationOrder ID (List ID))
    (call : MatchCall) (m : Market) : m.db.prices ⊆ (call.run env order m).1.db.prices := by
  refine (keeps_matchCall_of_each (fun action => Market.keeps_db_matchAction
    (D := fun d => m.db.prices ⊆ d.prices) readsRows_continuousPair env action ?_) order call m
    (List.Subset.refl _)).inv
  rintro buyer seller buys sells s kept - -
  exact List.Subset.trans kept (prices_subset_settlePair env action buyer seller buys sells s)

theorem Quoted.matched (quoted : s.Quoted) (env : Env) (order : IterationOrder ID (List ID))
    (call : MatchCall) :
    ({ s with market := (call.run env order s.market).1 } : Server).Quoted :=
  quoted.withMarket (keeps_matchCall env order call _ quoted.sound.market).inv
    (keeps_quoted_matchCall env order call _ quoted.market).inv
    (prices_subset_matchCall env order call s.market)

theorem Quoted.addTask (quoted : s.Quoted) {t : Task} (valid : t.Valid)
    (named : ∀ o ∈ t.orders, o.Quoted s.market.db) : (s.addTask t).Quoted :=
  ⟨quoted.sound.addTask valid, quoted.market,
    List.forall_mem_append.mpr ⟨quoted.tasks, List.forall_mem_singleton.mpr named⟩⟩

/-- Performing a task keeps limits and prices. -/
theorem Quoted.perform (quoted : s.Quoted) {t : Task} (valid : t.Valid)
    (named : ∀ o ∈ t.orders, o.Quoted s.market.db) : (s.perform env t).Quoted := by
  cases t with
  | enter o =>
      have here : o.Quoted s.market.db := named o List.mem_cons_self
      have kept : s.market.db.prices ⊆ (s.market.accumulateOrder o).db.prices := by
        unfold Market.accumulateOrder
        split
        · exact List.Subset.refl _
        · cases o.orderType <;> exact List.Subset.refl _
      have entered : ({ s with market := s.market.accumulateOrder o } : Server).Quoted :=
        quoted.withMarket (sound_accumulateOrder quoted.sound.market valid)
          (quoted.market.accumulateOrder here) kept
      simp only [Server.perform]
      split
      · exact entered.matched env .stored (.continuousTrading o.actionId)
      · exact entered
  | wait o =>
      have here : o.Quoted s.market.db := named o List.mem_cons_self
      exact quoted.withDb (sound_addOrder quoted.sound.market.db .waiting valid) rfl rfl
        (Relation.forall_insert quoted.market.db.orders ⟨here.limit, here.listed⟩)
  | withdraw client amount =>
      exact quoted.withDb (sound_withdraw quoted.sound.market.db) rfl rfl quoted.market.db.orders

/-- **Every step** keeps limits and prices positive. -/
theorem Quoted.step (quoted : s.Quoted) (step : Step env order s s') : s'.Quoted := by
  have sound := quoted.sound.market.db
  have rows := quoted.market.db.orders
  cases step with
  | deposit client amount known =>
      refine quoted.withDb (sound_deposit sound) (prices_deposit client amount) ?_ ?_
      · unfold Client.deposit
        split <;> rfl
      · rwa [orders_deposit]
  | askWithdrawal client amount known covered =>
      exact quoted.addTask trivial fun _ mem => absurd mem List.not_mem_nil
  | placeOrder line id date daily free taken =>
      rename_i o
      have placed : Step env order s (s.addTask (orderTask o)) :=
        .placeOrder line id date daily free taken
      have valid := (quoted.sound.step placed).tasks (orderTask o) (by simp [Server.addTask])
      have named := quoted_of_admitOrder sound quoted.market.db.quoted taken
      refine quoted.addTask valid fun o' mem => ?_
      have same : o' = o := by
        unfold orderTask at mem
        split at mem <;> exact List.mem_singleton.mp mem
      exact same ▸ named
  | @perform t front back next =>
      have valid := quoted.sound.tasks
      have named := quoted.tasks
      rw [next] at valid named
      have rest : ({ s with tasks := front ++ back } : Server).Quoted := by
        refine ⟨⟨quoted.sound.market, fun t mem => ?_⟩, quoted.market, fun t mem => ?_⟩
        · exact valid t (List.mem_append.mpr ((List.mem_append.mp mem).imp_right
            (List.mem_cons_of_mem _)))
        · exact named t (List.mem_append.mpr ((List.mem_append.mp mem).imp_right
            (List.mem_cons_of_mem _)))
      exact rest.perform (valid t (by simp)) (named t (by simp))
  | expire nowDate nowDaily waits expired =>
      exact quoted.withDb (sound_removeOrder sound _ _ _) rfl rfl (Relation.forall_delete rows)
  | @release o nowDate nowDaily waits lasts triggered =>
      have mem : o ∈ s.market.db.orders.rows := (List.mem_filter.mp waits).1
      have gone := quoted.withDb (sound_removeOrder sound o.clientId .waiting o.orderId) rfl rfl
        (Relation.forall_delete rows)
      refine gone.addTask (sound.sale_action o mem) fun o' mem' => ?_
      rw [List.mem_singleton.mp mem']
      exact (rows o mem).mono (List.Subset.refl _)
  | fixing => exact quoted.matched env order .fixing
  | period running => exact ⟨⟨quoted.sound.market, quoted.sound.tasks⟩, quoted.market, quoted.tasks⟩
  | play =>
      exact ⟨⟨⟨sound, fun _ _ found => absurd found (by simp)⟩,
          fun _ mem => absurd mem List.not_mem_nil⟩,
        ⟨quoted.market.db, fun _ some => absurd rfl some⟩, fun _ mem => absurd mem List.not_mem_nil⟩

/-- What holds in every run from a database whose actions have positive prices. -/
theorem quoted_of_run (initial : d.Initial) (quoted : d.Quoted)
    (run : Relation.ReflTransGen (Step env order) { market := { db := d } } s) : s.Quoted := by
  induction run with
  | refl =>
      have none : ∀ o ∈ d.orders.rows, o.Quoted d := by
        rw [initial.orders]
        exact fun _ mem => absurd mem List.not_mem_nil
      exact ⟨⟨⟨initial.sound, fun _ _ found => absurd found (by simp)⟩,
          fun _ mem => absurd mem List.not_mem_nil⟩,
        ⟨⟨quoted, none⟩, fun _ some => absurd rfl some⟩, fun _ mem => absurd mem List.not_mem_nil⟩
  | tail _ step quoted => exact quoted.step step

/-- **Executions respect limits.** In every state that the server reaches from a database whose
actions have positive prices, every pair that matching settles has a positive price within the
limits of its orders, which is one of these limits or the current price. -/
theorem withinLimits_of_run (initial : d.Initial) (quoted : d.Quoted)
    (run : Relation.ReflTransGen (Step env order) { market := { db := d } } s)
    (call : MatchCall) : ∀ e ∈ (call.run env order s.market).2, e.WithinLimits env :=
  (keeps_quoted_matchCall env order call _ (quoted_of_run initial quoted run).market).events

theorem quoted_demo : (Database.demo 0 1).Quoted where
  listed := by
    unfold Database.IsListed
    decide +kernel
  positive := by decide +kernel

/-- Two MARKET orders trade at the price of `init`. -/
theorem withinLimits_demo :
    (∀ e ∈ (MatchCall.run countingEnv .stored (.continuousTrading 1) (demoOrders 20).market).2,
      e.WithinLimits countingEnv) ∧
    ((MatchCall.run countingEnv .stored (.continuousTrading 1) (demoOrders 20).market).2.map
      Settlement.price) = [10] := by
  have free : (Database.demo 0 1).orderIdIsFree 1 := by decide
  have start : Relation.ReflTransGen (Step countingEnv .stored)
      { market := { db := Database.demo 0 1 } } { market := { db := Database.demo 0 1 } } := .refl
  have bought := run_submit start rfl free admitOrder_demo
  have free' : (demoBuy 20).market.db.orderIdIsFree 2 := by decide +kernel
  have taken' : admitOrder countingEnv (marketLine 2 "SELL" 20) 2 1 2 (demoBuy 20).market.db
      = .ok (marketRow 2 2 .sell 20) := by decide +kernel
  have sold := run_submit bought rfl free' taken'
  exact ⟨withinLimits_of_run (Database.initial_demo 0 1) quoted_demo sold _, by decide +kernel⟩

end Server

end

end StockMarket.Sql
