import StockMarket.Sql.Crossing
import StockMarket.Sql.Dates

/-!
MARKET orders come first and cross everything.

An order at the market stands in its vector at a price nobody has named, `max_number` to BUY
and 0 to SELL. Every price that admission takes is above 0, but nothing keeps it below
`max_number`: an offer above it does not cross a MARKET order to BUY, and a bid above it, or
one of this price and an earlier time, is served first. So an order can upset the book it
enters (`Market.Upsets`). In a run without such orders all MARKET orders come first and cross
everything (`marketFirst_of_run`).
-/

namespace StockMarket.Sql

open Client Database

/-- If the second order is a MARKET order, so is the first. -/
def OrderRow.Leads (o o' : OrderRow) : Prop :=
  o'.triggerType = .market → o.triggerType = .market

/-- If one of the two is a MARKET order, they cross. -/
def OrderRow.Meets (buyer seller : OrderRow) : Prop :=
  buyer.triggerType = .market ∨ seller.triggerType = .market → seller.price ≤ buyer.price

/-- MARKET orders stand before the others of their side, and cross those of the other side. -/
structure Market.MarketFirst (m : Market) : Prop where
  leads : ∀ side action, (m.ordersOf side action).Pairwise OrderRow.Leads
  meets : ∀ action, ∀ buyer ∈ m.ordersOf .buy action, ∀ seller ∈ m.ordersOf .sell action,
    buyer.Meets seller

/-- A bid enters, and a LIMIT, STOP or LIMIT_STOP bid is to be served before one at the market,
or an offer is above `max_number` and the bid is at the market. -/
def Market.UpsetByBid (o : OrderRow) (m : Market) : Prop :=
  if o.triggerType = .market then
    (∃ buyer ∈ m.ordersOf .buy o.actionId,
        buyer.triggerType ≠ .market ∧ buyer.readRank .buy < o.readRank .buy) ∨
      ∃ seller ∈ m.ordersOf .sell o.actionId, (maxNumber : ℚ) < seller.price
  else
    ∃ buyer ∈ m.ordersOf .buy o.actionId,
      buyer.triggerType = .market ∧ o.readRank .buy ≤ buyer.readRank .buy

/-- An offer above `max_number` enters, and a bid at the market is there. -/
def Market.UpsetByOffer (o : OrderRow) (m : Market) : Prop :=
  (maxNumber : ℚ) < o.price ∧ ∃ buyer ∈ m.ordersOf .buy o.actionId, buyer.triggerType = .market

/-- An order upsets the book it enters. -/
def Market.Upsets (o : OrderRow) (m : Market) : Prop :=
  m.db.clientExists o.clientId ∧
    match o.orderType with
    | .buy => m.UpsetByBid o
    | .sell => m.UpsetByOffer o

/-- The price of a MARKET order is that of its side, and another order has a positive one. -/
def OrderRow.Priced (o : OrderRow) : Prop :=
  o.triggerType = .market ∧ o.price = (if o.orderType = .buy then (maxNumber : ℚ) else 0) ∨
    o.triggerType ≠ .market ∧ 0 < o.price

/-- What holds of the vectors. -/
structure Market.Marked (m : Market) : Prop where
  priced : ∀ side action, ∀ o ∈ m.ordersOf side action, o.Priced
  first : m.MarketFirst

/-! ### Prices that stand for any price -/

section

variable {o : OrderRow}

theorem OrderRow.Priced.nonneg (priced : o.Priced) : 0 ≤ o.price := by
  rcases priced with ⟨-, price⟩ | ⟨-, pos⟩
  · rw [price]
    split
    · decide +kernel
    · exact le_rfl
  · exact pos.le

theorem OrderRow.Priced.of_buy (priced : o.Priced) (buys : o.orderType = .buy)
    (atMarket : o.triggerType = .market) : o.price = maxNumber := by
  rcases priced with ⟨-, price⟩ | ⟨limit, -⟩
  · rwa [if_pos buys] at price
  · exact absurd atMarket limit

/-- To SELL, only MARKET orders have the price 0. -/
theorem OrderRow.Priced.of_sell (priced : o.Priced) (sells : o.orderType = .sell) :
    o.triggerType = .market ↔ o.price = 0 := by
  rcases priced with ⟨atMarket, price⟩ | ⟨limit, pos⟩
  · rw [sells] at price
    exact iff_of_true atMarket price
  · exact iff_of_false limit pos.ne'

theorem price_of_readRank_sell {o' : OrderRow} (le : o.readRank .sell ≤ o'.readRank .sell) :
    o.price ≤ o'.price := by
  rcases Prod.Lex.toLex_le_toLex.mp le with lower | ⟨same, -⟩
  · exact lower.le
  · exact same.le

/-- Admission gives a MARKET order the price of its side. -/
theorem priced_of_admitOrder {env : Env} {line : OrderLine} {id date daily : ID} {d : Database}
    (taken : admitOrder env line id date daily d = .ok o) : o.Priced := by
  obtain ⟨type, trigger, price, lower, upper, -, terms, -, -, -, rfl⟩ := admitOrder_cases taken
  exact price_of_readTrigger terms

end

/-! ### An order that enters a book -/

namespace Market

variable {env : Env} {m : Market} {o : OrderRow}

/-- Which orders the vectors list after an order is accumulated. -/
theorem mem_ordersOf_accumulateOrder (queued : m.Queued)
    (unused : o.orderId ∉ m.db.orders.rows.map OrderRow.orderId)
    (known : m.db.clientExists o.clientId) {side : OrderType} {action : ID} {o' : OrderRow} :
    o' ∈ (m.accumulateOrder o).ordersOf side action ↔
      o' ∈ m.ordersOf side action ∨
        (side = o.orderType ∧ action = o.actionId) ∧ o' = entered o := by
  obtain ⟨-, place, -, after, -, -⟩ := queued.accumulateOrder unused known
  rw [after]
  split
  · rename_i here
    have old : o' ∈ m.ordersOf side action ↔
        o' ∈ (m.ordersOf side action).take place ++ (m.ordersOf side action).drop place := by
      rw [List.take_append_drop]
    rw [old]
    simp only [List.mem_append, List.mem_cons, here, and_self, true_and]
    tauto
  · rename_i elsewhere
    simp only [elsewhere, false_and, or_false]

/-- An order stands behind those of a lower rank and in front of the others. -/
theorem leads_accumulateOrder_iff (queued : m.Queued)
    (leads : ∀ side action, (m.ordersOf side action).Pairwise OrderRow.Leads)
    (unused : o.orderId ∉ m.db.orders.rows.map OrderRow.orderId)
    (known : m.db.clientExists o.clientId) :
    (∀ side action, ((m.accumulateOrder o).ordersOf side action).Pairwise OrderRow.Leads) ↔
      ∀ o' ∈ m.ordersOf o.orderType o.actionId,
        (o'.readRank o.orderType < o.readRank o.orderType → o'.Leads o) ∧
          (o.readRank o.orderType ≤ o'.readRank o.orderType → o.Leads o') := by
  obtain ⟨-, place, -, after, front, back⟩ := queued.accumulateOrder unused known
  have split := List.take_append_drop place (m.ordersOf o.orderType o.actionId)
  have sides : (∀ o' ∈ m.ordersOf o.orderType o.actionId,
        (o'.readRank o.orderType < o.readRank o.orderType → o'.Leads o) ∧
          (o.readRank o.orderType ≤ o'.readRank o.orderType → o.Leads o')) ↔
      (∀ o' ∈ (m.ordersOf o.orderType o.actionId).take place, o'.Leads o) ∧
        ∀ o' ∈ (m.ordersOf o.orderType o.actionId).drop place, o.Leads o' := by
    constructor
    · intro ranked
      exact ⟨fun o' mem => (ranked o' (List.mem_of_mem_take mem)).1 (front o' mem),
        fun o' mem => (ranked o' (List.mem_of_mem_drop mem)).2 (back o' mem)⟩
    · rintro ⟨before, behind⟩ o' mem
      rw [← split, List.mem_append] at mem
      rcases mem with mem | mem
      · exact ⟨fun _ => before o' mem, fun le => absurd (front o' mem) (not_lt.mpr le)⟩
      · exact ⟨fun lt => absurd lt (not_lt.mpr (back o' mem)), fun _ => behind o' mem⟩
  rw [sides]
  constructor
  · intro leads'
    have here := leads' o.orderType o.actionId
    rw [after, if_pos ⟨rfl, rfl⟩, Queue.pairwise_insert_iff] at here
    exact here.2
  · intro placed side action
    rw [after]
    split
    · rename_i here
      obtain ⟨rfl, rfl⟩ := here
      exact Queue.pairwise_insert_iff.mpr ⟨leads _ _, placed⟩
    · exact leads side action

/-- An order has to cross what is on the other side. -/
theorem meets_accumulateOrder_iff (queued : m.Queued) (first : m.MarketFirst)
    (unused : o.orderId ∉ m.db.orders.rows.map OrderRow.orderId)
    (known : m.db.clientExists o.clientId) :
    (∀ action, ∀ buyer ∈ (m.accumulateOrder o).ordersOf .buy action,
        ∀ seller ∈ (m.accumulateOrder o).ordersOf .sell action, buyer.Meets seller) ↔
      (o.orderType = .buy → ∀ seller ∈ m.ordersOf .sell o.actionId, o.Meets seller) ∧
        (o.orderType = .sell → ∀ buyer ∈ m.ordersOf .buy o.actionId, buyer.Meets o) := by
  simp only [mem_ordersOf_accumulateOrder queued unused known]
  constructor
  · intro meets
    exact ⟨fun buys seller mem =>
        meets _ (entered o) (.inr ⟨⟨buys.symm, rfl⟩, rfl⟩) seller (.inl mem),
      fun sells buyer mem =>
        meets _ buyer (.inl mem) (entered o) (.inr ⟨⟨sells.symm, rfl⟩, rfl⟩)⟩
  · rintro ⟨bought, sold⟩ action buyer (mem | ⟨⟨buys, rfl⟩, rfl⟩) seller
      (mem' | ⟨⟨sells, same⟩, rfl⟩)
    · exact first.meets action buyer mem seller mem'
    · exact sold sells.symm buyer (same ▸ mem)
    · exact bought buys.symm seller mem'
    · rw [← buys] at sells
      cases sells

/-- A bid. Offers at the market are for nothing, so it crosses them. -/
theorem not_upsetByBid_iff (queued : m.Queued) (marked : m.Marked) (priced : o.Priced)
    (buys : o.orderType = .buy) :
    ((∀ o' ∈ m.ordersOf .buy o.actionId,
        (o'.readRank .buy < o.readRank .buy → o'.Leads o) ∧
          (o.readRank .buy ≤ o'.readRank .buy → o.Leads o')) ∧
      ∀ seller ∈ m.ordersOf .sell o.actionId, o.Meets seller) ↔ ¬m.UpsetByBid o := by
  unfold UpsetByBid
  split
  · rename_i atMarket
    have price := priced.of_buy buys atMarket
    constructor
    · rintro ⟨leads, meets⟩ (⟨buyer, mem, limit, before⟩ | ⟨seller, mem, above⟩)
      · exact limit ((leads buyer mem).1 before atMarket)
      · have crosses := meets seller mem (.inl atMarket)
        rw [price] at crosses
        exact absurd above (not_lt.mpr crosses)
    · intro calm
      refine ⟨fun o' mem => ⟨fun before _ => ?_, fun _ _ => atMarket⟩, fun seller mem _ => ?_⟩
      · by_contra limit
        exact calm (.inl ⟨o', mem, limit, before⟩)
      · rw [price]
        exact not_lt.mp fun above => calm (.inr ⟨seller, mem, above⟩)
  · rename_i limit
    constructor
    · rintro ⟨leads, -⟩ ⟨buyer, mem, atMarket, behind⟩
      exact limit ((leads buyer mem).2 behind atMarket)
    · intro calm
      refine ⟨fun o' mem => ⟨fun _ atMarket => absurd atMarket limit, fun behind atMarket => ?_⟩,
        fun seller mem atMarket => ?_⟩
      · exact absurd ⟨o', mem, atMarket, behind⟩ calm
      · have free := ((marked.priced .sell _ seller mem).of_sell
          (queued.backed.rests mem).2.1).mp (atMarket.resolve_left limit)
        exact free ▸ priced.nonneg

/-- An offer. Only those at the market are for nothing, so they are in front of the others and
every bid crosses them. -/
theorem not_upsetByOffer_iff (queued : m.Queued) (marked : m.Marked) (priced : o.Priced)
    (sells : o.orderType = .sell) :
    ((∀ o' ∈ m.ordersOf .sell o.actionId,
        (o'.readRank .sell < o.readRank .sell → o'.Leads o) ∧
          (o.readRank .sell ≤ o'.readRank .sell → o.Leads o')) ∧
      ∀ buyer ∈ m.ordersOf .buy o.actionId, buyer.Meets o) ↔ ¬m.UpsetByOffer o := by
  have free : ∀ o' ∈ m.ordersOf .sell o.actionId, o'.triggerType = .market ↔ o'.price = 0 :=
    fun o' mem => (marked.priced .sell _ o' mem).of_sell (queued.backed.rests mem).2.1
  have leads : ∀ o' ∈ m.ordersOf .sell o.actionId,
      (o'.readRank .sell < o.readRank .sell → o'.Leads o) ∧
        (o.readRank .sell ≤ o'.readRank .sell → o.Leads o') := by
    intro o' mem
    have nonneg := (marked.priced .sell _ o' mem).nonneg
    refine ⟨fun before atMarket => ?_, fun behind atMarket => ?_⟩
    · have le := price_of_readRank_sell before.le
      rw [(priced.of_sell sells).mp atMarket] at le
      exact (free o' mem).mpr (le_antisymm le nonneg)
    · have le := price_of_readRank_sell behind
      rw [(free o' mem).mp atMarket] at le
      exact (priced.of_sell sells).mpr (le_antisymm le priced.nonneg)
  rw [and_iff_right leads]
  constructor
  · rintro meets ⟨above, buyer, mem, atMarket⟩
    have crosses := meets buyer mem (.inl atMarket)
    rw [(marked.priced .buy _ buyer mem).of_buy (queued.backed.rests mem).2.1 atMarket] at crosses
    exact absurd above (not_lt.mpr crosses)
  · rintro calm buyer mem (atMarket | atMarket)
    · rw [(marked.priced .buy _ buyer mem).of_buy (queued.backed.rests mem).2.1 atMarket]
      exact not_lt.mp fun above => calm ⟨above, buyer, mem, atMarket⟩
    · rw [(priced.of_sell sells).mp atMarket]
      exact (marked.priced .buy _ buyer mem).nonneg

/-- **A step lemma.** After an order is accumulated, MARKET orders come first and cross
everything if and only if the order does not upset the book. -/
theorem marketFirst_accumulateOrder_iff (queued : m.Queued) (marked : m.Marked)
    (priced : o.Priced) (unused : o.orderId ∉ m.db.orders.rows.map OrderRow.orderId) :
    (m.accumulateOrder o).MarketFirst ↔ ¬m.Upsets o := by
  by_cases known : m.db.clientExists o.clientId
  · have parts : (m.accumulateOrder o).MarketFirst ↔ _ ∧ _ :=
      ⟨fun first => ⟨first.leads, first.meets⟩, fun both => ⟨both.1, both.2⟩⟩
    rw [parts, leads_accumulateOrder_iff queued marked.first.leads unused known,
      meets_accumulateOrder_iff queued marked.first unused known]
    simp only [Upsets, known, true_and]
    cases side : o.orderType with
    | buy =>
        simp only [true_implies, reduceCtorEq, false_implies, and_true]
        exact not_upsetByBid_iff queued marked priced side
    | sell =>
        simp only [true_implies, reduceCtorEq, false_implies, true_and]
        exact not_upsetByOffer_iff queued marked priced side
  · have same : m.accumulateOrder o = m := by
      rw [Market.accumulateOrder, if_pos known]
    rw [same]
    exact iff_of_true marked.first fun upsets => known upsets.1

/-- The vectors of a market on which it depends. -/
theorem Marked.congr (marked : m.Marked) {m' : Market}
    (same : ∀ side action, m'.ordersOf side action = m.ordersOf side action) : m'.Marked := by
  refine ⟨fun side action => ?_, fun side action => ?_, fun action => ?_⟩
  · rw [same]
    exact marked.priced side action
  · rw [same]
    exact marked.first.leads side action
  · rw [same, same]
    exact marked.first.meets action

theorem Marked.accumulateOrder (marked : m.Marked) (queued : m.Queued) (priced : o.Priced)
    (unused : o.orderId ∉ m.db.orders.rows.map OrderRow.orderId) (calm : ¬m.Upsets o) :
    (m.accumulateOrder o).Marked := by
  refine ⟨fun side action o' mem => ?_,
    (marketFirst_accumulateOrder_iff queued marked priced unused).mpr calm⟩
  by_cases known : m.db.clientExists o.clientId
  · rcases (mem_ordersOf_accumulateOrder queued unused known).mp mem with old | ⟨-, rfl⟩
    · exact marked.priced side action o' old
    · exact priced
  · rw [Market.accumulateOrder, if_pos known] at mem
    exact marked.priced side action o' mem

/-- **The loops** take orders off the front, and what is left of an order stands where the order
stood. -/
theorem Marked.matchCall (marked : m.Marked) (fresh : env.Fresh)
    (order : IterationOrder ID (List ID)) (call : MatchCall) (backed : m.Backed) :
    (call.run env order m).1.Marked := by
  obtain ⟨-, left⟩ := leftOf_matchCall fresh order call backed
  have from_old : ∀ {side action}, ∀ o ∈ (call.run env order m).1.ordersOf side action,
      ∃ o' ∈ m.ordersOf side action, (o'.triggerType, o'.price) = (o.triggerType, o.price) := by
    intro side action o mem
    have suffix := (left side action).map_suffix (fun o => (o.triggerType, o.price))
      fun _ _ _ => rfl
    exact List.mem_map.mp (suffix.subset (List.mem_map_of_mem mem))
  refine ⟨fun side action o mem => ?_, fun side action => ?_,
    fun action buyer mem seller mem' => ?_⟩
  · have suffix := (left side action).map_suffix OrderRow.Priced fun _ _ _ => rfl
    obtain ⟨o', mem', same⟩ := List.mem_map.mp (suffix.subset (List.mem_map_of_mem mem))
    exact same ▸ marked.priced side action o' mem'
  · have suffix := (left side action).map_suffix OrderRow.triggerType fun _ _ _ => rfl
    have leads : ((m.ordersOf side action).map OrderRow.triggerType).Pairwise
        fun t t' => t' = .market → t = .market :=
      List.pairwise_map.mpr (marked.first.leads side action)
    have leads' := leads.sublist suffix.sublist
    rwa [List.pairwise_map] at leads'
  · obtain ⟨buyer', old, same⟩ := from_old buyer mem
    obtain ⟨seller', old', same'⟩ := from_old seller mem'
    have meets := marked.first.meets action buyer' old seller' old'
    obtain ⟨trigger, price⟩ := Prod.mk.inj same
    obtain ⟨trigger', price'⟩ := Prod.mk.inj same'
    rwa [OrderRow.Meets, trigger, trigger', price, price'] at meets

end Market

/-! ### Runs -/

namespace Server

/-- A step that does what an order entering the book does is of one that does not upset it. -/
def Calm (env : Env) (s s' : Server) : Prop :=
  ∀ front o back, s.tasks = front ++ .enter o :: back →
    s' = ({ s with tasks := front ++ back } : Server).perform env (.enter o) →
    ¬s.market.Upsets o

/-- The vectors, and what is to enter them. -/
structure Marked (s : Server) : Prop where
  market : s.market.Marked
  tasks : ∀ o, .enter o ∈ s.tasks → o.Priced

variable {env : Env} {order : IterationOrder ID (List ID)} {s s' : Server} {d : Database}
  {o : OrderRow}

theorem Marked.addTask (marked : s.Marked) {t : Task} (priced : ∀ o, t = .enter o → o.Priced) :
    (s.addTask t).Marked := by
  refine ⟨marked.market, fun o mem => ?_⟩
  rcases List.mem_append.mp mem with old | last
  · exact marked.tasks o old
  · exact priced o (List.mem_singleton.mp last).symm

/-- A database that keeps the PENDING rows. -/
theorem Marked.withDb (marked : s.Marked) (queued : s.market.Queued)
    (stay : ∀ o ∈ s.market.db.orders.rows, o.orderStatus = .pending → o ∈ d.orders.rows) :
    (s.withDb d).Marked :=
  ⟨marked.market.congr (queued.withDb stay).2, marked.tasks⟩

/-- An order is put into the book, and matched in the continuous trading period. -/
theorem Marked.enter (marked : s.Marked) (orderly : s.Orderly) (fresh : env.Fresh)
    (priced : o.Priced) (counts : o.Counts)
    (unused : o.orderId ∉ s.market.db.orders.rows.map OrderRow.orderId)
    (calm : ¬s.market.Upsets o) : (s.perform env (.enter o)).Marked := by
  have entered := marked.market.accumulateOrder orderly.queued priced unused calm
  refine ⟨?_, marked.tasks⟩
  simp only [Server.perform]
  split
  · exact entered.matchCall fresh .stored (.continuousTrading o.actionId)
      (orderly.entered counts unused).queued.backed
  · exact entered

theorem marked_start (d : Database) : ({ market := { db := d } } : Server).Marked := by
  have none : ∀ side action, ({ db := d } : Market).ordersOf side action = [] := by
    intro side action
    cases side <;> rfl
  refine ⟨⟨?_, ?_, ?_⟩, fun _ mem => absurd mem List.not_mem_nil⟩
  all_goals simp [none]

/-- What waits is no MARKET order and was given a price. -/
theorem priced_of_waits (reachable : Reachable env order s)
    (waits : o ∈ s.market.db.getWaitingOrders) : o.Priced := by
  obtain ⟨line, id, date, daily, d, o', taken, -, rfl⟩ := reachable.submitted waits
  have priced : o'.Priced := priced_of_admitOrder taken
  exact priced

/-- **A step lemma.** -/
theorem Marked.step (marked : s.Marked) (orderly : s.Orderly) (reachable : Reachable env order s)
    (fresh : env.Fresh) (distinct : s.DistinctIds) (step : Step env order s s')
    (calm : Calm env s s') : s'.Marked := by
  cases step with
  | deposit client amount known =>
      refine marked.withDb orderly.queued fun o mem _ => ?_
      rw [orders_deposit]
      exact mem
  | askWithdrawal client amount known covered => exact marked.addTask fun _ enter => nomatch enter
  | @placeOrder line id date daily o free taken =>
      refine marked.addTask fun o' enter => ?_
      unfold orderTask at enter
      split at enter
      · exact Task.enter.inj enter ▸ priced_of_admitOrder taken
      · cases enter
  | @perform t front back next =>
      have others : ({ s with tasks := front ++ back } : Server).Marked := by
        refine ⟨marked.market, fun o mem => marked.tasks o ?_⟩
        rw [next]
        exact (List.sublist_append_right [t] back |>.append_left front).subset mem
      have tasks := orderly.tasks
      rw [next, List.forall_mem_append, List.forall_mem_cons] at tasks
      obtain ⟨before, counts, behind⟩ := tasks
      have rest : ({ s with tasks := front ++ back } : Server).Orderly :=
        { orderly with tasks := List.forall_mem_append.mpr ⟨before, behind⟩ }
      cases t with
      | enter o =>
          have listed : Task.enter o ∈ s.tasks := by
            rw [next]
            exact List.mem_append_right _ List.mem_cons_self
          exact others.enter rest fresh (marked.tasks o listed) (counts o List.mem_cons_self)
            (distinct.unused listed List.mem_cons_self) (calm front o back next rfl)
      | wait o =>
          exact others.withDb orderly.queued fun o' mem _ => Relation.mem_insert_of_mem mem
      | withdraw client amount => exact others.withDb orderly.queued fun _ mem _ => mem
  | expire nowDate nowDaily waits expired =>
      exact marked.withDb orderly.queued (stay_removeWaitingOrder _ _)
  | release nowDate nowDaily waits lasts triggered =>
      refine (marked.withDb orderly.queued (stay_removeWaitingOrder _ _)).addTask fun o enter => ?_
      exact Task.enter.inj enter ▸ priced_of_waits reachable waits
  | fixing =>
      exact ⟨marked.market.matchCall fresh order .fixing orderly.queued.backed, marked.tasks⟩
  | period running => exact { marked with }
  | play => exact marked_start s.market.db

/-- The runs in which no order upsets the book it enters. -/
def CalmRuns (env : Env) (order : IterationOrder ID (List ID)) : Server → Server → Prop :=
  Relation.ReflTransGen fun s s' => s.DistinctIds ∧ Calm env s s' ∧ Step env order s s'

/-- No order enters. -/
theorem calm_of_idle (idle : ∀ o, .enter o ∉ s.tasks) : Calm env s s' := by
  intro front o back next _
  refine absurd ?_ (idle o)
  rw [next]
  exact List.mem_append_right _ List.mem_cons_self

/-- One order enters, and it does not upset the book. -/
theorem calm_of_single (single : s.tasks = [.enter o]) (calm : ¬s.market.Upsets o) :
    Calm env s s' := by
  intro front o' back next _
  have listed : Task.enter o' ∈ s.tasks := by
    rw [next]
    exact List.mem_append_right _ List.mem_cons_self
  rw [single] at listed
  obtain rfl := Task.enter.inj (List.mem_singleton.mp listed)
  exact calm

end Server

/-! ### Two orders of `init` -/

instance (o : OrderRow) (m : Market) : Decidable (m.UpsetByBid o) := by
  unfold Market.UpsetByBid
  infer_instance

instance (o : OrderRow) (m : Market) : Decidable (m.UpsetByOffer o) := by
  unfold Market.UpsetByOffer
  infer_instance

end StockMarket.Sql
