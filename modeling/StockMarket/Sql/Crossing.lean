import StockMarket.Sql.Priority
import StockMarket.Sql.Session

/-!
What continuous trading leaves of the books of an action.

After `process_continuous_trading` every BUY order should be below every SELL order
(`Market.Uncrossed`). Of the four ways out of its loop only two say so. The loop also stops
at an order of a client there is not and at an order of no quantity. The first does not
happen; the second does, since `can_afford` lets an order to BUY nothing pass. Such an order
blocks the queue behind it if the SELL orders at its price or below offer more than the BUY
orders in front of it want (`Market.Blocked`), and then, and only then, the books stay
crossed (`uncrossed_iff_not_blocked`).

What is left of an order is opened with the price that was read, so a vector may lose its order
where that is another one. The runs here (`Server.Runs`) are those whose loops fill no such
order in part.
-/

namespace StockMarket.Sql

open Client Database

/-! ### One pair after the other -/

/-- The quantity of some orders. -/
def totalQuantity (os : List OrderRow) : Int := (os.map OrderRow.quantity).sum

/-- The quantity offered at a price or below. -/
def offered (sells : List OrderRow) (p : ℚ) : Int :=
  totalQuantity (sells.filter fun o => o.price ≤ p)

/-- There is an order to buy nothing at whose price more is offered than the orders in front
of it, and a quantity that is already given away, want. -/
def Blocks (given : Int) (buys sells : List OrderRow) : Prop :=
  ∃ front o back, buys = front ++ o :: back ∧ o.quantity ≤ 0 ∧
    given + totalQuantity front < offered sells o.price

/-- The books of an action as admission leaves them: sorted by price, and only an order to
BUY may be for nothing. -/
structure Books (buys sells : List OrderRow) : Prop where
  falling : buys.Pairwise fun o o' => o'.price ≤ o.price
  rising : sells.Pairwise fun o o' => o.price ≤ o'.price
  nonneg : ∀ o ∈ buys, 0 ≤ o.quantity
  positive : ∀ o ∈ sells, 0 < o.quantity

section

variable {buys sells : List OrderRow} {o buyer seller : OrderRow} {given : Int} {p : ℚ}

theorem totalQuantity_nonneg (nonneg : ∀ o ∈ buys, 0 ≤ o.quantity) : 0 ≤ totalQuantity buys :=
  List.sum_nonneg fun q mem => by
    obtain ⟨o, here, rfl⟩ := List.mem_map.mp mem
    exact nonneg o here

theorem offered_cons :
    offered (o :: sells) p = (if o.price ≤ p then o.quantity else 0) + offered sells p := by
  by_cases here : o.price ≤ p <;> simp [offered, totalQuantity, here]

theorem offered_nonneg (positive : ∀ o ∈ sells, 0 < o.quantity) : 0 ≤ offered sells p :=
  totalQuantity_nonneg fun o mem => (positive o (List.mem_filter.mp mem).1).le

/-- Nothing is offered below the first price. -/
theorem offered_eq_zero (above : ∀ o ∈ sells, p < o.price) : offered sells p = 0 := by
  have none : sells.filter (fun o => o.price ≤ p) = [] :=
    List.filter_eq_nil_iff.mpr fun o mem => by simpa using above o mem
  rw [offered, none]
  rfl

/-- What is left of an offer. -/
theorem offered_leftover (id : ID) {quantity : Int} (enough : quantity ≤ seller.quantity) :
    offered (seller.leftover id quantity ++ sells) p
      = (if seller.price ≤ p then seller.quantity - quantity else 0) + offered sells p := by
  unfold OrderRow.leftover
  split
  · exact offered_cons
  · have gone : seller.quantity - quantity = 0 := by omega
    simp [gone]

theorem blocks_cons (some : 0 < o.quantity) :
    Blocks given (o :: buys) sells ↔ Blocks (given + o.quantity) buys sells := by
  constructor
  · rintro ⟨front, z, back, split, nothing, more⟩
    rcases front with _ | ⟨o', front⟩
    · simp only [List.nil_append, List.cons.injEq] at split
      rw [← split.1] at nothing
      omega
    · simp only [List.cons_append, List.cons.injEq] at split
      obtain ⟨rfl, rfl⟩ := split
      refine ⟨front, z, back, rfl, nothing, ?_⟩
      simpa [totalQuantity, add_assoc] using more
  · rintro ⟨front, z, back, rfl, nothing, more⟩
    refine ⟨o :: front, z, back, rfl, nothing, ?_⟩
    simpa [totalQuantity, add_assoc] using more

/-- What is left of a purchase is still wanted. -/
theorem blocks_leftover (id : ID) {quantity : Int} (enough : quantity ≤ buyer.quantity) :
    Blocks 0 (buyer.leftover id quantity ++ buys) sells
      ↔ Blocks (buyer.quantity - quantity) buys sells := by
  unfold OrderRow.leftover
  split
  · rename_i more
    have some : 0 < buyer.quantity - quantity := by omega
    have shifted : Blocks 0 ({ buyer with orderId := id, quantity := buyer.quantity - quantity } ::
        buys) sells ↔ Blocks (0 + (buyer.quantity - quantity)) buys sells := blocks_cons some
    simpa using shifted
  · have gone : buyer.quantity - quantity = 0 := by omega
    simp [gone]

/-- **One round.** An order blocks the queue after it if and only if it does before. -/
theorem blocks_round (books : Books (buyer :: buys) (seller :: sells)) (some : 0 < buyer.quantity)
    (id id' : ID) :
    Blocks 0 (buyer.leftover id (min buyer.quantity seller.quantity) ++ buys)
        (seller.leftover id' (min buyer.quantity seller.quantity) ++ sells)
      ↔ Blocks 0 (buyer :: buys) (seller :: sells) := by
  set quantity := min buyer.quantity seller.quantity
  have less : quantity ≤ buyer.quantity := min_le_left _ _
  have less' : quantity ≤ seller.quantity := min_le_right _ _
  have above := (List.pairwise_cons.mp books.rising).1
  rw [blocks_leftover id less, blocks_cons some, zero_add]
  refine exists_congr fun front => exists_congr fun o => exists_congr fun back =>
    and_congr_right fun split => and_congr_right fun _ => ?_
  have wanted : 0 ≤ totalQuantity front := totalQuantity_nonneg fun o' mem =>
    books.nonneg o' (by simp [split, mem])
  rw [offered_leftover id' less', offered_cons]
  by_cases accepts : seller.price ≤ o.price
  · simp only [accepts, if_true]
    omega
  · -- no offer is at the price of `o`
    have none : offered sells o.price = 0 :=
      offered_eq_zero fun o' mem => lt_of_lt_of_le (not_le.mp accepts) (above o' mem)
    simp only [accepts, if_false, none]
    omega

theorem pairwise_leftover {R : OrderRow → OrderRow → Prop} (sorted : (o :: buys).Pairwise R)
    (same : ∀ id quantity o', R o o' → R { o with orderId := id, quantity := quantity } o')
    (id : ID) (quantity : Int) : (o.leftover id quantity ++ buys).Pairwise R := by
  have ⟨first, later⟩ := List.pairwise_cons.mp sorted
  unfold OrderRow.leftover
  split
  · exact List.pairwise_cons.mpr ⟨fun o' mem => same _ _ o' (first o' mem), later⟩
  · exact later

theorem forall_leftover {P : OrderRow → Prop} (all : ∀ o' ∈ o :: buys, P o') (id : ID)
    (quantity : Int) (left : quantity < o.quantity →
      P { o with orderId := id, quantity := o.quantity - quantity }) :
    ∀ o' ∈ o.leftover id quantity ++ buys, P o' := by
  have later := (List.forall_mem_cons.mp all).2
  unfold OrderRow.leftover
  split
  · rename_i more
    exact List.forall_mem_cons.mpr ⟨left more, later⟩
  · exact later

theorem Books.round (books : Books (buyer :: buys) (seller :: sells)) (id id' : ID)
    (quantity : Int) :
    Books (buyer.leftover id quantity ++ buys) (seller.leftover id' quantity ++ sells) where
  falling := pairwise_leftover books.falling (fun _ _ _ le => le) id quantity
  rising := pairwise_leftover books.rising (fun _ _ _ le => le) id' quantity
  nonneg := forall_leftover books.nonneg id quantity fun more => (sub_pos.mpr more).le
  positive := forall_leftover books.positive id' quantity fun more => sub_pos.mpr more

/-- Below every offer no order blocks the queue. -/
theorem Books.not_blocks (books : Books buys sells)
    (below : ∀ o ∈ buys, ∀ o' ∈ sells, o.price < o'.price) : ¬Blocks 0 buys sells := by
  rintro ⟨front, o, back, rfl, -, more⟩
  have wanted : 0 ≤ totalQuantity front := totalQuantity_nonneg fun o' mem =>
    books.nonneg o' (by simp [mem])
  rw [offered_eq_zero (below o (by simp))] at more
  omega

/-- If the first two orders do not cross, no two orders do. -/
theorem Books.below (books : Books (buyer :: buys) (seller :: sells))
    (apart : buyer.price < seller.price) :
    ∀ o ∈ buyer :: buys, ∀ o' ∈ seller :: sells, o.price < o'.price := by
  intro o mem o' mem'
  have le : o.price ≤ buyer.price := by
    rcases List.mem_cons.mp mem with rfl | later
    · exact le_rfl
    · exact (List.pairwise_cons.mp books.falling).1 o later
  have le' : seller.price ≤ o'.price := by
    rcases List.mem_cons.mp mem' with rfl | later
    · exact le_rfl
    · exact (List.pairwise_cons.mp books.rising).1 o' later
  exact lt_of_le_of_lt le (lt_of_lt_of_le apart le')

/-- **Where the loop ends**, at prices that do not cross or at an order to buy nothing, all
prices are apart if and only if no order blocks the queue. -/
theorem Books.apart_iff (books : Books buys sells)
    (ends : ∀ buyer buys' seller sells', buys = buyer :: buys' → sells = seller :: sells' →
      buyer.price < seller.price ∨ seller.price ≤ buyer.price ∧ buyer.quantity ≤ 0) :
    (∀ o ∈ buys, ∀ o' ∈ sells, o.price < o'.price) ↔ ¬Blocks 0 buys sells := by
  refine ⟨books.not_blocks, fun free => ?_⟩
  rcases buys with _ | ⟨buyer, buys⟩
  · simp
  rcases sells with _ | ⟨seller, sells⟩
  · simp
  rcases ends buyer buys seller sells rfl rfl with apart | ⟨crosses, nothing⟩
  · exact books.below apart
  · have ⟨first, later⟩ := List.forall_mem_cons.mp books.positive
    have rest := offered_nonneg (p := buyer.price) later
    refine absurd ⟨[], buyer, buys, rfl, nothing, ?_⟩ free
    rw [offered_cons, if_pos crosses]
    simp only [totalQuantity, List.map_nil, List.sum_nil]
    omega

end

/-! ### What the loop reads -/

section

variable {d : Database} {buyer seller : OrderRow}

/-- A pair that the loop does not settle. -/
theorem of_continuousPairText_none {text : ℚ → ℚ} (mem : buyer ∈ d.orders.rows)
    (mem' : seller ∈ d.orders.rows) (known : d.clientExists buyer.clientId)
    (known' : d.clientExists seller.clientId) (positive : 0 < seller.quantity)
    (none : continuousPairText text d buyer.orderId seller.orderId = none) :
    buyer.price < seller.price ∨ seller.price ≤ buyer.price ∧ buyer.quantity ≤ 0 := by
  have pair := (MatchCall.continuousTrading 0).pair_eq text mem mem'
  rw [show MatchCall.pair text (.continuousTrading 0) d buyer.orderId seller.orderId = _ from none]
    at pair
  split at pair
  · cases pair
  · rename_i refused
    by_contra crosses
    obtain ⟨cross, some⟩ := not_or.mp crosses
    have some := not_and.mp some (not_lt.mp cross)
    exact refused ⟨not_lt.mp cross, ⟨known, known'⟩, not_le.mp some, positive⟩

end

/-! ### Books of a market -/

namespace Market

/-- No BUY order of an action is at the price of a SELL order or above: one side is empty, or
the best BUY price is below the best SELL price. -/
def Uncrossed (action : ID) (m : Market) : Prop :=
  ∀ buy ∈ m.orderIds .buy action, ∀ sell ∈ m.orderIds .sell action,
    m.db.getPrice buy < m.db.getPrice sell

/-- An order to buy nothing is in front of offers at its price or below that the orders in
front of it do not exhaust. -/
def Blocked (action : ID) (m : Market) : Prop :=
  ∃ front o back, m.ordersOf .buy action = front ++ o :: back ∧ o.quantity ≤ 0 ∧
    (front.map OrderRow.quantity).sum < m.supply action o.price

/-- What admission lets into the vectors: orders of clients there are, for a quantity, or to
BUY nothing. -/
structure Admitted (m : Market) : Prop where
  queued : m.Queued
  known : ∀ side action, ∀ o ∈ m.ordersOf side action, m.db.clientExists o.clientId
  nonneg : ∀ side action, ∀ o ∈ m.ordersOf side action, 0 ≤ o.quantity
  positive : ∀ action, ∀ o ∈ m.ordersOf .sell action, 0 < o.quantity

variable {env : Env} {m : Market} {action : ID} {orders others : OrderType → ID → List OrderRow}
  {text : ℚ → ℚ}

theorem Queued.falling (queued : m.Queued) (action : ID) :
    (m.ordersOf .buy action).Pairwise fun o o' => o'.price ≤ o.price := by
  refine (List.pairwise_map.mp (queued.ranked .buy action)).imp fun {o o'} le => ?_
  rcases Prod.Lex.toLex_le_toLex.mp le with lower | ⟨same, -⟩
  · exact (neg_lt_neg_iff.mp lower).le
  · exact (neg_injective same).ge

theorem Queued.rising (queued : m.Queued) (action : ID) :
    (m.ordersOf .sell action).Pairwise fun o o' => o.price ≤ o'.price := by
  refine (List.pairwise_map.mp (queued.ranked .sell action)).imp fun {o o'} le => ?_
  rcases Prod.Lex.toLex_le_toLex.mp le with lower | ⟨same, -⟩
  · exact lower.le
  · exact same.le

theorem Admitted.books (admitted : m.Admitted) (action : ID) :
    Books (m.ordersOf .buy action) (m.ordersOf .sell action) :=
  ⟨admitted.queued.falling action, admitted.queued.rising action, admitted.nonneg .buy action,
    admitted.positive action⟩

theorem blocked_iff : m.Blocked action
    ↔ Blocks 0 (m.ordersOf .buy action) (m.ordersOf .sell action) := by
  simp only [Blocked, Blocks, zero_add]
  rfl

theorem Lists.uncrossed_iff (lists : m.Lists orders others) (action : ID) : m.Uncrossed action ↔
    ∀ buyer ∈ orders .buy action, ∀ seller ∈ orders .sell action, buyer.price < seller.price := by
  simp only [Uncrossed, lists.ids, List.forall_mem_map]
  refine forall₂_congr fun buyer mem => forall₂_congr fun seller mem' => ?_
  rw [getPrice_of_mem (lists.row_mem mem), getPrice_of_mem (lists.row_mem mem')]

/-- Matching adds and removes no client. -/
theorem clientExists_runText (text : ℚ → ℚ) (fresh : env.Fresh)
    (order : IterationOrder ID (List ID))
    (backed : m.Backed) (call : MatchCall) (client : ID) :
    (call.runText text env order m).1.db.clientExists client = m.db.clientExists client := by
  obtain ⟨others, lists⟩ := backed.lists
  rw [call.runText_eq_chain]
  have kept := Loop.keeps_chain
    (keeps_strands_matchAction (call.readsOrders_pair text) fresh others) (call.actions order m) m
    ⟨_, lists⟩
  exact congrFun (kept.quantity fun _ _ => trivial) client

/-- The vectors stay as they are on a database that keeps the PENDING rows. -/
theorem Queued.withDb (queued : m.Queued) {d : Database}
    (stay : ∀ o ∈ m.db.orders.rows, o.orderStatus = .pending → o ∈ d.orders.rows) :
    ({ m with db := d } : Market).Queued ∧
      ∀ side action, ({ m with db := d } : Market).ordersOf side action
      = m.ordersOf side action := by
  have ids : ∀ side action,
      ({ m with db := d } : Market).orderIds side action = m.orderIds side action := by
    intro side action
    cases side <;> rfl
  have rows : ∀ side action, ∀ o ∈ m.ordersOf side action, o ∈ d.orders.rows :=
    fun side action o mem => stay o (queued.backed.row_mem mem) (queued.backed.rests mem).1
  have same : ∀ side action,
      ({ m with db := d } : Market).ordersOf side action = m.ordersOf side action := by
    intro side action
    refine ordersOf_eq ?_ (rows side action)
    rw [ids, queued.backed.ids]
  refine ⟨⟨backed_iff.mpr fun side action => ?_, fun side action => ?_⟩, same⟩
  · rw [ids]
    refine ⟨(backed_iff.mp queued.backed side action).1, fun id mem => ?_⟩
    rw [queued.backed.ids] at mem
    obtain ⟨o, listed, rfl⟩ := List.mem_map.mp mem
    exact ⟨o, rows side action o listed, rfl, queued.backed.rests listed⟩
  · rw [same]
    exact queued.ranked side action

/-- **Continuous trading uncrosses the books** if and only if no order to buy nothing blocks
them, as long as what is left of an order reads back. -/
theorem Admitted.uncrossed_iff (admitted : m.Admitted) (fresh : env.Fresh) (action : ID)
    (readBack : m.ReadsBack text .stored (.continuousTrading action)) :
    (m.processContinuousTradingText text env action).1.Uncrossed action ↔ ¬m.Blocked action := by
  obtain ⟨others, lists⟩ := admitted.queued.backed.lists
  obtain ⟨orders, lists', ⟨books, known, blocks⟩, halted⟩ :=
    lists.matchAction_of_read (.continuousTrading action) fresh action
      (Q := fun buys sells => Books buys sells ∧
        (∀ o ∈ buys ++ sells, m.db.clientExists o.clientId) ∧
        (Blocks 0 buys sells ↔ m.Blocked action))
      ⟨admitted.books action, List.forall_mem_append.mpr ⟨admitted.known _ _, admitted.known _ _⟩,
        blocked_iff.symm⟩ (by
        rintro buyer buys seller sells id id' - some ⟨books, known, blocks⟩
        refine ⟨books.round id id' _, ?_, ?_⟩
        · have ⟨bought, sold⟩ := List.forall_mem_append.mp known
          exact List.forall_mem_append.mpr
            ⟨forall_leftover bought id _ fun _ => bought buyer List.mem_cons_self,
              forall_leftover sold id' _ fun _ => sold seller List.mem_cons_self⟩
        · exact (blocks_round books (lt_min_iff.mp some).1 id id').trans blocks)
      (readBack action List.mem_cons_self)
  rw [← blocks]
  have uncrossed := lists'.uncrossed_iff action
  simp only [withOrders, if_pos] at uncrossed
  refine uncrossed.trans (books.apart_iff fun buyer buys seller sells some some' => ?_)
  have mem : buyer ∈ withOrders (m.ordersOf · ·) action orders .buy action := by
    simp [withOrders, some]
  have mem' : seller ∈ withOrders (m.ordersOf · ·) action orders .sell action := by
    simp [withOrders, some']
  have clients := clientExists_runText text fresh .stored admitted.queued.backed
    (.continuousTrading action)
  refine of_continuousPairText_none (lists'.row_mem mem) (lists'.row_mem mem') ?_ ?_ ?_
    (halted buyer buys seller sells some some')
  · exact (clients _).trans (known buyer (by simp [some]))
  · exact (clients _).trans (known seller (by simp [some']))
  · exact books.positive seller (by simp [some'])

end Market

/-! ### What admission lets pass -/

/-- An order is for a quantity, or to BUY nothing. -/
def OrderRow.Counts (o : OrderRow) : Prop :=
  0 ≤ o.quantity ∧ (o.orderType = .sell → 0 < o.quantity)

section

variable {env : Env} {d : Database} {line : OrderLine} {id date daily : ID} {o : OrderRow}

theorem counts_of_pos (pos : 0 < o.quantity) : o.Counts := ⟨pos.le, fun _ => pos⟩

/-- What `can_afford` lets pass at a positive price is for no negative quantity. -/
theorem nonneg_of_canAfford {client action : ID} {quantity : Int} {price : ℚ} (pos : 0 < price)
    (afford : canAfford env client action quantity price d) : 0 ≤ quantity := by
  unfold canAfford at afford
  split at afford
  · cases afford
  · rename_i amount asked
    obtain ⟨nonneg, -⟩ := of_decide_eq_true afford
    unfold cost at asked
    split at asked
    · simp only at asked
      split at asked
      · cases asked
      · rename_i current
        obtain rfl := Option.some.inj asked
        rw [mul_assoc] at nonneg
        have unit : 0 < d.getActionCurrentPrice env action * safetyPercentage :=
          mul_pos (not_le.mp current) (by decide +kernel)
        exact_mod_cast nonneg_of_mul_nonneg_left nonneg unit
    · obtain rfl := Option.some.inj asked
      exact_mod_cast nonneg_of_mul_nonneg_left nonneg pos

/-- **Admission.** -/
theorem counts_of_admitOrder (taken : admitOrder env line id date daily d = .ok o) :
    o.Counts := by
  obtain ⟨-, -, -, -, -, covered, held⟩ := admitOrder_ok taken
  cases type : o.orderType with
  | buy =>
      have nonneg := nonneg_of_canAfford (pos_of_admitOrder taken type) (covered type)
      exact ⟨nonneg, fun sells => by simp [type] at sells⟩
  | sell =>
      have held := held type
      simp only [hasShares, decide_eq_true_eq] at held
      exact counts_of_pos held.1

end

/-! ### A server that reads prices from texts -/

namespace Server

/-- The matching loop that a task runs, and the market it starts on. -/
def loopOf (s : Server) : Task → Option (Market × MatchCall)
  | .enter o =>
    if s.isContinuousTradingPeriod then
      some (s.market.accumulateOrder o, .continuousTrading o.actionId)
    else none
  | _ => none

/-- Do a task. -/
def performText (text : ℚ → ℚ) (env : Env) (s : Server) : Task → Server
  | .enter o =>
    let m := s.market.accumulateOrder o
    { s with
      market := if s.isContinuousTradingPeriod then
        (m.processContinuousTradingText text env o.actionId).1 else m }
  | t => s.perform env t

/-- One step of one thread, and the loop it runs. The watcher reads its rows from texts, too. -/
inductive StepText (text : ℚ → ℚ) (env : Env) (order : IterationOrder ID (List ID)) :
    Option (Market × MatchCall) → Server → Server → Prop where
  | deposit {s : Server} (client : ID) (amount : ℚ) (known : s.market.db.clientExists client) :
      StepText text env order none s (s.withDb (Client.deposit client amount s.market.db))
  | askWithdrawal {s : Server} (client : ID) (amount : ℚ)
      (known : s.market.db.clientExists client)
      (covered : canAfford env client (-1) 1 amount s.market.db) :
      StepText text env order none s (s.addTask (.withdraw client amount))
  | placeOrder {s : Server} (line : OrderLine) (id date daily : ID) {o : OrderRow}
      (free : s.market.db.orderIdIsFree id)
      (taken : admitOrder env line id date daily s.market.db = .ok o) :
      StepText text env order none s (s.addTask (orderTask o))
  | perform {s : Server} {t : Task} {front back : List Task} (next : s.tasks = front ++ t :: back) :
      StepText text env order (s.loopOf t) s
        ({ s with tasks := front ++ back }.performText text env t)
  | expire {s : Server} {o : OrderRow} (nowDate nowDaily : ID)
      (waits : o ∈ s.market.db.getWaitingOrders) (expired : isExpired nowDate nowDaily o) :
      StepText text env order none s
        (s.withDb (removeWaitingOrder o.clientId o.orderId s.market.db))
  | release {s : Server} {o : OrderRow} (nowDate nowDaily : ID)
      (waits : o ∈ s.market.db.getWaitingOrders) (lasts : ¬ isExpired nowDate nowDaily o)
      (triggered : isTriggered env s.market.db (o.read text)) :
      StepText text env order none s
        ((s.withDb (removeWaitingOrder o.clientId o.orderId s.market.db)).addTask
          (.enter (o.read text)))
  | fixing {s : Server} :
      StepText text env order (some (s.market, .fixing)) s
        { s with market := (s.market.processFixingText text env order).1 }
  | period {s : Server} (running : Bool) :
      StepText text env order none s { s with isContinuousTradingPeriod := running }
  | play {s : Server} : StepText text env order none s { market := { db := s.market.db } }

/-- The loop of a step fills in part only orders that read back. -/
def LoopReadsBack (text : ℚ → ℚ) (order : IterationOrder ID (List ID)) :
    Option (Market × MatchCall) → Prop
  | some (m, call) => m.ReadsBack text order call
  | none => True

/-! ### What the server keeps -/

/-- What holds between two steps. -/
structure Orderly (s : Server) : Prop where
  queued : s.market.Queued
  known : ∀ side action, ∀ o ∈ s.market.ordersOf side action, s.market.db.clientExists o.clientId
  rows : ∀ o ∈ s.market.db.orders.rows, o.Counts
  tasks : ∀ t ∈ s.tasks, ∀ o ∈ t.orders, o.Counts

variable {env : Env} {order : IterationOrder ID (List ID)} {s s' : Server} {d : Database}
  {text : ℚ → ℚ}

theorem Orderly.admitted (orderly : s.Orderly) : s.market.Admitted where
  queued := orderly.queued
  known := orderly.known
  nonneg _ _ o mem := (orderly.rows o (orderly.queued.backed.row_mem mem)).1
  positive _ o mem := (orderly.rows o (orderly.queued.backed.row_mem mem)).2
    (orderly.queued.backed.rests mem).2.1

theorem Orderly.addTask (orderly : s.Orderly) {t : Task} (counts : ∀ o ∈ t.orders, o.Counts) :
    (s.addTask t).Orderly :=
  { orderly with
    tasks := List.forall_mem_append.mpr ⟨orderly.tasks, by simpa using counts⟩ }

/-- A database that keeps the PENDING rows and the clients. -/
theorem Orderly.withDb (orderly : s.Orderly)
    (stay : ∀ o ∈ s.market.db.orders.rows, o.orderStatus = .pending → o ∈ d.orders.rows)
    (clients : ∀ c, d.clientExists c = s.market.db.clientExists c)
    (rows : ∀ o ∈ d.orders.rows, o.Counts) : (s.withDb d).Orderly := by
  obtain ⟨queued, same⟩ := orderly.queued.withDb stay
  refine ⟨queued, fun side action o mem => ?_, rows, orderly.tasks⟩
  have mem' : o ∈ s.market.ordersOf side action := same side action ▸ mem
  exact (clients _).trans (orderly.known side action o mem')

theorem orderly_start (rows : ∀ o ∈ d.orders.rows, o.Counts) :
    ({ market := { db := d } } : Server).Orderly := by
  have none : ∀ side action, ({ db := d } : Market).ordersOf side action = [] := by
    intro side action
    cases side <;> rfl
  refine ⟨⟨(Market.strands_start d).backed, ?_⟩, ?_, rows, ?_⟩
  all_goals simp [none]

/-- A market that is matched. -/
theorem Orderly.matched (orderly : s.Orderly) (fresh : env.Fresh)
    (order : IterationOrder ID (List ID)) {call : MatchCall}
    (readBack : s.market.ReadsBack text order call) :
    ({ s with market := (call.runText text env order s.market).1 } : Server).Orderly := by
  obtain ⟨queued, trails⟩ := orderly.queued.runText fresh order readBack
  have clients := Market.clientExists_runText text fresh order orderly.queued.backed call
  refine ⟨queued, fun side action o mem => ?_, ?_, orderly.tasks⟩
  · obtain ⟨o', mem', same⟩ := List.mem_map.mp
      ((trails side action).subset (List.mem_map_of_mem mem))
    have client : o'.clientId = o.clientId := congrArg (fun t => t.2.2.2) same
    exact client ▸ (clients _).trans (orderly.known side action o' mem')
  · have part : ∀ o o' : OrderRow, o.Counts → o'.clientId = o.clientId →
        o'.orderStatus ≠ .waiting → 0 < o'.quantity → o'.Counts :=
      fun _ _ _ _ _ pos => counts_of_pos pos
    simp only [call.runText_eq_chain]
    exact (Loop.keeps_chain
      (Market.keeps_rows_matchAction (call.readsOrders_pair text) part env) _ _ orderly.rows).inv

/-- An order that is accumulated. -/
theorem Orderly.entered (orderly : s.Orderly) {o : OrderRow} (counts : o.Counts)
    (unused : o.orderId ∉ s.market.db.orders.rows.map OrderRow.orderId) :
    ({ s with market := s.market.accumulateOrder o } : Server).Orderly := by
  by_cases known : s.market.db.clientExists o.clientId
  · obtain ⟨queued, place, -, after, -, -⟩ := orderly.queued.accumulateOrder unused known
    refine ⟨queued, fun side action o' mem => ?_, ?_, orderly.tasks⟩
    · have clients : ∀ c, (s.market.accumulateOrder o).db.clientExists c
          = s.market.db.clientExists c := by
        intro c
        rw [Market.db_accumulateOrder known]
        rfl
      rw [clients]
      rw [after] at mem
      split at mem
      · rcases List.mem_append.mp mem with front | back
        · exact orderly.known _ _ o' (List.mem_of_mem_take front)
        · rcases List.mem_cons.mp back with rfl | back
          · exact known
          · exact orderly.known _ _ o' (List.mem_of_mem_drop back)
      · exact orderly.known _ _ o' mem
    · rw [Market.db_accumulateOrder known]
      exact Relation.forall_insert orderly.rows counts
  · have same : s.market.accumulateOrder o = s.market := by
      simp [Market.accumulateOrder, known]
    rw [same]
    exact orderly

theorem Orderly.perform (orderly : s.Orderly) (fresh : env.Fresh) {t : Task}
    (counts : ∀ o ∈ t.orders, o.Counts)
    (unused : ∀ o ∈ t.orders, o.orderId ∉ s.market.db.orders.rows.map OrderRow.orderId)
    (readBack : LoopReadsBack text order (s.loopOf t)) :
    (s.performText text env t).Orderly := by
  cases t with
  | enter o =>
      have entered := orderly.entered (counts o List.mem_cons_self) (unused o List.mem_cons_self)
      simp only [loopOf] at readBack
      simp only [performText]
      split
      · rename_i running
        rw [if_pos running] at readBack
        exact entered.matched fresh order readBack
      · exact entered
  | wait o =>
      refine orderly.withDb (fun o' mem _ => ?_) (fun _ => rfl)
        (Relation.forall_insert orderly.rows (counts o List.mem_cons_self))
      exact Relation.mem_insert_of_mem mem
  | withdraw client amount =>
      refine orderly.withDb (fun _ mem _ => mem) (fun c => clientExists_congr ?_) orderly.rows
      simp [Client.withdraw]

/-- The PENDING rows stay when a WAITING row is deleted. -/
theorem stay_removeWaitingOrder (client id : ID) : ∀ o ∈ d.orders.rows,
    o.orderStatus = .pending → o ∈ (removeWaitingOrder client id d).orders.rows := by
  intro o mem pending
  refine List.mem_filter.mpr ⟨mem, ?_⟩
  simp [pending]

theorem Orderly.removeWaitingOrder (orderly : s.Orderly) (client id : ID) :
    (s.withDb (removeWaitingOrder client id s.market.db)).Orderly :=
  orderly.withDb (stay_removeWaitingOrder client id) (fun _ => rfl)
    (Relation.forall_delete orderly.rows)

/-- **A step lemma.** -/
theorem Orderly.step (orderly : s.Orderly) (fresh : env.Fresh) (distinct : s.DistinctIds)
    {loop : Option (Market × MatchCall)} (readBack : LoopReadsBack text order loop)
    (step : StepText text env order loop s s') : s'.Orderly := by
  cases step with
  | deposit client amount known =>
      refine orderly.withDb (fun o mem _ => ?_) (fun c => clientExists_congr ?_) ?_
      · rw [orders_deposit]
        exact mem
      · exact isSome_client_deposit client c amount
      · rw [orders_deposit]
        exact orderly.rows
  | askWithdrawal client amount known covered => exact orderly.addTask (by simp [Task.orders])
  | @placeOrder _ line id date daily o free taken =>
      refine orderly.addTask fun o' mem => ?_
      have same : (orderTask o).orders = [o] := by
        unfold orderTask
        split <;> rfl
      rw [same] at mem
      rw [List.mem_singleton.mp mem]
      exact counts_of_admitOrder taken
  | @perform _ t front back next =>
      have tasks := orderly.tasks
      rw [next, List.forall_mem_append, List.forall_mem_cons] at tasks
      obtain ⟨before, counts, behind⟩ := tasks
      have rest : ({ s with tasks := front ++ back } : Server).Orderly :=
        { orderly with tasks := List.forall_mem_append.mpr ⟨before, behind⟩ }
      exact rest.perform fresh counts (fun o mem => distinct.unused (by simp [next]) mem) readBack
  | expire nowDate nowDaily waits expired => exact orderly.removeWaitingOrder _ _
  | release nowDate nowDaily waits lasts triggered =>
      refine (orderly.removeWaitingOrder _ _).addTask fun o mem => ?_
      rw [List.mem_singleton.mp mem]
      have counts := orderly.rows _ (List.mem_filter.mp waits).1
      exact counts
  | fixing => exact orderly.matched fresh order readBack
  | period running => exact { orderly with }
  | play => exact orderly_start orderly.rows

/-- The runs of a server whose orders have ids of their own, and whose loops fill in part only
orders that read back. -/
def Runs (text : ℚ → ℚ) (env : Env) (order : IterationOrder ID (List ID)) :
    Server → Server → Prop :=
  Relation.ReflTransGen fun s s' => s.DistinctIds ∧
    ∃ loop, StepText text env order loop s s' ∧ LoopReadsBack text order loop

instance (s : Server) : Decidable s.DistinctIds := by
  unfold DistinctIds
  infer_instance

/-- The steps without texts are steps whose prices read back. -/
theorem Step.reads (step : Step env order s s') :
    ∃ loop, StepText id env order loop s s' ∧ LoopReadsBack id order loop := by
  have readBack : ∀ loop : Option (Market × MatchCall), LoopReadsBack id order loop := by
    rintro (_ | ⟨m, call⟩)
    · trivial
    · exact fun _ _ _ _ => rfl
  have performed : ∀ (s : Server) (t : Task), s.performText id env t = s.perform env t := by
    intro s t
    cases t <;> rfl
  cases step with
  | deposit client amount known => exact ⟨_, .deposit client amount known, readBack _⟩
  | askWithdrawal client amount known covered =>
      exact ⟨_, .askWithdrawal client amount known covered, readBack _⟩
  | placeOrder line id date daily free taken =>
      exact ⟨_, .placeOrder line id date daily free taken, readBack _⟩
  | perform next =>
      rw [← performed]
      exact ⟨_, .perform next, readBack _⟩
  | expire nowDate nowDaily waits expired =>
      exact ⟨_, .expire nowDate nowDaily waits expired, readBack _⟩
  | release nowDate nowDaily waits lasts triggered =>
      exact ⟨_, .release nowDate nowDaily waits lasts triggered, readBack _⟩
  | fixing => exact ⟨_, .fixing, readBack _⟩
  | period running => exact ⟨_, .period running, readBack _⟩
  | play => exact ⟨_, .play, readBack _⟩

/-- The states of a server that starts on an initial database. -/
theorem orderly_of_run (fresh : env.Fresh) (initial : d.Initial)
    (run : Runs text env order { market := { db := d } } s) : s.Orderly := by
  induction run with
  | refl =>
      refine orderly_start fun o mem => ?_
      rw [initial.orders] at mem
      cases mem
  | tail _ step orderly =>
      obtain ⟨distinct, loop, step, readBack⟩ := step
      exact orderly.step fresh distinct readBack step

/-- **Continuous trading leaves no crossing pair** in any state that is reached, if and only if
no order to buy nothing blocks the books. What is left of an order is to read back. -/
theorem uncrossed_iff_not_blocked (fresh : env.Fresh) (initial : d.Initial)
    (run : Runs text env order { market := { db := d } } s) (action : ID)
    (readBack : s.market.ReadsBack text order (.continuousTrading action)) :
    (s.market.processContinuousTradingText text env action).1.Uncrossed action
      ↔ ¬s.market.Blocked action :=
  (orderly_of_run fresh initial run).admitted.uncrossed_iff fresh action readBack

/-- Orders to buy something block nothing. -/
theorem not_blocked_of_pos {m : Market} {action : ID}
    (pos : ∀ o ∈ m.ordersOf .buy action, 0 < o.quantity) : ¬m.Blocked action := by
  rintro ⟨front, o, back, split, nothing, -⟩
  exact absurd (pos o (by simp [split])) (not_lt.mpr nothing)

/-- Outside continuous trading no task runs a loop. -/
theorem performText_of_closed (text : ℚ → ℚ) (env : Env)
    (closed : s.isContinuousTradingPeriod = false) (t : Task) :
    s.performText text env t = s.perform env t ∧ s.loopOf t = none := by
  cases t <;> simp [performText, perform, loopOf, closed]

/-- An order line is taken and carried out, while nothing is matched. -/
theorem Runs.submit {s₀ s : Server} {line : OrderLine} {id date daily : ID} {o : OrderRow}
    (run : Runs text env order s₀ s) (idle : s.tasks = []) (distinct : s.DistinctIds)
    (distinct' : (s.addTask (orderTask o)).DistinctIds) (free : s.market.db.orderIdIsFree id)
    (taken : admitOrder env line id date daily s.market.db = .ok o)
    (closed : s.isContinuousTradingPeriod = false) :
    Runs text env order s₀ (s.perform env (orderTask o)) := by
  have placed : StepText text env order none s (s.addTask (orderTask o)) :=
    .placeOrder line id date daily free taken
  have tasks : (s.addTask (orderTask o)).tasks = [] ++ orderTask o :: [] := by
    simp [addTask, idle]
  have done : StepText text env order ((s.addTask (orderTask o)).loopOf (orderTask o))
      (s.addTask (orderTask o)) _ := .perform tasks
  have same : { s.addTask (orderTask o) with tasks := [] ++ [] } = s := by
    cases s
    simp_all [addTask]
  rw [same, (performText_of_closed text env closed _).1,
    (performText_of_closed text env (s := s.addTask (orderTask o)) closed _).2]
    at done
  exact (run.tail ⟨distinct, none, placed, trivial⟩).tail ⟨distinct', none, done, trivial⟩

end Server

/-! ### Orders to buy nothing -/

/-- Client 1 of `init` has bid for nothing, at the market, and then for 5. -/
def demoNothing : Server :=
  (demoBuy 0).perform countingEnv (.enter (marketRow 2 1 .buy 5))

/-- Client 2 sells 20. -/
def demoBlocked : Server :=
  demoNothing.perform countingEnv (.enter (marketRow 3 2 .sell 20))

theorem runs_demoBuy {quantity : Int}
    (taken : admitOrder countingEnv (marketLine 1 "BUY" quantity) 1 1 1 (Database.demo 0 1)
      = .ok (marketRow 1 1 .buy quantity)) :
    Server.Runs fifteenDigits countingEnv .stored { market := { db := Database.demo 0 1 } }
      (demoBuy quantity) := by
  have start : Server.Runs fifteenDigits countingEnv .stored
      { market := { db := Database.demo 0 1 } } { market := { db := Database.demo 0 1 } } := .refl
  have distinct : (({ market := { db := Database.demo 0 1 } } : Server).addTask
      (Server.orderTask (marketRow 1 1 .buy quantity))).DistinctIds :=
    List.nodup_singleton (1 : ID)
  exact start.submit rfl (by decide) distinct free_demo taken rfl

/-- Two orders of `init` meet. -/
theorem uncrossed_iff_not_blocked_demo :
    ((demoOrders 20).market.processContinuousTradingText fifteenDigits countingEnv 1).1.Uncrossed
        1 ∧
      (demoOrders 20).market.orderIds .buy 1 = [1] ∧
      (demoOrders 20).market.orderIds .sell 1 = [2] := by
  have taken : admitOrder countingEnv (marketLine 2 "SELL" 20) 2 1 2 (demoBuy 20).market.db
      = .ok (marketRow 2 2 .sell 20) := by decide +kernel
  have run := (runs_demoBuy admitOrder_demo).submit rfl (by decide +kernel) (by decide +kernel)
    (by decide +kernel) taken rfl
  have readBack : (demoOrders 20).market.ReadsBack fifteenDigits .stored
      (.continuousTrading 1) := by
    -- the two orders fill each other
    have none : MatchCall.cutOrders fifteenDigits (.continuousTrading 1) (demoOrders 20).market 1
        = [] := by decide +kernel
    simp [Market.ReadsBack, MatchCall.actions, none]
  have free := (Server.uncrossed_iff_not_blocked fresh_countingEnv (Database.initial_demo 0 1) run
    1 readBack).mpr (Server.not_blocked_of_pos (by decide +kernel))
  exact ⟨free, by decide +kernel, by decide +kernel⟩

/-- The bid for nothing keeps that for 5 from the offer. -/
theorem nothing_blocks : ¬∀ s : Server,
    Server.Runs fifteenDigits countingEnv .stored { market := { db := Database.demo 0 1 } } s →
    ∀ action, (s.market.processContinuousTradingText fifteenDigits countingEnv action).1.Uncrossed
      action := by
  intro claim
  have taken : admitOrder countingEnv (marketLine 1 "BUY" 0) 1 1 1 (Database.demo 0 1)
      = .ok (marketRow 1 1 .buy 0) := by decide +kernel
  have taken' : admitOrder countingEnv (marketLine 1 "BUY" 5) 2 1 2 (demoBuy 0).market.db
      = .ok (marketRow 2 1 .buy 5) := by decide +kernel
  have taken'' : admitOrder countingEnv (marketLine 2 "SELL" 20) 3 1 3 demoNothing.market.db
      = .ok (marketRow 3 2 .sell 20) := by decide +kernel
  have second := (runs_demoBuy taken).submit rfl (by decide +kernel) (by decide +kernel)
    (by decide +kernel) taken' rfl
  have third := second.submit rfl (by decide +kernel) (by decide +kernel) (by decide +kernel)
    taken'' rfl
  have apart := claim demoBlocked third 1 2 (by decide +kernel) 3 (by decide +kernel)
  exact absurd apart (by decide +kernel)

end StockMarket.Sql
