import StockMarket.Lib.Auction
import StockMarket.Sql.Book
import StockMarket.Sql.Conservation

/-!
The fixing as an auction.

`process_fixing` crosses the sorted books of every action. For one action it does, round
by round, what the greedy auction does with the orders behind the two vectors
(`fixingRound`), a part of an order that is opened again under a new id standing for the
order itself (`Stands`). So the quantity it trades is what the best single price allows
(`fixing_maximises`).

Of every action it does what `process_continuous_trading` does, as long as every order in the
vectors has its row (`processFixing_eq_chain`; without one, the two loops read locals that nobody
has set, and look at them in different orders). Both leave orders, or parts of them, where they
stood in the vectors (`leftOf_matchCall`).
-/

namespace StockMarket.Sql

open Client Database

/-- The orders of one side of one action, as their rows have them. -/
def Market.ordersOf (side : OrderType) (action : ID) (m : Market) : List OrderRow :=
  (m.orderIds side action).filterMap m.db.orders.find

/-- The quantity that is bid for at a price. -/
def Market.demand (action : ID) (m : Market) (p : ℚ) : Int :=
  (((m.ordersOf .buy action).filter fun o => p ≤ o.price).map OrderRow.quantity).sum

/-- The quantity that is offered at a price. -/
def Market.supply (action : ID) (m : Market) (p : ℚ) : Int :=
  (((m.ordersOf .sell action).filter fun o => o.price ≤ p).map OrderRow.quantity).sum

/-- The settled pairs of one action. -/
def settledFor (action : ID) (es : List Settlement) : List Settlement :=
  es.filter fun e => e.action = action

/-- The quantity that some settled pairs traded. -/
def transacted (es : List Settlement) : Int := (es.map Settlement.quantity).sum

/-- Orders with all of their quantity left. -/
def offers (os : List OrderRow) : List (OrderRow × Int) := os.map fun o => (o, o.quantity)

/-- The row of what is left of an order. -/
def Stands (o : OrderRow) (x : OrderRow × Int) : Prop :=
  ∃ id, o = { x.1 with orderId := id, quantity := x.2 }

/-- A settled pair fills an order of each side; its price is what these two determine. -/
structure Settles (env : Env) (action : ID) (e : Settlement)
    (f : Auction.Fill OrderRow OrderRow) : Prop where
  ofAction : e.action = action
  buyer : e.buyer = f.bid.clientId
  seller : e.seller = f.ask.clientId
  quantity : e.quantity = f.quantity
  price : ∃ last, e.price = resolveExecutionPrice env e.before last action f.bid.triggerType
    f.ask.triggerType f.bid.price f.ask.price

/-! ### The rows behind the vectors -/

namespace Market

variable {m : Market} {orders others : OrderType → ID → List OrderRow}

theorem Lists.row_mem (lists : m.Lists orders others) {side : OrderType} {action : ID}
    {o : OrderRow} (mem : o ∈ orders side action) : o ∈ m.db.orders.rows :=
  (mem_pendingOrders.mp ((lists.pending side action).mem_iff.mpr
    (List.mem_append_left _ mem))).1

theorem Lists.ordersOf (lists : m.Lists orders others) (side : OrderType) (action : ID) :
    m.ordersOf side action = orders side action := by
  rw [Market.ordersOf, lists.ids, List.filterMap_map]
  have found : ∀ o ∈ orders side action, (m.db.orders.find ∘ OrderRow.orderId) o = some o :=
    fun o mem => Relation.find_some_iff.mpr ⟨lists.row_mem mem, rfl⟩
  rw [List.filterMap_congr found, List.filterMap_some]

/-- The rows of one vector, and the other PENDING rows. -/
theorem Backed.split (backed : m.Backed) (side : OrderType) (action : ID) :
    m.orderIds side action = (m.ordersOf side action).map OrderRow.orderId ∧
      ∃ rest, (m.db.pendingOrders side action).Perm (m.ordersOf side action ++ rest) := by
  have listed := backed side action
  have known : ∀ id ∈ m.orderIds side action, ∃ o ∈ m.db.pendingOrders side action,
      o.orderId = id := fun id mem => List.mem_map.mp (listed.subset mem)
  have ids : (m.ordersOf side action).map OrderRow.orderId = m.orderIds side action := by
    refine Relation.map_key_filterMap_find fun id mem => ?_
    obtain ⟨o, pending, rfl⟩ := known id mem
    exact List.mem_map_of_mem (mem_pendingOrders.mp pending).1
  have nodup : (m.orderIds side action).Nodup := by
    obtain ⟨sorted, same, sub⟩ := listed
    exact same.nodup_iff.mp ((m.db.orders.unique.sublist (List.filter_sublist.map _)).sublist sub)
  have inside : m.ordersOf side action ⊆ m.db.pendingOrders side action := by
    intro o mem
    obtain ⟨id, listed, found⟩ := List.mem_filterMap.mp mem
    obtain ⟨o', pending, rfl⟩ := known id listed
    have row := Relation.find_some_iff.mpr ⟨(mem_pendingOrders.mp pending).1, rfl⟩
    rw [row] at found
    exact Option.some.inj found ▸ pending
  obtain ⟨sorted, same, sub⟩ := List.subperm_of_subset (List.Nodup.of_map _ (ids ▸ nodup)) inside
  obtain ⟨rest, pending⟩ := sub.exists_perm_append
  exact ⟨ids.symm, rest, pending.trans (same.append_right _)⟩

theorem Backed.lists (backed : m.Backed) :
    ∃ others, m.Lists (fun side action => m.ordersOf side action) others := by
  choose rest pending using fun side action => (backed.split side action).2
  exact ⟨rest, fun side action => (backed.split side action).1, pending⟩

end Market

/-! ### Rounds -/

section

variable {env : Env} {action : ID} {others : OrderType → List OrderRow} {s s' : Sweep}
  {e : Settlement} {t : List (OrderRow × Int) × List (OrderRow × Int)}

/-- The loop of `process_fixing` is where the greedy auction is. -/
def AtOffers (action : ID) (others : OrderType → List OrderRow) (s : Sweep)
    (t : List (OrderRow × Int) × List (OrderRow × Int)) : Prop :=
  ∃ buys sells, s.Lists action others buys sells ∧ List.Forall₂ Stands buys t.1 ∧
    List.Forall₂ Stands sells t.2

theorem Stands.fields {o : OrderRow} {x : OrderRow × Int} (stands : Stands o x) :
    o.quantity = x.2 ∧ o.price = x.1.price ∧ o.clientId = x.1.clientId ∧
      o.triggerType = x.1.triggerType := by
  obtain ⟨id, rfl⟩ := stands
  exact ⟨rfl, rfl, rfl, rfl⟩

theorem stands_offers : ∀ os : List OrderRow, List.Forall₂ Stands os (offers os)
  | [] => .nil
  | o :: os => .cons ⟨o.orderId, rfl⟩ (stands_offers os)

/-- What is left of an order stands for what is left of the offer. -/
theorem stands_leave {o : OrderRow} {x : OrderRow × Int} {os : List OrderRow}
    {xs : List (OrderRow × Int)} (stands : Stands o x) (later : List.Forall₂ Stands os xs)
    (id : ID) (quantity : Int) :
    List.Forall₂ Stands (o.leftover id quantity ++ os) (Auction.leave x.1 (x.2 - quantity) xs) := by
  obtain ⟨id', rfl⟩ := stands
  unfold OrderRow.leftover Auction.leave
  by_cases left : quantity < x.2
  · rw [if_pos left, if_pos (sub_pos.mpr left)]
    exact .cons ⟨id, rfl⟩ later
  · rw [if_neg left, if_neg fun pos => left (sub_pos.mp pos)]
    exact later

/-- A pair that the fixing settles crosses. -/
theorem crosses_of_fixingPair {d : Database} {buy sell : ID} {buyer seller : OrderRow}
    (found : fixingPair d buy sell = some (buyer, seller)) : seller.price ≤ buyer.price := by
  unfold fixingPair at found
  grind

/-- **A round of the fixing is a round of the auction.** -/
theorem fixingRound (fresh : env.Fresh) (there : AtOffers action others s t)
    (next : matchStep fixingPair env action s = some (s', e)) :
    ∃ t' f, Auction.step OrderRow.price OrderRow.price t = some (t', f) ∧
      AtOffers action others s' t' ∧ Settles env action e f := by
  obtain ⟨bids, asks⟩ := t
  obtain ⟨buys, sells, lists, bought, sold⟩ := there
  obtain ⟨buyer, buys', seller, sells', id, id', rfl, rfl, found, settled, after, -⟩ :=
    lists.matchStep readsRows_fixingPair fresh next
  obtain ⟨⟨bid, q⟩, bids', stands, bought', rfl⟩ := List.forall₂_cons_left_iff.mp bought
  obtain ⟨⟨ask, r⟩, asks', stands', sold', rfl⟩ := List.forall₂_cons_left_iff.mp sold
  obtain ⟨quantity, price, client, trigger⟩ := stands.fields
  obtain ⟨quantity', price', client', trigger'⟩ := stands'.fields
  have meet : ask.price ≤ bid.price := by
    have crosses := crosses_of_fixingPair found
    rwa [price, price'] at crosses
  rw [quantity, quantity'] at after
  refine ⟨_, _, Auction.step_cons meet q r bids' asks',
    ⟨_, _, after, stands_leave stands bought' id _, stands_leave stands' sold' id' _⟩, ?_⟩
  obtain ⟨-, rfl⟩ := Prod.mk.inj settled
  refine ⟨rfl, client, client', ?_, s.exchangePrice, ?_⟩
  · simp [quantity, quantity']
  · simp [price, price', trigger, trigger']

/-- Every order that is left is some client's, and wants something. -/
def Willing (s : Sweep) (t : List (OrderRow × Int) × List (OrderRow × Int)) : Prop :=
  ∀ x ∈ t.1 ++ t.2, 0 < x.2 ∧ s.db.clientExists x.1.clientId

/-- Willing orders trade until the first ones no longer cross. -/
theorem fixingHalt (there : AtOffers action others s t) (willing : Willing s t)
    (halted : matchStep fixingPair env action s = none) :
    Auction.step OrderRow.price OrderRow.price t = none := by
  obtain ⟨bids, asks⟩ := t
  obtain ⟨buys, sells, lists, bought, sold⟩ := there
  cases bought with
  | nil => rfl
  | @cons buyer x buys bids stands bought =>
      cases sold with
      | nil => rfl
      | @cons seller y sells asks stands' sold =>
          obtain ⟨bid, q⟩ := x
          obtain ⟨ask, r⟩ := y
          obtain ⟨wants, known⟩ := willing (bid, q) (by simp)
          obtain ⟨wants', known'⟩ := willing (ask, r) (by simp)
          have row := getOrderInfo_of_mem (lists.buy_mem (o := buyer) List.mem_cons_self).1
          have row' := getOrderInfo_of_mem (lists.sell_mem (o := seller) List.mem_cons_self).1
          obtain ⟨quantity, price, client, -⟩ := stands.fields
          obtain ⟨quantity', price', client', -⟩ := stands'.fields
          have apart : bid.price < ask.price := by
            by_contra meet
            have ids := lists.buyIds
            have ids' := lists.sellIds
            simp only [List.map_cons] at ids ids'
            simp only [matchStep, ids, ids', fixingPair, row, row', client, client', price, price',
              quantity, quantity'] at halted
            simp [meet, wants.not_ge, wants'.not_ge, known, known'] at halted
          simp [Auction.step, apart]

theorem Willing.leave {x y : OrderRow × Int} {xs ys : List (OrderRow × Int)}
    (willing : Willing s (x :: xs, y :: ys)) (left left' : Int)
    (clients : ∀ c, s'.db.clientExists c = s.db.clientExists c) :
    Willing s' (Auction.leave x.1 left xs, Auction.leave y.1 left' ys) := by
  have later : ∀ (x : OrderRow × Int) (xs : List (OrderRow × Int)) (left : Int),
      (∀ z ∈ x :: xs, 0 < z.2 ∧ s.db.clientExists z.1.clientId) →
      ∀ z ∈ Auction.leave x.1 left xs, 0 < z.2 ∧ s'.db.clientExists z.1.clientId := by
    intro x xs left all z mem
    rw [clients]
    unfold Auction.leave at mem
    split at mem
    · rename_i pos
      rcases List.mem_cons.mp mem with rfl | mem
      · exact ⟨pos, (all x List.mem_cons_self).2⟩
      · exact all z (List.mem_cons_of_mem _ mem)
    · exact all z (List.mem_cons_of_mem _ mem)
  obtain ⟨bids, asks⟩ := List.forall_mem_append.mp willing
  exact List.forall_mem_append.mpr ⟨later x xs left bids, later y ys left' asks⟩

/-- Willing orders are settled as the auction fills them. -/
theorem settles_run (fresh : env.Fresh) (n : Nat) (there : AtOffers action others s t)
    (willing : Willing s t) :
    List.Forall₂ (Settles env action) (Loop.run (matchStep fixingPair env action) n s).2
      (Loop.run (Auction.step OrderRow.price OrderRow.price) n t).2 := by
  refine Loop.run_simulates (R := fun s t => AtOffers action others s t ∧ Willing s t) ?_ ?_ n s t
    ⟨there, willing⟩
  · rintro s t s' e ⟨there, willing⟩ next
    obtain ⟨t', f, filled, there', settles⟩ := fixingRound fresh there next
    obtain ⟨bid, q, bids, ask, r, asks, rfl, rfl⟩ := Auction.step_some filled
    obtain ⟨_, buys, _, sells, buyer, seller, -, -, -, settled⟩ := matchStep_some next
    obtain ⟨rfl, -⟩ := Prod.mk.inj settled
    exact ⟨_, f, filled, ⟨there', willing.leave _ _
      (clientExists_settlePair env action buyer seller buys sells s)⟩, settles⟩
  · rintro s t ⟨there, willing⟩ halted
    exact fixingHalt there willing halted

end

/-! ### One call -/

namespace Market

variable {env : Env} {m : Market} {orders others : OrderType → ID → List OrderRow}
  {pair : Database → ID → ID → Option (OrderRow × OrderRow)} {action : ID}

/-- What the loop of an action settles, also when a vector is missing or empty. -/
theorem events_matchAction (m : Market) :
    (matchAction pair env action m).2
      = (Loop.run (matchStep pair env action)
          ((m.orderIds .buy action).length + (m.orderIds .sell action).length)
          (m.sweep (m.orderIds .buy action) (m.orderIds .sell action))).2 := by
  have idle : m.orderIds .buy action = [] ∨ m.orderIds .sell action = [] →
      matchStep pair env action (m.sweep (m.orderIds .buy action) (m.orderIds .sell action))
        = none := by
    rintro (none | none)
    · rw [none]
      rfl
    · rw [none]
      unfold matchStep
      split
      · rename_i left
        cases left
      · rfl
  unfold matchAction
  split
  · rename_i buys sells found found'
    have ids : m.orderIds .buy action = buys := by simp [orderIds, found]
    have ids' : m.orderIds .sell action = sells := by simp [orderIds, found']
    split
    · rename_i empty
      rw [Loop.run_of_halted (idle (ids ▸ ids' ▸ empty))]
    · rw [ids, ids']
  · rename_i missing
    have empty : m.orderIds .buy action = [] ∨ m.orderIds .sell action = [] := by
      cases found : m.buyOrders.lookup action with
      | none => exact .inl (by simp [orderIds, found])
      | some buys =>
          cases found' : m.sellOrders.lookup action with
          | none => exact .inr (by simp [orderIds, found'])
          | some sells => exact absurd found' (missing buys sells found)
    rw [Loop.run_of_halted (idle empty)]

theorem Lists.atOffers (lists : m.Lists orders others) (action : ID) :
    AtOffers action (others · action)
      (m.sweep (m.orderIds .buy action) (m.orderIds .sell action))
      (offers (orders .buy action), offers (orders .sell action)) :=
  ⟨orders .buy action, orders .sell action,
    ⟨lists.ids .buy action, lists.ids .sell action, lists.pending .buy action,
      lists.pending .sell action⟩, stands_offers _, stands_offers _⟩

theorem Lists.length_offers (lists : m.Lists orders others) (side : OrderType) (action : ID) :
    (offers (orders side action)).length = (m.orderIds side action).length := by
  rw [lists.ids]
  simp [offers]

/-- The loops of other actions leave the books of an action alone. -/
theorem keeps_other_actions (reads : ReadsOrders pair) (fresh : env.Fresh) {as : List ID}
    (absent : action ∉ as) (orders others : OrderType → ID → List OrderRow) :
    Loop.Keeps (fun m : Market => ∃ orders', m.Lists orders' others ∧
        ∀ side, orders' side action = orders side action)
      (fun e => e.action ≠ action) (fun _ => True) (fun m c => m.db.clientExists c)
      (Loop.chain (matchAction pair env) as) := by
  refine Loop.keeps_chain_of_mem as fun a mem m ⟨orders', lists, same⟩ => ?_
  have other : action ≠ a := fun eq => absent (eq ▸ mem)
  have kept := keeps_lists_matchAction reads fresh a orders' others m
    ⟨(orders' · a), (withOrders_self orders' a).symm ▸ lists⟩
  obtain ⟨new, lists'⟩ := kept.inv
  refine ⟨⟨_, lists', fun side => ?_⟩, fun e mem => ?_, kept.quantity⟩
  · simp [withOrders, other, same]
  · rw [kept.events e mem]
    exact other.symm

/-- After them the books of the action and the clients are as before. -/
theorem Lists.after_others (lists : m.Lists orders others) (reads : ReadsOrders pair)
    (fresh : env.Fresh) {as : List ID} (absent : action ∉ as) :
    ∃ orders₁, (Loop.chain (Market.matchAction pair env) as m).1.Lists orders₁ others ∧
      (∀ side, orders₁ side action = orders side action) ∧
      ∀ c, (Loop.chain (Market.matchAction pair env) as m).1.db.clientExists c
      = m.db.clientExists c := by
  have kept := keeps_other_actions reads fresh absent orders others m ⟨orders, lists, fun _ => rfl⟩
  obtain ⟨orders₁, lists₁, same⟩ := kept.inv
  exact ⟨orders₁, lists₁, same, congrFun (kept.quantity fun _ _ => trivial)⟩

/-- **One call as one loop**: the settled pairs of an action are those of its own loop, which
runs after those of some other actions. -/
theorem settledFor_chain (lists : m.Lists orders others) (reads : ReadsOrders pair)
    (fresh : env.Fresh) (order : IterationOrder ID (List ID)) (action : ID) :
    ∃ before, action ∉ before ∧
      settledFor action
          (Loop.chain (matchAction pair env) ((order.walk m.buyOrders).map Sigma.fst) m).2
        = (matchAction pair env action (Loop.chain (matchAction pair env) before m).1).2 := by
  have silent : ∀ {es : List Settlement}, (∀ e ∈ es, e.action ≠ action) →
      settledFor action es = [] :=
    fun other => List.filter_eq_nil_iff.mpr fun e mem here => other e mem (of_decide_eq_true here)
  have nodup := order.nodup_keys m.buyOrders
  set keys := (order.walk m.buyOrders).map Sigma.fst
  by_cases listed : action ∈ keys
  · obtain ⟨before, after, split⟩ := List.append_of_mem listed
    rw [split] at nodup ⊢
    obtain ⟨-, nodup, disjoint⟩ := List.nodup_append.mp nodup
    have absent : action ∉ before := fun mem => disjoint action mem action List.mem_cons_self rfl
    have first := keeps_other_actions reads fresh absent orders others m ⟨orders,
      lists, fun _ => rfl⟩
    rw [Loop.chain_append, Loop.chain]
    set m₁ := (Loop.chain (matchAction pair env) before m).1
    obtain ⟨orders₁, lists₁, same⟩ := first.inv
    have own := keeps_lists_matchAction reads fresh action orders₁ others m₁
      ⟨(orders₁ · action), (withOrders_self orders₁ action).symm ▸ lists₁⟩
    obtain ⟨new, lists₂⟩ := own.inv
    have last := keeps_other_actions reads fresh (List.nodup_cons.mp nodup).1 _ others
      (matchAction pair env action m₁).1 ⟨_, lists₂, fun _ => rfl⟩
    have all : settledFor action (matchAction pair env action m₁).2
        = (matchAction pair env action m₁).2 :=
      List.filter_eq_self.mpr fun e mem => decide_eq_true (own.events e mem)
    rw [settledFor, List.filter_append, List.filter_append]
    have parts : ∀ es es' es'' : List Settlement, es.filter (fun e => e.action = action)
        ++ (es'.filter (fun e => e.action = action) ++ es''.filter fun e => e.action = action)
        = settledFor action es ++ (settledFor action es' ++ settledFor action es'') :=
      fun _ _ _ => rfl
    rw [parts, silent first.events, silent last.events, all]
    exact ⟨before, absent, by simp [m₁]⟩
  · have kept := keeps_other_actions reads fresh listed orders others m
      ⟨orders, lists, fun _ => rfl⟩
    refine ⟨[], List.not_mem_nil, ?_⟩
    rw [silent kept.events, Loop.chain, matchAction]
    have missing : m.buyOrders.lookup action = none := by
      rw [← order.dlookup_walk]
      exact List.dlookup_eq_none.mpr listed
    rw [missing]

end Market

/-! ### The volume -/

section

variable {env : Env} {m : Market}

theorem volume_offers (accepts : OrderRow → Prop) [DecidablePred accepts] (os : List OrderRow) :
    Auction.volume accepts (offers os)
    = ((os.filter fun o => accepts o).map OrderRow.quantity).sum := by
  induction os with
  | nil => rfl
  | cons o os ih =>
      have cons : offers (o :: os) = (o, o.quantity) :: offers os := rfl
      rw [cons, Auction.volume_cons, ih]
      by_cases here : accepts o <;> simp [here]

theorem side_offers {better : OrderRow → OrderRow → Prop} {os : List OrderRow}
    (sorted : os.Pairwise better) (positive : ∀ o ∈ os, 0 < o.quantity) :
    Auction.Side better (offers os) := by
  refine ⟨List.pairwise_map.mpr sorted, fun x mem => ?_⟩
  obtain ⟨o, here, rfl⟩ := List.mem_map.mp mem
  exact positive o here

/-- What is settled for an action, as the auction fills it. -/
theorem settles_fixing (fresh : env.Fresh) (order : IterationOrder ID (List ID))
    (backed : m.Backed) {action : ID}
    (positive : ∀ side, ∀ o ∈ m.ordersOf side action, 0 < o.quantity)
    (known : ∀ side, ∀ o ∈ m.ordersOf side action, m.db.clientExists o.clientId) :
    List.Forall₂ (Settles env action) (settledFor action (m.processFixing env order).2)
      (Auction.fills OrderRow.price OrderRow.price (offers (m.ordersOf .buy action))
        (offers (m.ordersOf .sell action))) := by
  obtain ⟨others, lists⟩ := backed.lists
  obtain ⟨before, absent, events⟩ :=
    Market.settledFor_chain lists readsRows_fixingPair.orders fresh order action
  obtain ⟨orders₁, lists₁, same, clients⟩ :=
    lists.after_others readsRows_fixingPair.orders fresh absent
  set m₁ := (Loop.chain (Market.matchAction fixingPair env) before m).1
  have willing : Willing (m₁.sweep (m₁.orderIds .buy action) (m₁.orderIds .sell action))
      (offers (orders₁ .buy action), offers (orders₁ .sell action)) := by
    have each : ∀ side, ∀ x ∈ offers (orders₁ side action),
        0 < x.2 ∧ m₁.db.clientExists x.1.clientId := by
      intro side x mem
      obtain ⟨o, here, rfl⟩ := List.mem_map.mp mem
      rw [same] at here
      exact ⟨positive side o here, (clients _).trans (known side o here)⟩
    exact List.forall_mem_append.mpr ⟨each .buy, each .sell⟩
  have settles := settles_run fresh
    ((m₁.orderIds .buy action).length + (m₁.orderIds .sell action).length)
    (lists₁.atOffers action) willing
  rw [Market.processFixing, events, Market.events_matchAction]
  rwa [← lists₁.length_offers .buy, ← lists₁.length_offers .sell, same, same] at settles ⊢

theorem transacted_eq_traded {action : ID} {es : List Settlement}
    {fs : List (Auction.Fill OrderRow OrderRow)}
    (settles : List.Forall₂ (Settles env action) es fs) :
    transacted es = Auction.traded fs := by
  induction settles with
  | nil => rfl
  | cons first _ ih =>
      simp only [transacted, Auction.traded, List.map_cons, List.sum_cons] at ih ⊢
      rw [first.quantity, ih]

/-- **The fixing maximises the traded volume.** Of an action whose books are sorted best
price first and hold positive quantities of existing clients, it trades what the best
price allows. -/
theorem fixing_maximises (fresh : env.Fresh) (order : IterationOrder ID (List ID))
    (backed : m.Backed) (action : ID)
    (buys : (m.ordersOf .buy action).Pairwise fun o o' => o'.price ≤ o.price)
    (sells : (m.ordersOf .sell action).Pairwise fun o o' => o.price ≤ o'.price)
    (positive : ∀ side, ∀ o ∈ m.ordersOf side action, 0 < o.quantity)
    (known : ∀ side, ∀ o ∈ m.ordersOf side action, m.db.clientExists o.clientId) :
    IsGreatest (Set.range fun p : ℚ => min (m.demand action p) (m.supply action p))
      (transacted (settledFor action (m.processFixing env order).2)) := by
  have sorted : Auction.Sorted OrderRow.price OrderRow.price (offers (m.ordersOf .buy action))
      (offers (m.ordersOf .sell action)) :=
    ⟨side_offers buys (positive .buy), side_offers sells (positive .sell)⟩
  have tradable : Auction.tradable OrderRow.price OrderRow.price (offers (m.ordersOf .buy action))
      (offers (m.ordersOf .sell action)) = fun p =>
          min (m.demand action p) (m.supply action p) := by
    funext p
    rw [Auction.tradable, volume_offers, volume_offers]
    rfl
  rw [transacted_eq_traded (settles_fixing fresh order backed positive known), ← tradable]
  exact Auction.isGreatest_traded sorted

end

/-- `countingEnv` draws ids above those in use. -/
theorem fresh_countingEnv : countingEnv.Fresh := by
  intro n inUse mem
  have below : countingEnv.newOrderId n inUse ≤ inUse.foldl max 0 :=
    List.le_max_of_mem (List.mem_cons_of_mem 0 mem)
  exact absurd below (not_le.mpr (Int.lt_succ _))

/-- A released limit order of action 1. -/
def limitRow (order client : ID) (type : OrderType) (quantity : Int) (price : ℚ) : OrderRow :=
  { marketRow order client type quantity with triggerType := .limit, price := price }

/-- Client 2 of `init` offers 10 at 10 and 10 at 11, and client 1 bids 12 for 15. -/
def twoPrices : Market :=
  ((({ db := Database.demo 0 1 } : Market).accumulateOrder (limitRow 1 2 .sell 10 10)
    ).accumulateOrder (limitRow 2 2 .sell 10 11)).accumulateOrder (limitRow 3 1 .buy 15 12)

theorem backed_twoPrices : twoPrices.Backed := by
  obtain ⟨orders, lists⟩ := Market.strands_start (Database.demo 0 1)
  obtain ⟨orders, lists⟩ := lists.accumulateOrder (o := limitRow 1 2 .sell 10 10)
    (by decide +kernel)
  obtain ⟨orders, lists⟩ := lists.accumulateOrder (o := limitRow 2 2 .sell 10 11)
    (by decide +kernel)
  exact (lists.accumulateOrder (o := limitRow 3 1 .buy 15 12) (by decide +kernel)).backed

/-- All of the 15 are traded. -/
theorem fixing_maximises_twoPrices :
    IsGreatest (Set.range fun p : ℚ => min (twoPrices.demand 1 p) (twoPrices.supply 1 p))
      (transacted (settledFor 1 (twoPrices.processFixing countingEnv .stored).2)) ∧
    transacted (settledFor 1 (twoPrices.processFixing countingEnv .stored).2) = 15 := by
  refine ⟨fixing_maximises fresh_countingEnv .stored backed_twoPrices 1 (by decide +kernel)
    (by decide +kernel) (fun side => ?_) (fun side => ?_), by decide +kernel⟩
  · cases side <;> decide +kernel
  · cases side <;> decide +kernel

/-! ### The other loop -/

/-- The price of an order is that of its row. -/
theorem getPrice_eq (d : Database) (order : ID) :
    d.getPrice order = ((d.getOrderInfo order).map OrderRow.price).getD (-1) := by
  rw [Database.getPrice, executeSqlQueryDouble, getOrderInfo, List.head?_map]

/-- The two loops look at a pair in different orders, and see the same. -/
theorem fixingPair_eq_continuousPair : fixingPair = continuousPair := by
  funext d buy sell
  unfold fixingPair continuousPair
  rw [getPrice_eq, getPrice_eq]
  cases d.getOrderInfo buy with
  | none => simp
  | some buyer =>
      cases d.getOrderInfo sell with
      | none => simp
      | some seller =>
          simp only [Option.map_some, Option.getD_some]
          -- the price is tested after the clients there, and before them here
          by_cases apart : buyer.price < seller.price <;> simp [apart]

/-- The actions whose books a call works on, in order. -/
def MatchCall.actions (order : IterationOrder ID (List ID)) (m : Market) : MatchCall → List ID
  | .continuousTrading action => [action]
  | .fixing => (order.walk m.buyOrders).map Sigma.fst

/-- A call is continuous trading in some actions. -/
theorem MatchCall.run_eq_chain (env : Env) (order : IterationOrder ID (List ID)) (m : Market) :
    ∀ call : MatchCall, call.run env order m
      = Loop.chain (Market.processContinuousTrading env) (call.actions order m) m
  | .continuousTrading action => by simp [MatchCall.run, MatchCall.actions, Loop.chain]
  | .fixing => by
      simp only [MatchCall.run, Market.processFixing, fixingPair_eq_continuousPair]
      rfl

/-- So it keeps what continuous trading keeps of every market. -/
theorem keeps_matchCall_of_each {M : Type} {Inv : Market → Prop} {P Fair : Settlement → Prop}
    {quantity : Market → M} {env : Env}
    (each : ∀ action, Loop.Keeps Inv P Fair quantity (Market.processContinuousTrading env action))
    (order : IterationOrder ID (List ID)) (call : MatchCall) :
    Loop.Keeps Inv P Fair quantity (call.run env order) := by
  intro m holds
  rw [call.run_eq_chain]
  exact Loop.keeps_chain each _ m holds

/-- **What every settled pair keeps of the database** holds in every run of the server, if it
does not depend on the clients and the orders. -/
theorem Server.db_of_run {D : Database → Prop} {env : Env} {order : IterationOrder ID (List ID)}
    {s s' : Server} (clients : ∀ (d : Database) rows, D d → D { d with clients := rows })
    (orders : ∀ (d : Database) rows, D d → D { d with orders := rows })
    (settles : ∀ action buyer seller buys sells (s : Sweep), D s.db →
      D (settlePair env action buyer seller buys sells s).1.db)
    (run : Relation.ReflTransGen (Server.Step env order) s s') (start : D s.market.db) :
    D s'.market.db := by
  have matched : ∀ (order : IterationOrder ID (List ID)) (call : MatchCall) (m : Market),
      D m.db → D (call.run env order m).1.db := by
    intro order call m holds
    exact (keeps_matchCall_of_each (fun action => Market.keeps_db_matchAction
      readsRows_continuousPair env action fun buyer seller buys sells s holds _ _ =>
        settles action buyer seller buys sells s holds) order call m holds).inv
  have performed : ∀ (s : Server) (t : Task), D s.market.db → D (s.perform env t).market.db := by
    intro s t holds
    cases t with
    | enter o =>
        have entered : D (s.market.accumulateOrder o).db := by
          unfold Market.accumulateOrder
          split
          · exact holds
          · cases o.orderType <;> exact orders _ _ holds
        simp only [Server.perform]
        split
        · exact matched .stored (.continuousTrading o.actionId) _ entered
        · exact entered
    | wait o => exact orders _ _ holds
    | withdraw client amount => exact clients _ _ holds
  induction run with
  | refl => exact start
  | tail _ step holds =>
      cases step with
      | deposit client amount known =>
          simp only [Server.withDb, deposit]
          split
          · exact clients _ _ holds
          · exact holds
      | askWithdrawal client amount known covered => exact holds
      | placeOrder line id date daily free taken => exact holds
      | @perform t front back next => exact performed ⟨_, _, front ++ back⟩ t holds
      | expire nowDate nowDaily waits expired => exact orders _ _ holds
      | release nowDate nowDaily waits lasts triggered => exact orders _ _ holds
      | fixing => exact matched order .fixing _ holds
      | period running => exact holds
      | play => exact holds

/-- What every round keeps of the orders behind the two vectors, a call keeps of those behind
all vectors. -/
theorem ordersOf_matchCall {env : Env} {m : Market} {P : OrderType → ID → List OrderRow → Prop}
    (fresh : env.Fresh) (order : IterationOrder ID (List ID)) (call : MatchCall)
    (backed : m.Backed) (start : ∀ side action, P side action (m.ordersOf side action))
    (round : ∀ action, Market.RoundKeeps continuousPair
      fun buys sells => P .buy action buys ∧ P .sell action sells) :
    (call.run env order m).1.Backed ∧
      ∀ side action, P side action ((call.run env order m).1.ordersOf side action) := by
  have each : ∀ action, Loop.Keeps
      (fun m : Market => m.Backed ∧ ∀ side a, P side a (m.ordersOf side a)) (fun _ => True)
      (fun _ => True) (fun _ => ()) (Market.processContinuousTrading env action) := by
    rintro action m ⟨backed, holds⟩
    obtain ⟨others, lists⟩ := backed.lists
    obtain ⟨orders', lists', kept, -⟩ := lists.matchAction readsRows_continuousPair fresh action
      ⟨holds .buy action, holds .sell action⟩ (round action)
    refine ⟨⟨Market.Strands.backed ⟨_, lists'⟩, fun side a => ?_⟩, fun _ _ => trivial, fun _ => rfl⟩
    rw [Market.processContinuousTrading, lists'.ordersOf]
    by_cases here : a = action
    · subst here
      cases side
      · simpa [Market.withOrders] using kept.1
      · simpa [Market.withOrders] using kept.2
    · simpa only [Market.withOrders, here, if_false] using holds side a
  exact (keeps_matchCall_of_each each order call m ⟨backed, start⟩).inv

/-! ### What is left of the orders -/

/-- An order, or a part of it under another id. Its client, price, trigger, trigger prices,
time of submission and expiry are the same. -/
def OrderRow.PartOf (o' o : OrderRow) : Prop :=
  o' = o ∨ ∃ id quantity, 0 < quantity ∧ quantity < o.quantity ∧
    o' = { o with orderId := id, quantity := quantity }

/-- What is left of some orders: the first ones are gone, and the others are there, or a part
of each. -/
def LeftOf (os old : List OrderRow) : Prop :=
  ∃ kept, kept <:+ old ∧ List.Forall₂ OrderRow.PartOf os kept

section

variable {o o' o'' buyer seller : OrderRow} {buys old : List OrderRow}

theorem OrderRow.PartOf.trans (part : o'.PartOf o) (part' : o''.PartOf o') : o''.PartOf o := by
  rcases part with rfl | ⟨id, quantity, pos, less, rfl⟩
  · exact part'
  · rcases part' with rfl | ⟨id', quantity', pos', less', rfl⟩
    · exact .inr ⟨id, quantity, pos, less, rfl⟩
    · exact .inr ⟨id', quantity', pos', less'.trans less, rfl⟩

theorem LeftOf.refl (os : List OrderRow) : LeftOf os os :=
  ⟨os, List.suffix_rfl, List.forall₂_same.mpr fun _ _ => .inl rfl⟩

/-- The first order trades. -/
theorem LeftOf.leftover (left : LeftOf (o :: buys) old) (id : ID) {quantity : Int}
    (pos : 0 < quantity) : LeftOf (o.leftover id quantity ++ buys) old := by
  obtain ⟨kept, suffix, parts⟩ := left
  obtain ⟨first, later, part, parts', rfl⟩ := List.forall₂_cons_left_iff.mp parts
  unfold OrderRow.leftover
  split
  · rename_i more
    have less : o.quantity - quantity < o.quantity := by omega
    have part' := part.trans (.inr ⟨id, o.quantity - quantity, sub_pos.mpr more, less, rfl⟩)
    exact ⟨first :: later, suffix, .cons part' parts'⟩
  · exact ⟨later, (List.suffix_cons first later).trans suffix, parts'⟩

/-- What does not depend on the id and the quantity stays with what is left. -/
theorem LeftOf.map_suffix {κ : Type} {os : List OrderRow} (left : LeftOf os old)
    (f : OrderRow → κ)
    (same : ∀ (o : OrderRow) id quantity, f { o with orderId := id, quantity := quantity } = f o) :
    os.map f <:+ old.map f := by
  obtain ⟨kept, suffix, parts⟩ := left
  have equal : os.map f = kept.map f := by
    clear suffix
    induction parts with
    | nil => rfl
    | cons part _ ih =>
        rcases part with rfl | ⟨id, quantity, -, -, rfl⟩
        · rw [List.map_cons, List.map_cons, ih]
        · rw [List.map_cons, List.map_cons, ih, same]
  exact equal ▸ suffix.map f

/-- A round leaves parts of the orders behind both vectors. -/
theorem roundKeeps_leftOf (old : OrderType → List OrderRow) :
    Market.RoundKeeps continuousPair
      fun buys sells => LeftOf buys (old .buy) ∧ LeftOf sells (old .sell) := by
  rintro d buyer buys seller sells id id' found ⟨bought, sold⟩
  have pos : 0 < min buyer.quantity seller.quantity :=
    lt_min_iff.mpr (positive_continuousPair _ _ _ _ _ found)
  exact ⟨bought.leftover id pos, sold.leftover id' pos⟩

/-- **A call** leaves parts of the orders behind all vectors. -/
theorem leftOf_matchCall {env : Env} {m : Market} (fresh : env.Fresh)
    (order : IterationOrder ID (List ID)) (call : MatchCall) (backed : m.Backed) :
    (call.run env order m).1.Backed ∧ ∀ side action,
      LeftOf ((call.run env order m).1.ordersOf side action) (m.ordersOf side action) :=
  ordersOf_matchCall (P := fun side action os => LeftOf os (m.ordersOf side action)) fresh order
    call backed (fun _ _ => .refl _) fun action => roundKeeps_leftOf (m.ordersOf · action)

end

/-! ### Orders without a row -/

/-- What a loop has read of an order. Of an order without a row it has read an empty text, so the
trigger is none, and the numbers are what the locals happen to hold. -/
def readOrderInfo (locals : Database → ID → OrderRow) (d : Database) (order : ID) : OrderRow :=
  (d.getOrderInfo order).getD { locals d order with triggerType := .noTrigger }

/-- How `process_fixing` looks at a pair. -/
def fixingPairLocals (locals : Database → ID → OrderRow) (d : Database) (buy sell : ID) :
    Option (OrderRow × OrderRow) :=
  let buyer := readOrderInfo locals d buy
  let seller := readOrderInfo locals d sell
  if ¬ d.clientExists buyer.clientId ∨ ¬ d.clientExists seller.clientId then none
  else if buyer.price < seller.price then none
  else if buyer.quantity ≤ 0 ∨ seller.quantity ≤ 0 then none
  else some (buyer, seller)

/-- How `process_continuous_trading` does: the prices in the database come first, and that of an
order without a row is -1. -/
def continuousPairLocals (locals : Database → ID → OrderRow) (d : Database) (buy sell : ID) :
    Option (OrderRow × OrderRow) :=
  if d.getPrice buy < d.getPrice sell then none
  else
    let buyer := readOrderInfo locals d buy
    let seller := readOrderInfo locals d sell
    if ¬ d.clientExists buyer.clientId ∨ ¬ d.clientExists seller.clientId then none
    else if buyer.quantity ≤ 0 ∨ seller.quantity ≤ 0 then none
    else some (buyer, seller)

namespace Market

/-- `process_continuous_trading`. -/
def processContinuousTradingLocals (locals : Database → ID → OrderRow) (env : Env) (action : ID) :
    Market → Market × List Settlement :=
  matchAction (continuousPairLocals locals) env action

/-- `process_fixing`. -/
def processFixingLocals (locals : Database → ID → OrderRow) (env : Env)
    (order : IterationOrder ID (List ID)) (m : Market) : Market × List Settlement :=
  Loop.chain (matchAction (fixingPairLocals locals) env) ((order.walk m.buyOrders).map Sigma.fst) m

end Market

section

variable {env : Env} {pair pair' : Database → ID → ID → Option (OrderRow × OrderRow)}
  {locals : Database → ID → OrderRow}

/-- Two ways to look at a pair that see the same in orders with rows. -/
def AgreeOnRows (pair pair' : Database → ID → ID → Option (OrderRow × OrderRow)) : Prop :=
  ∀ d buy sell buyer seller, d.getOrderInfo buy = some buyer → d.getOrderInfo sell = some seller →
    pair d buy sell = pair' d buy sell

theorem agreeOnRows_fixingPairLocals : AgreeOnRows (fixingPairLocals locals) fixingPair := by
  intro d buy sell buyer seller row row'
  simp only [fixingPairLocals, fixingPair, readOrderInfo, row, row', Option.getD_some]

theorem agreeOnRows_continuousPairLocals :
    AgreeOnRows (continuousPairLocals locals) continuousPair := by
  intro d buy sell buyer seller row row'
  simp only [continuousPairLocals, continuousPair, readOrderInfo, row, row', Option.getD_some]

/-- **One round** is the same, if the two first orders have rows. -/
theorem Sweep.Lists.matchStep_congr (agree : AgreeOnRows pair pair') {action : ID}
    {others : OrderType → List OrderRow} {s : Sweep} {buys sells : List OrderRow}
    (lists : s.Lists action others buys sells) :
    Sql.matchStep pair env action s = Sql.matchStep pair' env action s := by
  obtain ⟨ids, ids', -, -⟩ := id lists
  cases buys with
  | nil => rw [List.map_nil] at ids; simp only [Sql.matchStep, ids]
  | cons buyer buys =>
      cases sells with
      | nil => rw [List.map_nil] at ids'; simp only [Sql.matchStep, ids, ids', List.map_cons]
      | cons seller sells =>
          have row := getOrderInfo_of_mem (lists.buy_mem (o := buyer) List.mem_cons_self).1
          have row' := getOrderInfo_of_mem (lists.sell_mem (o := seller) List.mem_cons_self).1
          simp only [Sql.matchStep, ids, ids', List.map_cons, agree _ _ _ _ _ row row']

/-- All rounds are. -/
theorem Sweep.Lists.run_congr (agree : AgreeOnRows pair pair') (reads : ReadsRows pair')
    (fresh : env.Fresh) {action : ID} {others : OrderType → List OrderRow} (n : Nat) :
    ∀ {s : Sweep} {buys sells : List OrderRow}, s.Lists action others buys sells →
      Loop.run (Sql.matchStep pair env action) n s
        = Loop.run (Sql.matchStep pair' env action) n s := by
  induction n with
  | zero => exact fun _ => rfl
  | succ n ih =>
      intro s buys sells lists
      have same : Sql.matchStep pair env action s = Sql.matchStep pair' env action s :=
        lists.matchStep_congr agree
      cases next : Sql.matchStep pair' env action s with
      | none => rw [Loop.run_of_halted next, Loop.run_of_halted (same.trans next)]
      | some out =>
          obtain ⟨s', e⟩ := out
          obtain ⟨_, _, _, _, _, _, rfl, rfl, -, -, after, -⟩ := lists.matchStep reads fresh next
          rw [Loop.run_of_step next, Loop.run_of_step (same.trans next), ih after]

/-- So the loop of an action is. -/
theorem Market.Backed.matchAction_congr {m : Market} (backed : m.Backed)
    (agree : AgreeOnRows pair pair') (reads : ReadsRows pair') (fresh : env.Fresh) (action : ID) :
    matchAction pair env action m = matchAction pair' env action m := by
  obtain ⟨others, lists⟩ := backed.lists
  unfold matchAction
  split
  · rename_i buys sells found found'
    have ids : m.orderIds .buy action = buys := by simp [orderIds, found]
    have ids' : m.orderIds .sell action = sells := by simp [orderIds, found']
    have start := lists.sweep action
    rw [ids, ids'] at start
    rw [start.run_congr agree reads fresh]
  · rfl

/-- And one action after the other. -/
theorem Market.Backed.chain_congr (agree : AgreeOnRows pair pair') (reads : ReadsRows pair')
    (fresh : env.Fresh) : ∀ (actions : List ID) {m : Market}, m.Backed →
      Loop.chain (matchAction pair env) actions m = Loop.chain (matchAction pair' env) actions m
  | [], _, _ => rfl
  | a :: actions, m, backed => by
      obtain ⟨others, lists⟩ := backed.lists
      have after : (matchAction pair' env a m).1.Backed :=
        (keeps_strands_matchAction reads.orders fresh others a m ⟨_, lists⟩).inv.backed
      rw [Loop.chain, Loop.chain, backed.matchAction_congr agree reads fresh a,
        chain_congr agree reads fresh actions after]

/-- **A fixing is continuous trading in every action** with a buy book, one action after the
other: where every order in the vectors has its row, it leaves the same market and settles the
same pairs, whatever the locals of the two loops hold. -/
theorem processFixing_eq_chain (fresh : env.Fresh) (order : IterationOrder ID (List ID))
    (locals locals' : Database → ID → OrderRow) {m : Market} (backed : m.Backed) :
    m.processFixingLocals locals env order
      = Loop.chain (Market.processContinuousTradingLocals locals' env)
          ((order.walk m.buyOrders).map Sigma.fst) m := by
  unfold Market.processFixingLocals Market.processContinuousTradingLocals
  rw [backed.chain_congr agreeOnRows_fixingPairLocals readsRows_fixingPair fresh,
    backed.chain_congr agreeOnRows_continuousPairLocals readsRows_continuousPair fresh,
    fixingPair_eq_continuousPair]

end

/-- The three orders of `twoPrices` are matched either way. -/
theorem processFixing_eq_chain_twoPrices :
    twoPrices.processFixingLocals (fun _ _ => limitRow 3 1 .buy 15 12) countingEnv .stored
        = Loop.chain (Market.processContinuousTradingLocals (fun _ _ => limitRow 1 2 .sell 10 10)
            countingEnv) ((IterationOrder.stored.walk twoPrices.buyOrders).map
            Sigma.fst) twoPrices ∧
      (IterationOrder.stored.walk twoPrices.buyOrders).map Sigma.fst = [1] :=
  ⟨processFixing_eq_chain fresh_countingEnv .stored _ _ backed_twoPrices, by decide +kernel⟩

/-- Client 2 of `init` offers 10 at 10, and the BUY vector has an order that has no row. -/
def rowless : Market :=
  let m := ({ db := Database.demo 0 1 } : Market).accumulateOrder (limitRow 1 2 .sell 10 10)
  { m with buyOrders := m.buyOrders.insert 1 [7] }

/-- With a bid of client 1 left in its locals, the fixing trades; continuous trading stops at the
price -1. -/
theorem rowless_loops_differ : ¬∀ (env : Env) (order : IterationOrder ID (List ID))
    (locals : Database → ID → OrderRow) (m : Market),
      m.processFixingLocals locals env order
        = Loop.chain (Market.processContinuousTradingLocals locals env)
            ((order.walk m.buyOrders).map Sigma.fst) m := by
  intro claim
  have same := claim countingEnv .stored (fun _ _ => limitRow 7 1 .buy 5 12) rowless
  have settled := congrArg (fun out : Market × List Settlement => out.2.length) same
  exact absurd settled (by decide +kernel)

end StockMarket.Sql
