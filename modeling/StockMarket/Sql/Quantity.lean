import StockMarket.Sql.Texts

/-!
Matching loses no quantity.

A trade deletes the rows of its two orders and adds up to four, under new ids: two for what is
executed, and one for what is left of an order. So each client's PENDING quantity of one side
of one action becomes COMPLETED or stays (`Sweep.Lists.ordersWith_settlePair`), over all rounds
of a call (`Market.Logs`). What is left of an order should be the order itself but for its
id and its quantity (`Settlement.KeepsTerms`). It has the prices that its text reads back as,
so this holds of a call if and only if the orders that it fills in part read back
(`losesNothing_iff`).
-/

namespace StockMarket.Sql

open Client Database

/-- The rows with a status. -/
def Database.ordersWith (status : OrderStatus) (d : Database) : List OrderRow :=
  d.orders.select fun o => o.orderStatus = status

/-- The quantity that a client has in some orders, on one side of one action. -/
def quantityOf (client action : ID) (side : OrderType) (os : List OrderRow) : Int :=
  ((os.filter fun o => o.clientId = client ∧ o.actionId = action ∧ o.orderType = side).map
    OrderRow.quantity).sum

/-- The row of one side of a settled pair. -/
structure Settlement.Records (e : Settlement) (side : OrderType) (client : ID) (o : OrderRow) :
    Prop where
  status : o.orderStatus = .completed
  side : o.orderType = side
  client : o.clientId = client
  action : o.actionId = e.action
  quantity : o.quantity = e.quantity
  price : o.price = e.price

/-- A row that a settled pair opens is a part of an order that it closes. -/
def Settlement.KeepsTerms (e : Settlement) : Prop :=
  ∀ r ∈ e.after.ordersWith .pending, r ∉ e.before.ordersWith .pending →
    ∃ o ∈ e.before.ordersWith .pending, o ∉ e.after.ordersWith .pending ∧ r.PartOf o

/-- The rows that a settled pair adds: one for the buyer and one for the seller. -/
def Settlement.Completes (e : Settlement) (rows : List OrderRow) : Prop :=
  ∃ bought sold, rows = [bought, sold] ∧ e.Records .buy e.buyer bought ∧
    e.Records .sell e.seller sold

/-! ### Quantities -/

section

variable {client action : ID} {side : OrderType} {o : OrderRow} {os os' : List OrderRow}

theorem quantityOf_append : quantityOf client action side (os ++ os')
    = quantityOf client action side os + quantityOf client action side os' := by
  simp [quantityOf]

theorem quantityOf_perm (same : os.Perm os') :
    quantityOf client action side os = quantityOf client action side os' :=
  ((same.filter _).map _).sum_eq

/-- One order is taken out. -/
theorem quantityOf_filter_ne (client action : ID) (side : OrderType) (nodup : os.Nodup)
    (mem : o ∈ os) :
    quantityOf client action side os
      = quantityOf client action side [o] + quantityOf client action side (os.filter (· ≠ o)) := by
  have out := perm_filter_ne nodup (List.perm_cons_erase mem)
  rw [quantityOf_perm (List.perm_cons_erase mem), quantityOf_perm out, ← quantityOf_append]
  rfl

theorem quantityOf_same {o' : OrderRow} (same : o'.Same o) :
    quantityOf client action side [o'] = quantityOf client action side [o] := by
  have counted : (o'.clientId = client ∧ o'.actionId = action ∧ o'.orderType = side) ↔
      (o.clientId = client ∧ o.actionId = action ∧ o.orderType = side) := by
    rw [same.client, same.action, same.side]
  by_cases here : o.clientId = client ∧ o.actionId = action ∧ o.orderType = side
  · simp [quantityOf, counted.mpr here, here, same.quantity]
  · have there := mt counted.mp here
    simp [quantityOf, here, there]

/-- What is executed of an order and what is left of it are all of it. -/
theorem quantityOf_leftover (client action : ID) (side : OrderType) {quantity : Int}
    (enough : quantity ≤ o.quantity) (id done : ID) (price : ℚ) (time : ID × ID) :
    quantityOf client action side [o.executed done quantity price time]
      + quantityOf client action side (o.leftover id quantity)
      = quantityOf client action side [o] := by
  unfold OrderRow.leftover OrderRow.executed
  by_cases left : quantity < o.quantity
  · rw [if_pos left]
    by_cases here : o.clientId = client ∧ o.actionId = action ∧ o.orderType = side
    · simp [quantityOf, here]
    · simp [quantityOf, here]
  · have all : quantity = o.quantity := le_antisymm enough (not_lt.mp left)
    rw [if_neg left, all]
    by_cases here : o.clientId = client ∧ o.actionId = action ∧ o.orderType = side
    · simp [quantityOf, here]
    · simp [quantityOf, here]

end

/-! ### Rounds -/

/-- The PENDING and COMPLETED quantity of every client on every side of every action. -/
def Database.tradable (d : Database) (client action : ID) (side : OrderType) : Int :=
  quantityOf client action side (d.ordersWith .pending)
    + quantityOf client action side (d.ordersWith .completed)

section

variable {env : Env} {action : ID} {others : OrderType → List OrderRow} {s s' : Sweep}
  {buys sells : List OrderRow} {buyer seller bid ask : OrderRow} {e : Settlement}

theorem mem_ordersWith {status : OrderStatus} {d : Database} {o : OrderRow} :
    o ∈ d.ordersWith status ↔ o ∈ d.orders.rows ∧ o.orderStatus = status := by
  simp [Database.ordersWith, Relation.select]

theorem nodup_ordersWith (status : OrderStatus) (d : Database) : (d.ordersWith status).Nodup :=
  (List.Nodup.of_map _ d.orders.unique).filter _

theorem filter_ne_of_status {status : OrderStatus} {o : OrderRow} {d : Database}
    (other : o.orderStatus ≠ status) :
    (d.ordersWith status).filter (· ≠ o) = d.ordersWith status := by
  refine List.filter_eq_self.mpr fun o' mem => decide_eq_true ?_
  rintro rfl
  exact other (mem_ordersWith.mp mem).2

/-- The two orders of a pair are on two sides. -/
theorem Sweep.Lists.seller_ne_buyer
    (lists : s.Lists action others (buyer :: buys) (seller :: sells)) : seller ≠ buyer := by
  intro same
  have bought := (lists.buy_mem (o := buyer) List.mem_cons_self).2.2.1
  have sold := (lists.sell_mem (o := seller) List.mem_cons_self).2.2.1
  rw [same, bought] at sold
  cases sold

theorem filter_status_leftover {o : OrderRow} (id : ID) (quantity : Int) (status : OrderStatus) :
    (o.leftover id quantity).filter (fun o => o.orderStatus = status)
      = if o.orderStatus = status then o.leftover id quantity else [] := by
  unfold OrderRow.leftover
  by_cases here : o.orderStatus = status
  · split <;> simp [here]
  · split <;> simp [here]

/-- **A settled pair** adds two COMPLETED rows, and replaces those of its two orders by what
is left of them. -/
theorem Sweep.Lists.ordersWith_settlePair (same : bid.Same buyer) (same' : ask.Same seller)
    (fresh : env.Fresh) (lists : s.Lists action others (buyer :: buys) (seller :: sells))
    (pos : 0 < min bid.quantity ask.quantity)
    (settled : Sql.settlePair env action bid ask (buys.map OrderRow.orderId)
      (sells.map OrderRow.orderId) s = (s', e)) :
    ∃ id id' done done' time,
      s'.db.ordersWith .completed = s.db.ordersWith .completed
        ++ [bid.executed done e.quantity e.price time,
          ask.executed done' e.quantity e.price time] ∧
      s'.db.ordersWith .pending
        = (((s.db.ordersWith .pending).filter (· ≠ buyer)).filter (· ≠ seller)
          ++ bid.leftover id e.quantity) ++ ask.leftover id' e.quantity := by
  obtain ⟨-, bought⟩ := lists.buy_mem (o := buyer) List.mem_cons_self
  obtain ⟨-, sold⟩ := lists.sell_mem (o := seller) List.mem_cons_self
  have bids := same.rests.mpr bought
  have asks := same'.rests.mpr sold
  obtain ⟨id, id', done, done', -, -, rows⟩ := lists.rows_settlePair_of_same same same' fresh
  have quantity : e.quantity = min bid.quantity ask.quantity :=
    congrArg Settlement.quantity (congrArg Prod.snd settled).symm
  rw [settled, if_pos pos, ← quantity] at rows
  have after : ∀ status, Database.ordersWith status _ = _ := fun status =>
    congrArg (List.filter fun o : OrderRow => o.orderStatus = status) rows
  have old : ∀ status, ((s.db.orders.rows.filter (· ≠ buyer)).filter (· ≠ seller)).filter
      (fun o => o.orderStatus = status)
        = ((s.db.ordersWith status).filter (· ≠ buyer)).filter (· ≠ seller) := by
    intro status
    rw [List.filter_comm, List.filter_comm _ _ s.db.orders.rows]
    rfl
  simp only [List.filter_append, filter_status_leftover, bids.1, asks.1, old] at after
  refine ⟨id, id', done, done', env.now s.transactions, ?_, ?_⟩
  · have stay : (s.db.ordersWith .completed).filter (· ≠ buyer) = s.db.ordersWith .completed :=
      filter_ne_of_status (by simp [bought.1])
    have stay' : (s.db.ordersWith .completed).filter (· ≠ seller) = s.db.ordersWith .completed :=
      filter_ne_of_status (by simp [sold.1])
    rw [after, stay, stay']
    simp [OrderRow.executed]
  · rw [after]
    simp [OrderRow.executed]

/-- What is executed and what is left are what the two orders were for. -/
theorem tradable_settlePair (same : bid.Same buyer) (same' : ask.Same seller) (fresh : env.Fresh)
    (lists : s.Lists action others (buyer :: buys) (seller :: sells))
    (pos : 0 < min bid.quantity ask.quantity)
    (settled : settlePair env action bid ask (buys.map OrderRow.orderId)
      (sells.map OrderRow.orderId) s = (s', e)) : s'.db.tradable = s.db.tradable := by
  obtain ⟨row, bought⟩ := lists.buy_mem (o := buyer) List.mem_cons_self
  obtain ⟨row', sold⟩ := lists.sell_mem (o := seller) List.mem_cons_self
  obtain ⟨id, id', done, done', time, completed, pending⟩ :=
    lists.ordersWith_settlePair same same' fresh pos settled
  have quantity : e.quantity = min bid.quantity ask.quantity :=
    congrArg Settlement.quantity (congrArg Prod.snd settled).symm
  have apart := lists.seller_ne_buyer
  funext client a side
  have whole := quantityOf_leftover client a side (o := bid)
    (quantity.le.trans (min_le_left _ _)) id done e.price time
  have whole' := quantityOf_leftover client a side (o := ask)
    (quantity.le.trans (min_le_right _ _)) id' done' e.price time
  rw [quantityOf_same same] at whole
  rw [quantityOf_same same'] at whole'
  have nodup := nodup_ordersWith .pending s.db
  have first := quantityOf_filter_ne client a side nodup
    (mem_ordersWith.mpr ⟨row, bought.1⟩)
  have second := quantityOf_filter_ne client a side
    (nodup.filter (· ≠ buyer))
    (List.mem_filter.mpr ⟨mem_ordersWith.mpr ⟨row', sold.1⟩, decide_eq_true apart⟩)
  have both : [bid.executed done e.quantity e.price time,
      ask.executed done' e.quantity e.price time]
        = [bid.executed done e.quantity e.price time]
          ++ [ask.executed done' e.quantity e.price time] := rfl
  simp only [Database.tradable, completed, pending, both, quantityOf_append]
  omega

/-- **One round** logs the two rows that it completes. -/
theorem logged_matchStep (fresh : env.Fresh) (text : ℚ → ℚ) (call : MatchCall) (d : Database)
    (s s' : Sweep) (e : Settlement)
    (inv : (∃ buys sells, s.Lists action others buys sells) ∧ s.db.tradable = d.tradable)
    (next : matchStep (call.pair text) env action s = some (s', e)) :
    Loop.Logged
      (fun s : Sweep => (∃ buys sells, s.Lists action others buys sells) ∧
        s.db.tradable = d.tradable)
      (fun s => s.db.ordersWith .completed) Settlement.Completes s (s', [e]) := by
  obtain ⟨⟨buys, sells, lists⟩, same⟩ := inv
  obtain ⟨buyer, buys', seller, sells', bid, ask, id, id', rfl, rfl, reads, reads', found, settled,
    after, -⟩ := lists.matchStep_of_same (call.readsOrders_pair text) fresh next
  have pos := call.pos_of_pair found
  obtain ⟨-, bought⟩ := lists.buy_mem (o := buyer) List.mem_cons_self
  obtain ⟨-, sold⟩ := lists.sell_mem (o := seller) List.mem_cons_self
  have bids := reads.rests.mpr bought
  have asks := reads'.rests.mpr sold
  obtain ⟨-, -, done, done', time, completed, -⟩ :=
    lists.ordersWith_settlePair reads reads' fresh pos settled
  have kept := tradable_settlePair reads reads' fresh lists pos settled
  have records : e.Completes [bid.executed done e.quantity e.price time,
      ask.executed done' e.quantity e.price time] := by
    obtain ⟨-, rfl⟩ := Prod.mk.inj settled
    exact ⟨_, _, rfl, ⟨rfl, bids.2.1, rfl, bids.2.2, rfl, rfl⟩,
      ⟨rfl, asks.2.1, rfl, asks.2.2, rfl, rfl⟩⟩
  refine ⟨⟨⟨_, _, after⟩, kept.trans same⟩, [_], .cons records .nil, ?_⟩
  simpa using completed

theorem mem_leftover {o r : OrderRow} {id : ID} {quantity : Int} :
    r ∈ o.leftover id quantity ↔
      quantity < o.quantity ∧ r = { o with orderId := id, quantity := o.quantity - quantity } := by
  unfold OrderRow.leftover
  split
  · rename_i less
    rw [List.mem_singleton, and_iff_right less]
  · rename_i none
    exact iff_of_false List.not_mem_nil fun more => none more.1

/-- What is left of an order as it was read is a part of it if it reads back. -/
theorem partOf_leftover_read {o : OrderRow} {text : ℚ → ℚ} (id : ID) {quantity : Int}
    (pos : 0 < quantity) : (∀ r ∈ (o.read text).leftover id quantity, r.PartOf o) ↔
      (quantity < o.quantity → o.read text = o) := by
  constructor
  · intro parts less
    rcases parts _ (mem_leftover.mpr ⟨less, rfl⟩) with same | ⟨id', quantity', -, -, eq⟩
    · have left : o.quantity - quantity = o.quantity := congrArg OrderRow.quantity same
      omega
    · have price : text o.price = o.price := congrArg OrderRow.price eq
      have lower : text o.triggerPriceLower = o.triggerPriceLower :=
        congrArg OrderRow.triggerPriceLower eq
      have upper : text o.triggerPriceUpper = o.triggerPriceUpper :=
        congrArg OrderRow.triggerPriceUpper eq
      rw [OrderRow.read, price, lower, upper]
  · intro readBack r mem
    obtain ⟨less, rfl⟩ := mem_leftover.mp mem
    rw [readBack less] at less ⊢
    exact .inr ⟨id, o.quantity - quantity, by omega, by omega, rfl⟩

/-- Where two of some rows are replaced, the others stay. -/
theorem mem_replaced {a b : OrderRow} {old left new : List OrderRow}
    (replaced : new = (old.filter (· ≠ a)).filter (· ≠ b) ++ left) (nodup : new.Nodup)
    (first : a ∈ old) (second : b ∈ old) (others : ∀ r ∈ left, r ≠ a ∧ r ≠ b) :
    (∀ r, r ∈ new ∧ r ∉ old ↔ r ∈ left) ∧ ∀ o, o ∈ old ∧ o ∉ new ↔ o = a ∨ o = b := by
  have stays : ∀ r, r ∈ (old.filter (· ≠ a)).filter (· ≠ b) ↔ r ∈ old ∧ r ≠ a ∧ r ≠ b := by
    intro r
    simp only [List.mem_filter, decide_eq_true_eq, and_assoc]
  rw [replaced] at nodup
  have apart := (List.nodup_append.mp nodup).2.2
  have unknown : ∀ r ∈ left, r ∉ old := fun r mem known =>
    apart r ((stays r).mpr ⟨known, others r mem⟩) r mem rfl
  subst replaced
  refine ⟨fun r => ?_, fun o => ?_⟩
  · rw [List.mem_append, stays]
    exact ⟨fun ⟨mem, new⟩ => mem.resolve_left fun kept => new kept.1,
      fun mem => ⟨.inr mem, unknown r mem⟩⟩
  · rw [List.mem_append, stays]
    constructor
    · rintro ⟨known, gone⟩
      by_contra neither
      rw [not_or] at neither
      exact gone (.inl ⟨known, neither⟩)
    · rintro (rfl | rfl)
      · exact ⟨first, fun mem => mem.elim (fun kept => kept.2.1 rfl) fun new => (others _ new).1 rfl⟩
      · exact ⟨second, fun mem => mem.elim (fun kept => kept.2.2 rfl) fun new => (others _ new).2 rfl⟩

/-- **A settled pair** keeps the terms of its two orders if and only if the one that is filled in
part reads back. -/
theorem keepsTerms_iff (text : ℚ → ℚ) (fresh : env.Fresh)
    (lists : s.Lists action others (buyer :: buys) (seller :: sells))
    (pos : 0 < min buyer.quantity seller.quantity)
    (settled : settlePair env action (buyer.read text) (seller.read text)
      (buys.map OrderRow.orderId) (sells.map OrderRow.orderId) s = (s', e)) :
    e.KeepsTerms ↔ (seller.quantity < buyer.quantity → buyer.read text = buyer) ∧
      (buyer.quantity < seller.quantity → seller.read text = seller) := by
  obtain ⟨row, bought⟩ := lists.buy_mem (o := buyer) List.mem_cons_self
  obtain ⟨row', sold⟩ := lists.sell_mem (o := seller) List.mem_cons_self
  obtain ⟨id, id', -, -, -, -, pending⟩ :=
    lists.ordersWith_settlePair (buyer.same_read text) (seller.same_read text) fresh pos settled
  rw [List.append_assoc] at pending
  have quantity : e.quantity = min buyer.quantity seller.quantity :=
    congrArg Settlement.quantity (congrArg Prod.snd settled).symm
  have before : e.before = s.db := congrArg Settlement.before (congrArg Prod.snd settled).symm
  have after : e.after = s'.db := by
    obtain ⟨rfl, rfl⟩ := Prod.mk.inj settled
    rfl
  have some : 0 < e.quantity := quantity ▸ pos
  -- what is left is of one side, and for less
  have left : ∀ r ∈ (buyer.read text).leftover id e.quantity, r.orderType = .buy ∧ r ≠ buyer := by
    intro r mem
    obtain ⟨-, rfl⟩ := mem_leftover.mp mem
    refine ⟨bought.2.1, fun same => ?_⟩
    have less : buyer.quantity - e.quantity = buyer.quantity := congrArg OrderRow.quantity same
    omega
  have left' : ∀ r ∈ (seller.read text).leftover id' e.quantity,
      r.orderType = .sell ∧ r ≠ seller := by
    intro r mem
    obtain ⟨-, rfl⟩ := mem_leftover.mp mem
    refine ⟨sold.2.1, fun same => ?_⟩
    have less : seller.quantity - e.quantity = seller.quantity := congrArg OrderRow.quantity same
    omega
  have unlike {r r' : OrderRow} (buy : r.orderType = .buy) (sell : r'.orderType = .sell) :
      r ≠ r' := by
    rintro rfl
    cases buy.symm.trans sell
  obtain ⟨opened, closed⟩ := mem_replaced pending (nodup_ordersWith .pending s'.db)
    (mem_ordersWith.mpr ⟨row, bought.1⟩) (mem_ordersWith.mpr ⟨row', sold.1⟩) fun r mem =>
      (List.mem_append.mp mem).elim
        (fun mem => ⟨(left r mem).2, unlike (left r mem).1 sold.2.1⟩)
        fun mem => ⟨(unlike bought.2.1 (left' r mem).1).symm, (left' r mem).2⟩
  have parts : e.KeepsTerms ↔
      (∀ r ∈ (buyer.read text).leftover id e.quantity, r.PartOf buyer) ∧
        ∀ r ∈ (seller.read text).leftover id' e.quantity, r.PartOf seller := by
    have type {r o : OrderRow} (part : r.PartOf o) : r.orderType = o.orderType := by
      rcases part with rfl | ⟨_, _, -, -, rfl⟩
      · rfl
      · rfl
    unfold Settlement.KeepsTerms
    rw [before, after]
    constructor
    · intro keeps
      have of_new {r : OrderRow} (mem : r ∈ (buyer.read text).leftover id e.quantity
          ++ (seller.read text).leftover id' e.quantity) : r.PartOf buyer ∨ r.PartOf seller := by
        obtain ⟨there, new⟩ := (opened r).mpr mem
        obtain ⟨o, known, gone, part⟩ := keeps r there new
        rcases (closed o).mp ⟨known, gone⟩ with rfl | rfl
        · exact .inl part
        · exact .inr part
      refine ⟨fun r mem => (of_new (List.mem_append_left _ mem)).resolve_right fun part => ?_,
        fun r mem => (of_new (List.mem_append_right _ mem)).resolve_left fun part => ?_⟩
      · exact unlike (left r mem).1 ((type part).trans sold.2.1) rfl
      · exact unlike ((type part).trans bought.2.1) (left' r mem).1 rfl
    · rintro ⟨parts, parts'⟩ r there new
      rcases List.mem_append.mp ((opened r).mp ⟨there, new⟩) with mem | mem
      · obtain ⟨known, gone⟩ := (closed buyer).mpr (.inl rfl)
        exact ⟨buyer, known, gone, parts r mem⟩
      · obtain ⟨known, gone⟩ := (closed seller).mpr (.inr rfl)
        exact ⟨seller, known, gone, parts' r mem⟩
  rw [parts, partOf_leftover_read id some, partOf_leftover_read id' some, quantity]
  simp

/-- **All rounds** keep the terms of their orders if and only if the orders that are filled in
part read back. -/
theorem keepsTerms_run (fresh : env.Fresh) (text : ℚ → ℚ) (call : MatchCall) (n : Nat) :
    ∀ {s : Sweep} {buys sells : List OrderRow} {bids asks : List (OrderRow × Int)},
      s.Lists action others buys sells → List.Forall₂ Stands buys bids →
      List.Forall₂ Stands sells asks →
      ((∀ e ∈ (Loop.run (matchStep (call.pair text) env action) n s).2, e.KeepsTerms) ↔
        ∀ o ∈ call.cut text s.db.clientExists n bids asks, o.read text = o) := by
  induction n with
  | zero =>
      exact fun _ _ _ => iff_of_true (fun _ mem => absurd mem List.not_mem_nil)
        fun _ mem => absurd mem List.not_mem_nil
  | succ n ih =>
      intro s buys sells bids asks lists bought sold
      cases next : matchStep (call.pair text) env action s with
      | none =>
          rw [Loop.run_of_halted next, lists.cut_of_halted bought sold next]
          exact iff_of_true (fun _ mem => absurd mem List.not_mem_nil)
            fun _ mem => absurd mem List.not_mem_nil
      | some pair =>
          obtain ⟨s', e⟩ := pair
          obtain ⟨buyer, buys', seller, sells', x, bids', y, asks', id, id',
            ⟨rfl, rfl, stands, bought'⟩, ⟨rfl, rfl, stands', sold'⟩, trades, settled, after,
            clients⟩ := lists.readStep fresh bought sold next
          obtain ⟨quantity, -⟩ := stands.fields
          obtain ⟨quantity', -⟩ := stands'.fields
          have pos : 0 < min buyer.quantity seller.quantity := by
            rw [quantity, quantity']
            exact lt_min trades.2.2.1 trades.2.2.2
          have first := keepsTerms_iff text fresh lists pos settled
          have parts : (∀ o ∈ (if y.2 < x.2 then [x.1] else []) ++
              (if x.2 < y.2 then [y.1] else []),
              o.read text = o) ↔ (seller.quantity < buyer.quantity → buyer.read text = buyer) ∧
                (buyer.quantity < seller.quantity → seller.read text = seller) := by
            rw [quantity, quantity', stands.read_eq, stands'.read_eq, List.forall_mem_append]
            by_cases more : y.2 < x.2 <;> by_cases less : x.2 < y.2 <;> simp [more, less]
          rw [Loop.run_of_step next, List.forall_mem_cons, MatchCall.cut_of_trades trades,
            List.forall_mem_append, parts, first]
          refine and_congr_right fun readBack => ?_
          rw [leftover_read fun more =>
            readBack.1 ((min_lt_iff.mp more).resolve_left (lt_irrefl _)),
            leftover_read fun more => readBack.2 ((min_lt_iff.mp more).resolve_right (lt_irrefl _))]
            at after
          have left := stands_leave stands bought' id (min buyer.quantity seller.quantity)
          have left' := stands_leave stands' sold' id' (min buyer.quantity seller.quantity)
          rw [quantity, quantity'] at left left' after
          rw [← clients]
          exact ih after left left'

end

/-! ### Calls -/

namespace Market

variable {env : Env} {m : Market}

/-- What the settled pairs of a call should do to the rows of the database: each adds two
COMPLETED rows, for the buyer and for the seller, and each client's PENDING quantity is less by
what is completed for him. -/
def Logs (m m' : Market) (es : List Settlement) : Prop :=
  ∃ added : List (List OrderRow), List.Forall₂ Settlement.Completes es added ∧
    m'.db.ordersWith .completed = m.db.ordersWith .completed ++ added.flatten ∧
    ∀ client action side,
      quantityOf client action side (m.db.ordersWith .pending)
        = quantityOf client action side (m'.db.ordersWith .pending)
          + quantityOf client action side added.flatten

/-- A call loses nothing: no quantity, and nothing that an order says. -/
structure LosesNothing (m m' : Market) (es : List Settlement) : Prop where
  logs : Logs m m' es
  terms : ∀ e ∈ es, e.KeepsTerms

/-- The loop of one action. -/
theorem logged_matchAction (fresh : env.Fresh) (text : ℚ → ℚ) (call : MatchCall)
    (others : OrderType → ID → List OrderRow) (d : Database) (action : ID) (m : Market)
    (inv : m.Strands others ∧ m.db.tradable = d.tradable) :
    Loop.Logged (fun m : Market => m.Strands others ∧ m.db.tradable = d.tradable)
      (fun m => m.db.ordersWith .completed) Settlement.Completes m
      (matchAction (call.pair text) env action m) := by
  obtain ⟨⟨orders, lists⟩, same⟩ := inv
  have strands := (keeps_strands_matchAction (call.readsOrders_pair text) fresh others action m
    ⟨orders, lists⟩).inv
  rcases matchAction_swept (call.pair text) env action m with ⟨idle, -⟩ | ⟨-, run⟩
  · rw [idle]
    exact .idle ⟨⟨orders, lists⟩, same⟩
  · have logged := Loop.logged_run (logged_matchStep fresh text call d)
      ((m.orderIds .buy action).length + (m.orderIds .sell action).length) _
      ⟨⟨_, _, lists.sweep action⟩, same⟩
    rw [run] at strands ⊢
    exact ⟨⟨strands, logged.inv.2⟩, logged.entries⟩

/-- **Every call** logs what it trades. -/
theorem logs_runText (fresh : env.Fresh) (text : ℚ → ℚ) (order : IterationOrder ID (List ID))
    (call : MatchCall) (backed : m.Backed) :
    Logs m (call.runText text env order m).1 (call.runText text env order m).2 := by
  obtain ⟨others, lists⟩ := backed.lists
  have logged := Loop.logged_chain (logged_matchAction fresh text call others m.db)
    (call.actions order m) m ⟨⟨_, lists⟩, rfl⟩
  rw [← call.runText_eq_chain] at logged
  obtain ⟨⟨-, same⟩, added, completes, completed⟩ := logged
  refine ⟨added, completes, completed, fun client action side => ?_⟩
  have total := congrFun (congrFun (congrFun same client) action) side
  simp only [Database.tradable, completed, quantityOf_append] at total
  omega

/-- The loop of one action keeps the terms of its orders if and only if those that it fills in
part read back. -/
theorem Backed.keepsTerms_matchAction (backed : m.Backed) (fresh : env.Fresh) (text : ℚ → ℚ)
    (call : MatchCall) (action : ID) :
    (∀ e ∈ (matchAction (call.pair text) env action m).2, e.KeepsTerms) ↔
      ∀ o ∈ call.cutOrders text m action, o.read text = o := by
  obtain ⟨others, lists⟩ := backed.lists
  have rounds := keepsTerms_run fresh text call
    ((m.orderIds .buy action).length + (m.orderIds .sell action).length) (lists.sweep action)
    (stands_offers _) (stands_offers _)
  rw [lists.cutOrders]
  rcases matchAction_swept (call.pair text) env action m with ⟨idle, empty⟩ | ⟨-, run⟩
  · rw [idle]
    refine iff_of_true (fun _ mem => absurd mem List.not_mem_nil) ?_
    rw [lists.ids, lists.ids, List.map_eq_nil_iff, List.map_eq_nil_iff] at empty
    refine rounds.mp ?_
    have halted : matchStep (call.pair text) env action
        (m.sweep (m.orderIds .buy action) (m.orderIds .sell action)) = none := by
      rw [lists.ids, lists.ids]
      rcases empty with none | none
      · rw [none]
        rfl
      · rw [none]
        unfold matchStep
        split
        · rename_i left
          cases left
        · rfl
    rw [Loop.run_of_halted halted]
    exact fun _ mem => absurd mem List.not_mem_nil
  · rw [run]
    exact rounds

/-- The loops of some actions, one after the other. -/
theorem Backed.keepsTerms_chain (fresh : env.Fresh) (text : ℚ → ℚ) (call : MatchCall) :
    ∀ (actions : List ID) {m : Market}, actions.Nodup → m.Backed →
      ((∀ e ∈ (Loop.chain (matchAction (call.pair text) env) actions m).2, e.KeepsTerms) ↔
        ∀ action ∈ actions, ∀ o ∈ call.cutOrders text m action, o.read text = o)
  | [], _, _, _ => iff_of_true (fun _ mem => absurd mem List.not_mem_nil)
        fun _ mem => absurd mem List.not_mem_nil
  | a :: actions, m, nodup, backed => by
      obtain ⟨absent, nodup⟩ := List.nodup_cons.mp nodup
      obtain ⟨others, lists⟩ := backed.lists
      have after : (matchAction (call.pair text) env a m).1.Backed :=
        Strands.backed (keeps_strands_matchAction (call.readsOrders_pair text) fresh others a m
          ⟨_, lists⟩).inv
      have others' : ∀ action ∈ actions, (∀ o ∈ call.cutOrders text
          (matchAction (call.pair text) env a m).1 action, o.read text = o) ↔
          ∀ o ∈ call.cutOrders text m action, o.read text = o := by
        intro action mem
        have other : action ≠ a := fun eq => absent (eq ▸ mem)
        rw [(backed.other_action fresh other).2.2]
      rw [Loop.chain, List.forall_mem_append, List.forall_mem_cons,
        backed.keepsTerms_matchAction fresh, keepsTerms_chain fresh text call actions nodup after]
      exact and_congr_right fun _ => forall₂_congr others'

/-- **Matching loses nothing**, of any book, if and only if every order that the call fills in
part reads back from its text. -/
theorem losesNothing_iff (fresh : env.Fresh) (text : ℚ → ℚ) (order : IterationOrder ID (List ID))
    (call : MatchCall) (backed : m.Backed) :
    LosesNothing m (call.runText text env order m).1 (call.runText text env order m).2 ↔
      ReadsBack text order call m := by
  have terms := Backed.keepsTerms_chain fresh text call (call.actions order m)
    (nodup_actions order m) backed
  rw [← call.runText_eq_chain] at terms
  constructor
  · exact fun none => terms.mp none.terms
  · exact fun readBack => ⟨logs_runText fresh text order call backed, terms.mpr readBack⟩

/-- 15 of the 20 that are offered are traded, and what is left says what the offer said. -/
theorem losesNothing_iff_twoPrices :
    LosesNothing twoPrices (MatchCall.runText fifteenDigits countingEnv .stored .fixing twoPrices).1
        (MatchCall.runText fifteenDigits countingEnv .stored .fixing twoPrices).2 ∧
      quantityOf 2 1 .sell ((MatchCall.runText fifteenDigits countingEnv .stored .fixing
        twoPrices).1.db.ordersWith .pending) = 5 := by
  have readBack : ReadsBack fifteenDigits .stored .fixing twoPrices := by
    unfold ReadsBack
    decide +kernel
  exact ⟨(losesNothing_iff fresh_countingEnv fifteenDigits .stored .fixing
    backed_twoPrices).mpr readBack, by decide +kernel⟩

/-- The double next to a third of 100. -/
def third : ℚ := Binary64.round (100 / 3)

/-- Client 2 of `init` offers 10 at this price, and client 1 bids 50 for 4. -/
def offerOfThird : Market :=
  (({ db := Database.demo 0 1 } : Market).accumulateOrder (limitRow 1 2 .sell 10 third)
    ).accumulateOrder (limitRow 2 1 .buy 4 50)

theorem backed_offerOfThird : offerOfThird.Backed := by
  obtain ⟨orders, lists⟩ := strands_start (Database.demo 0 1)
  obtain ⟨orders, lists⟩ := lists.accumulateOrder (o := limitRow 1 2 .sell 10 third)
    (by decide +kernel)
  exact (lists.accumulateOrder (o := limitRow 2 1 .buy 4 50) (by decide +kernel)).backed

/-- The 6 that are left are offered at another price. -/
theorem leftover_loses_digits : ¬∀ (m : Market) (call : MatchCall), m.Backed →
    LosesNothing m (call.runText fifteenDigits countingEnv .stored m).1
      (call.runText fifteenDigits countingEnv .stored m).2 := by
  intro claim
  have none := claim offerOfThird (.continuousTrading 1) backed_offerOfThird
  have readBack := (losesNothing_iff fresh_countingEnv fifteenDigits .stored _
    backed_offerOfThird).mp none
  exact absurd readBack (by unfold ReadsBack; decide +kernel)

end Market

end StockMarket.Sql
