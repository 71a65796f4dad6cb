import StockMarket.Sql.Crossing
import StockMarket.Sql.Spending

/-!
Cover for open orders.

What the PENDING and WAITING orders of a client reserve should be there: cash for those to
BUY, shares for those to SELL (`Database.Covered`); then no leg of a trade should be refused
when a match settles (`Settlement.Settles`). This is not enough. `can_afford` counts the order
that is filled once more, and a trade at a higher price raises what MARKET orders reserve.

`Settlement.Funded` says what a trade takes besides. Then it settles and leaves open orders
covered (`Sweep.Ready.settles`, `Sweep.Ready.covered_after`), and so do all rounds of a call
(`Market.Backed.safe_runText`). `can_afford` is here the one that computes in doubles
(`Rounded.canAfford`), prices are read from texts, and no balance is rounded.
-/

namespace StockMarket.Sql

open Client Database

/-! ### Sums over open orders -/

/-- What an order counts for in a sum over the open ones, by what a unit of it counts for. -/
def OrderRow.weight {R : Type} [CommRing R] (unit : OrderRow → R) (o : OrderRow) : R :=
  if o.IsOpen then o.quantity * unit o else 0

/-- A sum over the open orders. -/
def Database.openTotal {R : Type} [CommRing R] (unit : OrderRow → R) (d : Database) : R :=
  (d.orders.rows.map (OrderRow.weight unit)).sum

/-- A unit of what is left of an order counts for what a unit of the order does. -/
def SameForParts {R : Type} (unit : OrderRow → R) : Prop :=
  ∀ (o : OrderRow) (id : ID) (quantity : Int),
    unit { o with orderId := id, quantity := quantity } = unit o

/-- The first two orders are settled, as they are read. -/
def Sweep.settleRead (text : ℚ → ℚ) (env : Env) (action : ID) (buyer seller : OrderRow)
    (buys sells : List OrderRow) (s : Sweep) : Sweep × Settlement :=
  settlePair env action (buyer.read text) (seller.read text) (buys.map OrderRow.orderId)
    (sells.map OrderRow.orderId) s

section

variable {R : Type} [CommRing R] {unit : OrderRow → R} {env : Env} {d : Database} {action : ID}
  {others : OrderType → List OrderRow} {s : Sweep} {buys sells : List OrderRow}
  {buyer seller o : OrderRow} {text : ℚ → ℚ} {os : List OrderRow}

/-- A sum over some orders. -/
theorem sum_filter_map {p : OrderRow → Bool} {f g : OrderRow → R} (os : List OrderRow)
    (same : ∀ o, (if p o then f o else 0) = g o) : ((os.filter p).map f).sum = (os.map g).sum := by
  induction os with
  | nil => rfl
  | cons o os ih =>
      rw [List.filter_cons, List.map_cons, List.sum_cons, ← same, ← ih]
      split <;> simp

/-- One order is taken out. -/
theorem sum_filter_ne (f : OrderRow → R) (nodup : os.Nodup) (mem : o ∈ os) :
    ((os.filter (· ≠ o)).map f).sum = (os.map f).sum - f o := by
  obtain ⟨front, back, rfl⟩ := List.append_of_mem mem
  have less := perm_filter_ne nodup List.perm_middle
  rw [(less.map f).sum_eq, (List.perm_middle.map f).sum_eq, List.map_cons, List.sum_cons,
    add_sub_cancel_left]

/-- What is left of an open order. -/
theorem weight_leftover (parts : SameForParts unit) (rests : o.IsOpen) (id : ID) {quantity : Int}
    (le : quantity ≤ o.quantity) :
    ((o.leftover id quantity).map (OrderRow.weight unit)).sum
      = o.weight unit - quantity * unit o := by
  have all : o.weight unit = o.quantity * unit o := if_pos rests
  unfold OrderRow.leftover
  split
  · have left : OrderRow.weight unit { o with orderId := id, quantity := o.quantity - quantity }
        = (o.quantity - quantity : Int) * unit o := by
      rw [OrderRow.weight, parts]
      exact if_pos rests
    rw [List.map_singleton, List.sum_singleton, left, all, Int.cast_sub, sub_mul]
  · have filled : quantity = o.quantity := by omega
    rw [List.map_nil, List.sum_nil, all, filled, sub_self]

/-- The rows after a pair is settled, if what is left of its orders reads back. -/
theorem rows_settleRead (fresh : env.Fresh)
    (lists : s.Lists action others (buyer :: buys) (seller :: sells))
    (readBack : ∀ o ∈ [buyer, seller],
      min buyer.quantity seller.quantity < o.quantity → o.read text = o) :
    ∃ id id' done done',
      (s.settleRead text env action buyer seller buys sells).1.db.orders.rows
        = ((((s.db.orders.rows.filter (· ≠ buyer)).filter (· ≠ seller))
          ++ if 0 < min buyer.quantity seller.quantity then
              [(buyer.read text).executed done (min buyer.quantity seller.quantity)
                (s.settleRead text env action buyer seller buys sells).2.price
                (env.now s.transactions),
              (seller.read text).executed done' (min buyer.quantity seller.quantity)
                (s.settleRead text env action buyer seller buys sells).2.price
                (env.now s.transactions)]
            else [])
          ++ buyer.leftover id (min buyer.quantity seller.quantity))
          ++ seller.leftover id' (min buyer.quantity seller.quantity) := by
  obtain ⟨id, id', done, done', -, -, rows⟩ :=
    lists.rows_settlePair_of_same (buyer.same_read text) (seller.same_read text) fresh
  have quantities : (buyer.read text).quantity = buyer.quantity ∧
    (seller.read text).quantity = seller.quantity := ⟨rfl, rfl⟩
  rw [quantities.1, quantities.2, leftover_read (readBack buyer List.mem_cons_self),
    leftover_read (readBack seller (List.mem_cons_of_mem _ List.mem_cons_self))] at rows
  exact ⟨id, id', done, done', rows⟩

/-- **A settled pair** takes what it settles off a sum over the open orders. -/
theorem openTotal_settleRead (env : Env) {unit : OrderRow → R} (parts : SameForParts unit)
    (fresh : env.Fresh)
    (lists : s.Lists action others (buyer :: buys) (seller :: sells))
    (readBack : ∀ o ∈ [buyer, seller],
      min buyer.quantity seller.quantity < o.quantity → o.read text = o) :
    (s.settleRead text env action buyer seller buys sells).1.db.openTotal unit
      = s.db.openTotal unit - (min buyer.quantity seller.quantity : Int) * unit buyer
        - (min buyer.quantity seller.quantity : Int) * unit seller := by
  obtain ⟨bought, buys'⟩ := lists.buy_mem (o := buyer) List.mem_cons_self
  obtain ⟨sold, sells'⟩ := lists.sell_mem (o := seller) List.mem_cons_self
  obtain ⟨id, id', done, done', rows⟩ := rows_settleRead fresh lists readBack
  have apart : seller ≠ buyer := by
    rintro rfl
    cases (rests_unique buys' sells').1
  have nodup : s.db.orders.rows.Nodup := List.Nodup.of_map _ s.db.orders.unique
  have executed : ∀ (o : OrderRow) id quantity price time,
      OrderRow.weight unit (o.executed id quantity price time) = 0 :=
    fun _ _ _ _ _ => if_neg fun rests => by rcases rests with rests | rests <;> cases rests
  have gone : ∀ price time, ((if 0 < min buyer.quantity seller.quantity then
      [(buyer.read text).executed done (min buyer.quantity seller.quantity) price time,
      (seller.read text).executed done' (min buyer.quantity seller.quantity) price time]
      else []).map
        (OrderRow.weight unit)).sum = 0 := by
    intro price time
    split
    · simp [executed]
    · rfl
  rw [openTotal, rows]
  simp only [List.map_append, List.sum_append]
  rw [gone, weight_leftover parts (.inl buys'.1) id (min_le_left _ _),
    weight_leftover parts (.inl sells'.1) id' (min_le_right _ _),
    sum_filter_ne _ (nodup.filter _) (List.mem_filter.mpr ⟨sold, decide_eq_true apart⟩),
    sum_filter_ne _ nodup bought, openTotal]
  ring

end

/-! ### Cover -/

/-- An order is of a client there is, and asks for no negative price or quantity. -/
structure OrderRow.Placed (d : Database) (o : OrderRow) : Prop where
  price : 0 ≤ o.price
  counts : o.Counts
  owner : (d.clients.find o.clientId).isSome

namespace Database

/-- What the open BUY orders of a client reserve. -/
def reservedByBuys (env : Env) (client : ID) (d : Database) : ℚ :=
  ((d.orders.select fun o => o.clientId = client ∧ o.orderType = .buy ∧ o.IsOpen).map
    (d.openAmount env)).sum

/-- What the open SELL orders of a client offer of an action. -/
def offeredBySells (client action : ID) (d : Database) : Int :=
  ((d.orders.select fun o => o.clientId = client ∧ o.actionId = action ∧ o.orderType = .sell ∧
    o.IsOpen).map OrderRow.quantity).sum

/-- The open orders are covered. -/
structure Covered (env : Env) (d : Database) : Prop where
  cash : ∀ client, d.reservedByBuys env client ≤ d.ledger.cash client
  shares : ∀ client action, d.offeredBySells client action ≤ d.ledger.shares client action

/-- What a unit of an open order counts for in `can_afford`. -/
def unitPrice (env : Env) (d : Database) (o : OrderRow) : ℚ :=
  if o.triggerType = .market then (d.latestPrice env o.actionId).head?.getD 0 * safetyPercentage
  else o.price

/-- What a unit of it reserves of a client's cash. -/
def cashUnit (env : Env) (client : ID) (d : Database) (o : OrderRow) : ℚ :=
  if o.clientId = client ∧ o.orderType = .buy then d.unitPrice env o else 0

/-- What a unit of it reserves of a client's shares of an action. -/
def shareUnit (client action : ID) (o : OrderRow) : Int :=
  if o.clientId = client ∧ o.actionId = action ∧ o.orderType = .sell then 1 else 0

section

variable {env : Env} {client action : ID} {d d' : Database}

theorem sameForParts_cashUnit (env : Env) (client : ID) (d : Database) :
    SameForParts (d.cashUnit env client) := fun _ _ _ => rfl

theorem sameForParts_shareUnit (client action : ID) :
    SameForParts (shareUnit client action) := fun _ _ _ => rfl

theorem openAmount_eq (o : OrderRow) : d.openAmount env o = o.quantity * d.unitPrice env o := rfl

theorem reservedByBuys_eq : d.reservedByBuys env client = d.openTotal (d.cashUnit env client) := by
  refine sum_filter_map _ fun o => ?_
  unfold OrderRow.weight cashUnit
  rw [openAmount_eq]
  grind

theorem offeredBySells_eq :
    d.offeredBySells client action = d.openTotal (shareUnit client action) := by
  refine sum_filter_map _ fun o => ?_
  simp only [OrderRow.weight, shareUnit, Int.cast_id]
  grind

end

/-- No price is negative, and every order is such an order. -/
structure Priced (d : Database) : Prop where
  prices : ∀ r ∈ d.prices, 0 ≤ r.price
  orders : ∀ o ∈ d.orders.rows, o.Placed d

section

variable {env : Env} {client action : ID} {d d' : Database}

theorem unitPrice_nonneg (priced : d.Priced) (env : Env) {o : OrderRow} (mem : o ∈ d.orders.rows) :
    0 ≤ d.unitPrice env o := by
  unfold unitPrice
  split
  · refine mul_nonneg ?_ (by decide +kernel)
    unfold latestPrice
    cases found : env.latest.pick (d.prices.filter fun p => p.actionId = o.actionId) with
    | none => exact le_rfl
    | some r => exact priced.prices r (List.mem_filter.mp (env.latest.latestIn found).1).1
  · exact (priced.orders o mem).price

theorem cashUnit_nonneg (priced : d.Priced) (env : Env) (client : ID) {o : OrderRow}
    (mem : o ∈ d.orders.rows) : 0 ≤ d.cashUnit env client o := by
  unfold cashUnit
  split
  · exact unitPrice_nonneg priced env mem
  · exact le_rfl

/-- Purchases reserve no more than all open orders. -/
theorem reservedByBuys_le (priced : d.Priced) (env : Env) (client : ID) :
    d.reservedByBuys env client ≤ d.reserved env client := by
  have all : d.reserved env client = (d.orders.rows.map fun o =>
      if o.clientId = client ∧ o.IsOpen then d.openAmount env o else 0).sum := by
    refine sum_filter_map _ fun o => ?_
    simp only [decide_eq_true_eq]
    rfl
  rw [all, reservedByBuys_eq]
  refine List.sum_le_sum fun o mem => ?_
  have counts : (0 : ℚ) ≤ o.quantity := by exact_mod_cast (priced.orders o mem).counts.1
  have amount := mul_nonneg counts (unitPrice_nonneg priced env mem)
  simp only [OrderRow.weight, cashUnit, openAmount_eq]
  split <;> split <;> grind

end

end Database

namespace Settlement

/-- What the trade pays. -/
def amount (e : Settlement) : ℚ := e.price * e.quantity

/-- The database before the trade, with the price that it notes. -/
def noted (e : Settlement) : Database := { e.before with prices := e.after.prices }

/-- The cash that the seller is paid on top of: less the amount if he is the buyer, too. -/
def paidBy (e : Settlement) (client : ID) : ℚ :=
  e.before.ledger.cash client - if client = e.buyer then e.amount else 0

/-- What the program's doubles make of a client's balance. -/
def settleCash (e : Settlement) (client : ID) (balance : Double) : Double :=
  let paid := if client = e.buyer then balance - .finite e.price * (e.quantity : Double) else balance
  if client = e.seller then paid + .finite e.price * (e.quantity : Double) else paid

/-- The client has an open BUY order at the market for the action of the trade. -/
def MarketBuyer (e : Settlement) (client : ID) : Prop :=
  ∃ o ∈ e.before.orders.rows, o.clientId = client ∧ o.actionId = e.action ∧ o.orderType = .buy ∧
    o.IsOpen ∧ o.triggerType = .market

/-- What a trade takes to settle. `can_afford` counts the order that is filled, and SELL orders,
so the amount is paid out of what all open orders leave (`free`, and `computed` in doubles), and
takes `max_number` for no price. A new price raises what MARKET orders reserve (`raised`). The
shares that are sold are an `int`, and no balance is rounded. -/
structure Funded (sum : List Double → Double) (env : Env) (e : Settlement) : Prop where
  price : e.price ≠ maxNumber
  free : e.amount + e.before.reserved env e.buyer ≤ e.before.ledger.cash e.buyer
  computed : (e.quantity : Double) * .finite e.price ≤ Rounded.spendable sum env e.buyer e.before
  raised : ∀ client, e.MarketBuyer client →
    (if client = e.buyer then e.amount else 0) + e.noted.reservedByBuys env client
      ≤ e.before.ledger.cash client
  holding : e.before.ledger.shares e.seller e.action
    + (if e.buyer = e.seller then e.quantity else 0) < 2 ^ 31
  quantity : Binary64.Exact (e.quantity : ℚ)
  exact_amount : Binary64.Exact e.amount
  bought : Binary64.Exact (e.paidBy e.buyer)
  sold : Binary64.Exact (e.paidBy e.seller + e.amount)

/-- Both legs pass their checks, as the program computes them, and are booked. -/
structure Settles (sum : List Double → Double) (env : Env) (e : Settlement) : Prop where
  bought : Rounded.canAfford sum env e.buyer e.action e.quantity (.finite e.price) e.before
  sold : ∀ daily date, hasShares e.seller e.action e.quantity
    (updatePortfolio env e.buyer e.action e.quantity e.price daily date .buy e.before)
  ledger : e.after.ledger = e.before.ledger.transfer e.buyer e.seller e.action e.amount e.quantity
  cash : ∀ client, .finite (e.after.ledger.cash client)
    = e.settleCash client (.finite (e.before.ledger.cash client))

variable {sum : List Double → Double} {env : Env} {e : Settlement}

/-- The product that both legs compute. -/
theorem Funded.pays (funded : e.Funded sum env) :
    .finite e.price * (e.quantity : Double) = .finite e.amount := by
  rw [Double.intCast_eq, Double.ofRat_of_exact funded.quantity, Double.mul_finite]
  exact Double.ofRat_of_exact funded.exact_amount

/-- The balances are those of the ledger. -/
theorem Funded.settleCash_eq (funded : e.Funded sum env)
    (ledger : e.after.ledger
      = e.before.ledger.transfer e.buyer e.seller e.action e.amount e.quantity) (client : ID) :
    .finite (e.after.ledger.cash client)
      = e.settleCash client (.finite (e.before.ledger.cash client)) := by
  have paid : (if client = e.buyer then
      .finite (e.before.ledger.cash client) - .finite e.price * (e.quantity : Double)
      else .finite (e.before.ledger.cash client)) = Double.finite (e.paidBy client) := by
    unfold paidBy
    split
    · rename_i buys
      subst buys
      have exact_paid := funded.bought
      rw [paidBy, if_pos rfl] at exact_paid
      rw [funded.pays, Double.sub_finite, Double.ofRat_of_exact exact_paid]
    · rw [sub_zero]
  have cash : e.after.ledger.cash client
      = e.paidBy client + if client = e.seller then e.amount else 0 := by
    rw [ledger, paidBy]
    simp only [Ledger.transfer, Ledger.post]
    split <;> ring
  rw [settleCash, paid, cash]
  split
  · rename_i sells
    subst sells
    rw [funded.pays, Double.add_finite, Double.ofRat_of_exact funded.sold]
  · rw [add_zero]

/-- **A trade settles** if its legs pass their checks. -/
theorem Funded.settles (funded : e.Funded sum env) (positive : 0 < e.quantity)
    (price : 0 ≤ e.price) (valid : ValidAction e.action)
    (covers : canAfford env e.buyer e.action e.quantity e.price e.before)
    (delivers : e.quantity
      ≤ columnInt (deliverable env e.action e.buyer e.seller e.quantity e.price e.before))
    (ledger : e.after.ledger
      = e.before.ledger.transfer e.buyer e.seller e.action e.amount e.quantity) :
    e.Settles sum env := by
  refine ⟨?_, fun daily date => ?_, ledger, funded.settleCash_eq ledger⟩
  · have cost : Rounded.cost env e.action e.quantity (.finite e.price) e.before
        = some ((e.quantity : Double) * .finite e.price) :=
      if_neg fun market => funded.price (Double.finite.inj market.1)
    have product : (e.quantity : Double) * .finite e.price = .finite e.amount := by
      rw [← funded.pays, Double.intCast_eq, Double.ofRat_of_exact funded.quantity,
        Double.mul_finite, Double.mul_finite, mul_comm]
    have some : (0 : ℚ) ≤ e.quantity := by exact_mod_cast positive.le
    have amount : 0 ≤ (e.quantity : Double) * .finite e.price := by
      rw [product]
      exact Double.le_iff.mpr (mul_nonneg price some)
    exact (Rounded.canAfford_iff cost amount).mpr funded.computed
  · have leg : updatePortfolio env e.buyer e.action e.quantity e.price daily date .buy e.before
        = buy e.buyer e.action e.quantity e.price daily date e.before := if_pos covers
    have bought := posts_buy e.quantity e.price daily date valid (of_canAfford positive covers).1
    rw [leg, hasShares_iff positive, bought.ledger, Ledger.shares_post]
    rw [deliverable] at delivers
    simpa only [covers, and_true, eq_comm (a := e.seller)] using delivers

end Settlement

/-! ### One pair -/

/-- The price history of another action is not touched. -/
theorem prices_settlePair (env : Env) (action : ID) (buyer seller : OrderRow)
    (buys sells : List ID) (s : Sweep) :
    ∃ rows, (settlePair env action buyer seller buys sells s).1.db.prices = s.db.prices ++ rows ∧
      ∀ r ∈ rows, r.actionId = action := by
  have noted : ∀ (row : PriceRow) (d : Database), row.actionId = action →
      ∃ rows, (notePrice row d).prices = d.prices ++ rows ∧ ∀ r ∈ rows, r.actionId = action := by
    intro row d here
    unfold notePrice
    split
    · exact ⟨[], (List.append_nil _).symm, fun _ mem => absurd mem List.not_mem_nil⟩
    · exact ⟨[row], rfl, fun r mem => List.mem_singleton.mp mem ▸ here⟩
  have leg : ∀ (client : ID) (quantity : Int) (price : ℚ) (time : ID × ID) (side : OrderType)
      (d : Database), ∃ rows, (updatePortfolio env client action quantity price time.2 time.1 side
        d).prices = d.prices ++ rows ∧ ∀ r ∈ rows, r.actionId = action := by
    intro client quantity price time side d
    cases side with
    | buy =>
        rw [updatePortfolio]
        split
        · obtain ⟨rows, eq, here⟩ := noted ⟨action, price, time.1, time.2⟩
            (addShares client action quantity (withdraw client (price * quantity) d)) rfl
          rw [prices_addShares] at eq
          exact ⟨rows, eq, here⟩
        · exact ⟨[], (List.append_nil _).symm, fun _ mem => absurd mem List.not_mem_nil⟩
    | sell =>
        rw [updatePortfolio]
        split
        · obtain ⟨rows, eq, here⟩ := noted ⟨action, price, time.1, time.2⟩
            (removeShares client action quantity (deposit client (price * quantity) d)) rfl
          rw [prices_removeShares, prices_deposit] at eq
          exact ⟨rows, eq, here⟩
        · exact ⟨[], (List.append_nil _).symm, fun _ mem => absurd mem List.not_mem_nil⟩
  rw [settlePair_frame Database.prices fun _ _ => rfl, bookTrade]
  obtain ⟨rows, eq, here⟩ := leg buyer.clientId (min buyer.quantity seller.quantity)
    (resolveExecutionPrice env s.db s.exchangePrice action buyer.triggerType seller.triggerType
      buyer.price seller.price) (env.now s.transactions) .buy s.db
  obtain ⟨rows', eq', here'⟩ := leg seller.clientId (min buyer.quantity seller.quantity)
    (resolveExecutionPrice env s.db s.exchangePrice action buyer.triggerType seller.triggerType
      buyer.price seller.price) (env.now s.transactions) .sell _
  rw [eq', eq, List.append_assoc]
  exact ⟨_, rfl, fun r mem => (List.mem_append.mp mem).elim (here r) (here' r)⟩

/-- The balance that an order is checked against. -/
theorem availableBalance_of_known {d : Database} {client : ID} (env : Env)
    (known : (d.clients.find client).isSome) :
    d.availableBalance env client = d.ledger.cash client - d.reserved env client := by
  obtain ⟨r, found⟩ := Option.isSome_iff_exists.mp known
  obtain rfl : r.clientId = client := (Relation.find_some_iff.mp found).2
  simp [availableBalance, Relation.select_key, found, executeSqlQueryDouble, Database.ledger,
    Relation.valueAt]

section

variable {env : Env} {text : ℚ → ℚ} {action : ID} {others : OrderType → List OrderRow} {s : Sweep}
  {buyer seller : OrderRow} {buys sells : List OrderRow} {sum : List Double → Double}

/-- What the loop over the books of an action finds when it settles a pair. -/
structure Sweep.Ready (text : ℚ → ℚ) (action : ID) (others : OrderType → List OrderRow)
    (buyer seller : OrderRow) (buys sells : List OrderRow) (s : Sweep) : Prop where
  lists : s.Lists action others (buyer :: buys) (seller :: sells)
  positive : 0 < min buyer.quantity seller.quantity
  readBack : ∀ o ∈ [buyer, seller],
    min buyer.quantity seller.quantity < o.quantity → o.read text = o
  valid : ValidAction action
  sound : s.db.Sound
  priced : s.db.Priced
  exchange : 0 ≤ s.exchangePrice

namespace Sweep.Ready

theorem mem_buyer (ready : s.Ready text action others buyer seller buys sells) :
    buyer ∈ s.db.orders.rows ∧ buyer.Rests .buy action :=
  ready.lists.buy_mem List.mem_cons_self

theorem mem_seller (ready : s.Ready text action others buyer seller buys sells) :
    seller ∈ s.db.orders.rows ∧ seller.Rests .sell action :=
  ready.lists.sell_mem List.mem_cons_self

/-- The price is one of prices that are not negative. -/
theorem price_nonneg (ready : s.Ready text action others buyer seller buys sells)
    (nonneg : ∀ p, 0 ≤ p → 0 ≤ text p) (env : Env) :
    0 ≤ (s.settleRead text env action buyer seller buys sells).2.price := by
  have bid := nonneg _ (ready.priced.orders buyer ready.mem_buyer.1).price
  have ask := nonneg _ (ready.priced.orders seller ready.mem_seller.1).price
  change 0 ≤ resolveExecutionPrice env s.db s.exchangePrice action buyer.triggerType
    seller.triggerType (text buyer.price) (text seller.price)
  unfold resolveExecutionPrice
  split
  · simp only
    split
    · rename_i positive
      exact positive.le
    · exact ready.exchange
  · split
    · exact bid
    · exact ask

variable (ready : s.Ready text action others buyer seller buys sells)
  (nonneg : ∀ p, 0 ≤ p → 0 ≤ text p)
  (funded : (s.settleRead text env action buyer seller buys sells).2.Funded sum env)

include ready nonneg funded

/-- The purchase passes its check. -/
theorem covers :
    canAfford env buyer.clientId action (min buyer.quantity seller.quantity)
      (s.settleRead text env action buyer seller buys sells).2.price s.db := by
  have known := (ready.priced.orders buyer ready.mem_buyer.1).owner
  have price : ¬((s.settleRead text env action buyer seller buys sells).2.price = maxNumber ∧
      action ≠ -1) := fun market => funded.price market.1
  have free := funded.free
  have some : (0 : ℚ) ≤ (min buyer.quantity seller.quantity : Int) := by
    exact_mod_cast ready.positive.le
  have amount := mul_nonneg some (ready.price_nonneg nonneg env)
  rw [Settlement.amount, mul_comm] at free
  rw [canAfford, cost, if_neg price]
  refine decide_eq_true ⟨amount, ?_⟩
  rw [availableBalance_of_known env known]
  exact le_sub_iff_add_le.mpr free

/-- The shares are there, with what the seller has bought himself. -/
theorem delivers (covered : s.db.Covered env) :
    min buyer.quantity seller.quantity
      ≤ columnInt (deliverable env action buyer.clientId seller.clientId
        (min buyer.quantity seller.quantity)
        (s.settleRead text env action buyer seller buys sells).2.price s.db) := by
  obtain ⟨sold, sells'⟩ := ready.mem_seller
  have positive := ready.positive
  have holding := funded.holding
  have offered := covered.shares seller.clientId action
  have own : seller.quantity ≤ s.db.offeredBySells seller.clientId action := by
    refine List.single_le_sum ?_ _ (List.mem_map_of_mem (List.mem_filter.mpr ⟨sold, ?_⟩))
    · exact List.forall_mem_map.mpr fun o mem =>
        (ready.priced.orders o (List.mem_filter.mp mem).1).counts.1
    · exact decide_eq_true ⟨rfl, sells'.2.2, sells'.2.1, .inl sells'.1⟩
  have less : min buyer.quantity seller.quantity ≤ seller.quantity := min_le_right _ _
  have bound : deliverable env action buyer.clientId seller.clientId
      (min buyer.quantity seller.quantity)
      (s.settleRead text env action buyer seller buys sells).2.price s.db
        = s.db.ledger.shares seller.clientId action
          + if buyer.clientId = seller.clientId then min buyer.quantity seller.quantity else 0 := by
    rw [deliverable, if_congr (and_iff_left (ready.covers nonneg funded)) rfl rfl]
  rw [bound]
  change s.db.ledger.shares seller.clientId action
    + (if buyer.clientId = seller.clientId then min buyer.quantity seller.quantity else 0) < 2 ^ 31
    at holding
  rw [columnInt_of_bounds _ holding]
  · split <;> omega
  · split <;> omega

/-- **A trade settles**: both legs are booked. -/
theorem ledger (covered : s.db.Covered env) :
    (s.settleRead text env action buyer seller buys sells).2.after.ledger
      = s.db.ledger.transfer buyer.clientId seller.clientId action
        (s.settleRead text env action buyer seller buys sells).2.amount
        (min buyer.quantity seller.quantity) := by
  have same := sameAccounts_settlePair
    (e := (s.settleRead text env action buyer seller buys sells).2) rfl
  have booked := bookTrade_cases env buyer.clientId seller.clientId _
    (s.settleRead text env action buyer seller buys sells).2.price (env.now s.transactions)
    ready.sound ready.valid ready.positive
  have covers := ready.covers nonneg funded
  have delivers := ready.delivers nonneg funded covered
  refine same.ledger.trans ?_
  cases booked with
  | both _ _ bought sold =>
      refine sold.ledger.trans ?_
      rw [bought.ledger]
      rfl
  | buyerOnly _ undelivered _ => exact absurd delivers undelivered
  | sellerOnly uncovered _ _ => exact absurd covers uncovered
  | neither uncovered _ _ => exact absurd covers uncovered

omit funded in
theorem amount_nonneg : 0 ≤ (s.settleRead text env action buyer seller buys sells).2.amount := by
  have some : (0 : ℚ) ≤ (min buyer.quantity seller.quantity : Int) := by
    exact_mod_cast ready.positive.le
  exact mul_nonneg (ready.price_nonneg nonneg env) some

theorem settles (covered : s.db.Covered env) :
    (s.settleRead text env action buyer seller buys sells).2.Settles sum env :=
  funded.settles ready.positive (ready.price_nonneg nonneg env) ready.valid
    (ready.covers nonneg funded) (ready.delivers nonneg funded covered)
    (ready.ledger nonneg funded covered)

omit funded in
/-- The new price is not negative. -/
theorem priced_noted :
    ∀ r ∈ (s.settleRead text env action buyer seller buys sells).1.db.prices, 0 ≤ r.price := by
  intro r mem
  rcases (mem_prices_settlePair env action (buyer.read text) (seller.read text) _ _ s).mp mem with
    old | ⟨-, rfl⟩
  · exact ready.priced.prices r old
  · exact ready.price_nonneg nonneg env

omit funded in
/-- What the orders still reserve of a client's cash. -/
theorem reservedByBuys_after (fresh : env.Fresh) (client : ID) :
    (s.settleRead text env action buyer seller buys sells).1.db.reservedByBuys env client
      ≤ (s.settleRead text env action buyer seller buys sells).2.noted.reservedByBuys
      env client := by
  set e := (s.settleRead text env action buyer seller buys sells).2 with settled
  obtain ⟨bought, buys'⟩ := ready.mem_buyer
  obtain ⟨sold, sells'⟩ := ready.mem_seller
  have unit : 0 ≤ e.noted.cashUnit env client buyer := by
    have priced : e.noted.Priced := ⟨ready.priced_noted nonneg, fun o mem =>
      ⟨(ready.priced.orders o mem).price, (ready.priced.orders o mem).counts,
        (ready.priced.orders o mem).owner⟩⟩
    exact cashUnit_nonneg priced env client bought
  have some : (0 : ℚ) ≤ (min buyer.quantity seller.quantity : Int) := by
    exact_mod_cast ready.positive.le
  have other : e.noted.cashUnit env client seller = 0 := by
    refine if_neg fun buys => ?_
    cases sells'.2.1.symm.trans buys.2
  have total := openTotal_settleRead env
    (sameForParts_cashUnit env client e.noted) fresh ready.lists ready.readBack
  rw [other, mul_zero, sub_zero] at total
  rw [reservedByBuys_eq, reservedByBuys_eq]
  refine total.le.trans ?_
  exact sub_le_self _ (mul_nonneg some unit)

omit ready nonneg funded in
/-- Without an order at the market a new price makes no difference. -/
theorem reservedByBuys_noted {client : ID}
    (limits : ¬(s.settleRead text env action buyer seller buys sells).2.MarketBuyer client) :
    (s.settleRead text env action buyer seller buys sells).2.noted.reservedByBuys env client
      = s.db.reservedByBuys env client := by
  obtain ⟨rows, noted, here⟩ := prices_settlePair env action (buyer.read text) (seller.read text)
    (buys.map OrderRow.orderId) (sells.map OrderRow.orderId) s
  have latest : ∀ a, a ≠ action →
      (s.settleRead text env action buyer seller buys sells).2.noted.latestPrice env a
        = s.db.latestPrice env a := by
    intro a other
    have none : rows.filter (fun r => r.actionId = a) = [] :=
      List.filter_eq_nil_iff.mpr fun r mem eq =>
        other ((of_decide_eq_true eq).symm.trans (here r mem))
    unfold latestPrice
    change ((env.latest.pick ((settlePair env action (buyer.read text) (seller.read text)
      (buys.map OrderRow.orderId) (sells.map OrderRow.orderId) s).1.db.prices.filter _)).map
      PriceRow.price).toList = _
    rw [noted, List.filter_append, none, List.append_nil]
  rw [reservedByBuys_eq, reservedByBuys_eq]
  refine congrArg List.sum (List.map_congr_left fun o mem => ?_)
  unfold OrderRow.weight
  split
  · rename_i rests
    refine congrArg _ ?_
    unfold cashUnit
    split
    · rename_i mine
      unfold unitPrice
      split
      · rename_i atMarket
        have other : o.actionId ≠ action := fun same =>
          limits ⟨o, mem, mine.1, same, mine.2, rests, atMarket⟩
        rw [latest o.actionId other]
      · rfl
    · rfl
  · rfl

/-- **The orders stay covered.** -/
theorem covered_after (fresh : env.Fresh) (covered : s.db.Covered env) :
    (s.settleRead text env action buyer seller buys sells).1.db.Covered env := by
  set e := (s.settleRead text env action buyer seller buys sells).2 with settled
  obtain ⟨sold, sells'⟩ := ready.mem_seller
  obtain ⟨bought, buys'⟩ := ready.mem_buyer
  have ledger : (s.settleRead text env action buyer seller buys sells).1.db.ledger
      = s.db.ledger.transfer buyer.clientId seller.clientId action e.amount
        (min buyer.quantity seller.quantity) := ready.ledger nonneg funded covered
  have amount : 0 ≤ e.amount := ready.amount_nonneg nonneg
  refine ⟨fun client => ?_, fun client a => ?_⟩
  · have cash : (s.settleRead text env action buyer seller buys sells).1.db.ledger.cash client
        = s.db.ledger.cash client - (if client = buyer.clientId then e.amount else 0)
          + if client = seller.clientId then e.amount else 0 := by
      rw [ledger]
      simp only [Ledger.transfer, Ledger.post]
      split <;> ring
    have paid : 0 ≤ if client = seller.clientId then e.amount else 0 := by
      split
      · exact amount
      · exact le_rfl
    have enough : (if client = buyer.clientId then e.amount else 0)
        + e.noted.reservedByBuys env client ≤ s.db.ledger.cash client := by
      by_cases market : e.MarketBuyer client
      · exact funded.raised client market
      · rw [reservedByBuys_noted market]
        split
        · rename_i buys
          subst buys
          have free := funded.free
          have less := reservedByBuys_le ready.priced env buyer.clientId
          change e.amount + s.db.reserved env buyer.clientId
            ≤ s.db.ledger.cash buyer.clientId at free
          linarith
        · rw [zero_add]
          exact covered.cash client
    have after := ready.reservedByBuys_after nonneg fresh client
    rw [cash]
    linarith
  · have total := openTotal_settleRead env (sameForParts_shareUnit client a) fresh ready.lists
      ready.readBack
    have other : shareUnit client a buyer = 0 := by
      refine if_neg fun sells => ?_
      cases buys'.2.1.symm.trans sells.2.2
    have own : shareUnit client a seller = if client = seller.clientId ∧ a = action then 1 else 0 := by
      unfold shareUnit
      rw [sells'.2.1, sells'.2.2]
      simp only [and_true, eq_comm]
    have before := covered.shares client a
    have positive := ready.positive
    rw [offeredBySells_eq] at before
    rw [offeredBySells_eq, total, other, own, ledger]
    simp only [Ledger.transfer, Ledger.post, Int.cast_id]
    split <;> split <;> omega

omit funded in
/-- **The orders stay placed.** -/
theorem priced_after :
    (s.settleRead text env action buyer seller buys sells).1.db.Priced := by
  have price := ready.price_nonneg nonneg env
  have bid := ready.priced.orders buyer ready.mem_buyer.1
  have ask := ready.priced.orders seller ready.mem_seller.1
  have clients : ∀ c, ((s.settleRead text env action buyer seller buys sells).1.db.clients.find
      c).isSome = (s.db.clients.find c).isSome := by
    intro c
    rw [Sweep.settleRead, clients_settlePair]
    simp [bookTrade]
  refine ⟨ready.priced_noted nonneg,
    Market.forall_rows_settlePair env action (buys.map OrderRow.orderId)
    (sells.map OrderRow.orderId) (fun o mem => ?_) (fun _ pos => ?_) (fun _ pos => ?_)
    (fun _ _ pos => ?_) (fun _ _ pos => ?_)⟩
  · have old := ready.priced.orders o mem
    exact ⟨old.price, old.counts, (clients _).trans old.owner⟩
  · exact ⟨price, counts_of_pos pos, (clients _).trans bid.owner⟩
  · exact ⟨price, counts_of_pos pos, (clients _).trans ask.owner⟩
  · exact ⟨nonneg _ bid.price, counts_of_pos pos, (clients _).trans bid.owner⟩
  · exact ⟨nonneg _ ask.price, counts_of_pos pos, (clients _).trans ask.owner⟩

end Sweep.Ready

/-! ### The loops -/

/-- What holds of the state of a loop over the books of an action. -/
structure Sweep.Solid (env : Env) (action : ID) (s : Sweep) : Prop where
  sound : s.Sound action
  covered : s.db.Covered env
  priced : s.db.Priced
  exchange : 0 ≤ s.exchangePrice

/-- What a settled pair shows. -/
def Settlement.Safe (sum : List Double → Double) (env : Env) (e : Settlement) : Prop :=
  e.before.Covered env ∧ e.Settles sum env

theorem positive_pair (text : ℚ → ℚ) (call : MatchCall) : PositivePairs (call.pair text) :=
  fun _ _ _ _ _ found => lt_min_iff.mp (call.pos_of_pair found)

variable {call : MatchCall}

/-- **All rounds** settle, if their trades are funded. -/
theorem Sweep.Lists.safe_run (fresh : env.Fresh) (nonneg : ∀ p, 0 ≤ p → 0 ≤ text p) :
    ∀ (n : Nat) {s : Sweep} {buys sells : List OrderRow} {bids asks : List (OrderRow × Int)},
      s.Lists action others buys sells → List.Forall₂ Stands buys bids →
      List.Forall₂ Stands sells asks →
      (∀ o ∈ call.cut text s.db.clientExists n bids asks, o.read text = o) →
      s.Solid env action →
      (∀ e ∈ (Loop.run (Sql.matchStep (call.pair text) env action) n s).2, e.Funded sum env) →
      (Loop.run (Sql.matchStep (call.pair text) env action) n s).1.Solid env action ∧
        ∀ e ∈ (Loop.run (Sql.matchStep (call.pair text) env action) n s).2, e.Safe sum env := by
  intro n
  induction n with
  | zero => exact fun _ _ _ _ solid _ => ⟨solid, fun _ mem => absurd mem List.not_mem_nil⟩
  | succ n ih =>
      intro s buys sells bids asks lists bought sold readBack solid funded
      cases next : Sql.matchStep (call.pair text) env action s with
      | none =>
          rw [Loop.run_of_halted next]
          exact ⟨solid, fun _ mem => absurd mem List.not_mem_nil⟩
      | some pair =>
          obtain ⟨s', e⟩ := pair
          obtain ⟨buyer, buys', seller, sells', id, id', bids', asks', ⟨rfl, rfl⟩, -, positive,
            parts, settled, after, bought', sold', later⟩ :=
            lists.readStep_of_read fresh bought sold next readBack
          rw [Loop.run_of_step next, List.forall_mem_cons] at funded
          have sells : s.sells ≠ [] := by simp [lists.sellIds]
          have ready : s.Ready text action others buyer seller buys' sells' :=
            ⟨lists, positive, parts, solid.sound.valid sells, solid.sound.db, solid.priced,
              solid.exchange⟩
          have out : s.settleRead text env action buyer seller buys' sells' = (s', e) := settled
          have paid : (s.settleRead text env action buyer seller buys'
              sells').2.Funded sum env := by
            rw [out]
            exact funded.1
          have first := ready.settles nonneg paid solid.covered
          have covered := ready.covered_after nonneg paid fresh solid.covered
          have priced : (s.settleRead text env action buyer seller buys' sells').1.db.Priced :=
            ready.priced_after nonneg
          have exchange := ready.price_nonneg nonneg env
          have sound := (kept_matchStep env action (positive_pair text call) s s' e solid.sound
            next).inv
          have before : e.before = s.db := (congrArg (fun out => out.2.before) out).symm
          have price : s'.exchangePrice = e.price := by
            have same := congrArg (fun out => out.1.exchangePrice) out
            have same' := congrArg (fun out => out.2.price) out
            exact same.symm.trans same'
          rw [out] at first covered priced exchange
          have solid' : s'.Solid env action := ⟨sound, covered, priced, price ▸ exchange⟩
          obtain ⟨last, safe⟩ := ih after bought' sold' later solid' funded.2
          rw [Loop.run_of_step next]
          exact ⟨last, List.forall_mem_cons.mpr ⟨⟨before ▸ solid.covered, first⟩, safe⟩⟩

end

/-- What holds of a market between two operations. -/
structure Market.Solid (env : Env) (m : Market) : Prop where
  sound : m.Sound
  covered : m.db.Covered env
  priced : m.db.Priced
  exchange : 0 ≤ m.exchangePrice

namespace Market

variable {env : Env} {text : ℚ → ℚ} {action : ID} {m : Market} {call : MatchCall}
  {sum : List Double → Double}

/-- The loop of one action. -/
theorem Backed.safe_matchAction (backed : m.Backed) (fresh : env.Fresh)
    (nonneg : ∀ p, 0 ≤ p → 0 ≤ text p) (solid : m.Solid env)
    (readBack : ∀ o ∈ call.cutOrders text m action, o.read text = o)
    (funded : ∀ e ∈ (Market.matchAction (call.pair text) env action m).2, e.Funded sum env) :
    (Market.matchAction (call.pair text) env action m).1.Solid env ∧
      ∀ e ∈ (Market.matchAction (call.pair text) env action m).2, e.Safe sum env := by
  have sound := (keeps_matchAction env (positive_pair text call) action m solid.sound).inv
  rcases matchAction_swept (call.pair text) env action m with ⟨same, -⟩ | ⟨-, same⟩
  · rw [same]
    exact ⟨solid, fun _ mem => absurd mem List.not_mem_nil⟩
  · obtain ⟨others, lists⟩ := backed.lists
    have begun := lists.sweep action
    rw [lists.cutOrders] at readBack
    rw [same] at funded sound ⊢
    have valid : (m.sweep (m.orderIds .buy action) (m.orderIds .sell action)).sells ≠ [] →
        ValidAction action := by
      intro some
      cases found : m.sellOrders.lookup action with
      | none => exact absurd (by simp [sweep, orderIds, found]) some
      | some sells =>
          refine solid.sound.sales action sells found fun nil => some ?_
          simp [sweep, orderIds, found, nil]
    have start : (m.sweep (m.orderIds .buy action) (m.orderIds .sell action)).Solid env action :=
      ⟨⟨solid.sound.db, valid⟩, solid.covered, solid.priced, solid.exchange⟩
    obtain ⟨last, safe⟩ := begun.safe_run fresh nonneg _ (stands_offers _) (stands_offers _)
      readBack start funded
    exact ⟨⟨sound, last.covered, last.priced, last.exchange⟩, safe⟩

/-- The loops of some actions, one after the other. -/
theorem Backed.safe_chain (fresh : env.Fresh) (nonneg : ∀ p, 0 ≤ p → 0 ≤ text p) :
    ∀ (actions : List ID) {m : Market}, actions.Nodup → m.Backed → m.Solid env →
      (∀ action ∈ actions, ∀ o ∈ call.cutOrders text m action, o.read text = o) →
      (∀ e ∈ (Loop.chain (Market.matchAction (call.pair text) env) actions m).2,
        e.Funded sum env) →
      (Loop.chain (Market.matchAction (call.pair text) env) actions m).1.Solid env ∧
        ∀ e ∈ (Loop.chain (Market.matchAction (call.pair text) env) actions m).2, e.Safe sum env
  | [], _, _, _, solid, _, _ => ⟨solid, fun _ mem => absurd mem List.not_mem_nil⟩
  | a :: actions, m, nodup, backed, solid, readBack, funded => by
      obtain ⟨absent, nodup⟩ := List.nodup_cons.mp nodup
      obtain ⟨first, later⟩ := List.forall_mem_append.mp funded
      obtain ⟨solid', safe⟩ := backed.safe_matchAction fresh nonneg solid
        (readBack a List.mem_cons_self) first
      obtain ⟨others, lists⟩ := backed.lists
      have kept := keeps_strands_matchAction (call.readsOrders_pair text) fresh others a m
        ⟨_, lists⟩
      obtain ⟨last, safe'⟩ := safe_chain fresh nonneg actions nodup kept.inv.backed solid' (by
        intro action mem o cut
        have other : action ≠ a := fun eq => absent (eq ▸ mem)
        rw [(backed.other_action fresh other).2.2] at cut
        exact readBack action (List.mem_cons_of_mem _ mem) o cut) later
      exact ⟨last, List.forall_mem_append.mpr ⟨safe, safe'⟩⟩

/-- **Every call** settles, if its trades are funded. -/
theorem Backed.safe_runText (backed : m.Backed) (fresh : env.Fresh)
    (nonneg : ∀ p, 0 ≤ p → 0 ≤ text p) (order : IterationOrder ID (List ID)) (solid : m.Solid env)
    (readBack : m.ReadsBack text order call)
    (funded : ∀ e ∈ (call.runText text env order m).2, e.Funded sum env) :
    (call.runText text env order m).1.Solid env ∧
      ∀ e ∈ (call.runText text env order m).2, e.Safe sum env := by
  rw [call.runText_eq_chain] at funded ⊢
  exact Backed.safe_chain fresh nonneg _ (nodup_actions order m) backed solid readBack funded

end Market

end StockMarket.Sql
