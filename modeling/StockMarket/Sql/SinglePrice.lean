import StockMarket.Lib.Runs
import StockMarket.Sql.Prices
import StockMarket.Sql.Texts

/-!
The price of an auction.

`process_fixing` is to find the price at which the orders of an action are in equilibrium and
to execute them at this price. It asks `resolve_execution_price` for every pair, though, which
takes the price of the SELL order, so offers at 10 and at 11 that meet one bid are filled at
two prices (`fixing_prices_differ`).

So all transactions of an action have one price exactly if the pairs that its orders make
(`Market.fixingPairs`) determine one (`Market.OnePrice`). A pair of two MARKET orders
determines none and is settled at the current price, which the pairs before it may have moved;
as long as these pairs come first, nothing has (`singlePrice_iff`).
-/

namespace StockMarket.Sql

open Client Database

/-- All transactions have one price. -/
def SinglePrice (es : List Settlement) : Prop :=
  ∀ e ∈ es, ∀ e' ∈ es, e.price = e'.price

/-! ### Pairs -/

/-- The price that the two orders of a pair determine: that of the SELL order, that of the BUY
order if only the SELL order is a MARKET order, and none if both are. -/
def pairPrice (f : Auction.Fill OrderRow OrderRow) : Option ℚ :=
  if f.ask.triggerType ≠ .market then some f.ask.price
  else if f.bid.triggerType ≠ .market then some f.bid.price
  else none

/-- The pairs of two queues of orders, as they are read. `fuel` bounds the rounds. -/
def MatchCall.fills (text : ℚ → ℚ) (known : ID → Bool) (call : MatchCall) :
    Nat → List (OrderRow × Int) → List (OrderRow × Int) → List (Auction.Fill OrderRow OrderRow)
  | fuel + 1, (buyer, q) :: bids, (seller, r) :: asks =>
    if call.Trades text known (buyer, q) (seller, r) then
      ⟨buyer.read text, seller.read text, min q r⟩ ::
        fills text known call fuel (Auction.leave (buyer.read text) (q - min q r) bids)
          (Auction.leave (seller.read text) (r - min q r) asks)
    else []
  | _, _, _ => []

/-- The pairs that the orders of an action make in a fixing. -/
def Market.fixingPairs (text : ℚ → ℚ) (action : ID) (m : Market) :
    List (Auction.Fill OrderRow OrderRow) :=
  MatchCall.fixing.fills text m.db.clientExists
    ((m.ordersOf .buy action).length + (m.ordersOf .sell action).length)
    (offers (m.ordersOf .buy action)) (offers (m.ordersOf .sell action))

/-- There is a price history of the action, and all its latest rows have one price. -/
structure Database.Quotes (action : ID) (p : ℚ) (d : Database) : Prop where
  noted : d.priceRows action ≠ []
  latest : ∀ r : PriceRow, r.LatestIn (d.priceRows action) → r.price = p

/-- The pairs of an action determine one price, and if two MARKET orders meet, it is the
current one. -/
def Market.OnePrice (text : ℚ → ℚ) (action : ID) (m : Market) : Prop :=
  ∃ p, (∀ f ∈ m.fixingPairs text action, ∀ q, pairPrice f = some q → q = p) ∧
    ((∃ f ∈ m.fixingPairs text action, pairPrice f = none) → 0 < p ∧ m.db.Quotes action p)

/-- No two MARKET orders meet, or two of them come first and there is one current price. -/
def Market.Foreseen (text : ℚ → ℚ) (action : ID) (m : Market) : Prop :=
  (∀ f ∈ m.fixingPairs text action, pairPrice f ≠ none) ∨
    (∀ f, (m.fixingPairs text action).head? = some f → pairPrice f = none) ∧
      ∃ p, 0 < p ∧ m.db.Quotes action p

section

variable {env : Env} {action : ID} {d d' : Database} {s s' : Sweep} {e : Settlement} {p q : ℚ}
  {f : Auction.Fill OrderRow OrderRow}

theorem Settles.price_eq (settles : Settles env action e f) (determined : pairPrice f = some q) :
    e.price = q := by
  obtain ⟨last, price⟩ := settles.price
  unfold pairPrice at determined
  split at determined
  · rename_i limit
    rw [← Option.some.inj determined]
    simp [price, resolveExecutionPrice, limit]
  · rename_i market
    split at determined
    · rename_i limit
      rw [← Option.some.inj determined]
      simp [price, resolveExecutionPrice, not_not.mp market, limit]
    · cases determined

/-! ### The current price -/

theorem Database.Quotes.current (quotes : d.Quotes action p) (env : Env) :
    d.getActionCurrentPrice env action = p := by
  obtain ⟨r, latest, price⟩ := exists_latestIn env quotes.noted
  exact price.trans (quotes.latest r latest)

/-- Two MARKET orders are settled at the current price. -/
theorem Settles.price_of_market (settles : Settles env action e f) (market : pairPrice f = none)
    (pos : 0 < p) (quotes : e.before.Quotes action p) : e.price = p := by
  obtain ⟨last, price⟩ := settles.price
  unfold pairPrice at market
  split at market
  · cases market
  · rename_i asked
    split at market
    · cases market
    · rename_i bid
      rw [price, resolveExecutionPrice, if_pos ⟨not_not.mp bid, not_not.mp asked⟩,
        quotes.current env]
      simp [pos]

theorem Database.Quotes.congr (quotes : d.Quotes action p)
    (same : ∀ r, r ∈ d'.priceRows action ↔ r ∈ d.priceRows action) : d'.Quotes action p := by
  constructor
  · obtain ⟨r, mem⟩ := List.exists_mem_of_ne_nil _ quotes.noted
    exact List.ne_nil_of_mem ((same r).mpr mem)
  · intro r latest
    exact quotes.latest r ⟨(same r).mp latest.1, fun r' mem => latest.2 r' ((same r').mpr mem)⟩

/-- A trade at the current price leaves it, whenever it is. -/
theorem Database.Quotes.settlePair (env : Env) (quotes : s.db.Quotes action p)
    (buyer seller : OrderRow)
    (buys sells : List ID)
    (price : (Sql.settlePair env action buyer seller buys sells s).2.price = p) :
    (Sql.settlePair env action buyer seller buys sells s).1.db.Quotes action p := by
  have old : ∀ r ∈ s.db.priceRows action,
      r ∈ (Sql.settlePair env action buyer seller buys sells s).1.db.priceRows action := by
    intro r mem
    obtain ⟨noted, here⟩ := mem_priceRows.mp mem
    exact mem_priceRows.mpr ⟨(mem_prices_settlePair ..).mpr (.inl noted), here⟩
  constructor
  · obtain ⟨r, mem⟩ := List.exists_mem_of_ne_nil _ quotes.noted
    exact List.ne_nil_of_mem (old r mem)
  · intro r latest
    obtain ⟨noted, here⟩ := mem_priceRows.mp latest.1
    rcases (mem_prices_settlePair ..).mp noted with before | ⟨-, rfl⟩
    · exact quotes.latest r
        ⟨mem_priceRows.mpr ⟨before, here⟩, fun r' mem => latest.2 r' (old r' mem)⟩
    · exact price

variable {pair : Database → ID → ID → Option (OrderRow × OrderRow)}

theorem before_of_matchStep (next : matchStep pair env action s = some (s', e)) :
    e.before = s.db := by
  obtain ⟨_, buys, _, sells, buyer, seller, -, -, -, settled⟩ := matchStep_some next
  have log : (settlePair env action buyer seller buys sells s).2 = e := congrArg Prod.snd settled
  rw [← log]
  rfl

/-- The first transaction of a loop finds the database where the loop starts. -/
theorem before_head : ∀ {n : Nat},
    (Loop.run (matchStep pair env action) n s).2.head? = some e → e.before = s.db := by
  intro n first
  cases n with
  | zero => cases first
  | succ n =>
      cases next : matchStep pair env action s with
      | none =>
          rw [Loop.run_of_halted next] at first
          cases first
      | some out =>
          rw [Loop.run_of_step next] at first
          obtain rfl := Option.some.inj first
          exact before_of_matchStep next

/-- If every transaction is at the current price as long as that is `p`, it stays `p`. -/
theorem quotes_run (n : Nat) : ∀ {s : Sweep}, s.db.Quotes action p →
    (∀ e ∈ (Loop.run (matchStep pair env action) n s).2, e.before.Quotes action p → e.price = p) →
    ∀ e ∈ (Loop.run (matchStep pair env action) n s).2, e.price = p := by
  induction n with
  | zero => exact fun _ _ _ mem => absurd mem List.not_mem_nil
  | succ n ih =>
      intro s quotes priced
      cases next : matchStep pair env action s with
      | none =>
          rw [Loop.run_of_halted next]
          exact fun _ mem => absurd mem List.not_mem_nil
      | some out =>
          obtain ⟨s', e⟩ := out
          rw [Loop.run_of_step next] at priced ⊢
          obtain ⟨first, later⟩ := List.forall_mem_cons.mp priced
          obtain ⟨_, buys, _, sells, buyer, seller, -, -, -, settled⟩ := matchStep_some next
          have price := first ((before_of_matchStep next).symm ▸ quotes)
          refine List.forall_mem_cons.mpr ⟨price, ih ?_ later⟩
          have after := quotes.settlePair env buyer seller buys sells
            (by rw [settled]; exact price)
          rwa [settled] at after

end

/-! ### What is settled -/

section

variable {env : Env} {action : ID} {others : OrderType → List OrderRow} {text : ℚ → ℚ}
  {call : MatchCall} {o : OrderRow} {x : OrderRow × Int}

theorem Stands.read (text : ℚ → ℚ) (stands : Stands o x) :
    Stands (o.read text) (x.1.read text, x.2) := by
  obtain ⟨id, rfl⟩ := stands
  exact ⟨id, rfl⟩

/-- **The rounds of a loop** settle the pairs of its queues. -/
theorem Sweep.Lists.settles_fills (call : MatchCall) (fresh : env.Fresh) (n : Nat) :
    ∀ {s : Sweep} {buys sells : List OrderRow} {bids asks : List (OrderRow × Int)},
      s.Lists action others buys sells → List.Forall₂ Stands buys bids →
      List.Forall₂ Stands sells asks →
      List.Forall₂ (Settles env action) (Loop.run (Sql.matchStep (call.pair text) env action) n s).2
        (call.fills text s.db.clientExists n bids asks) := by
  induction n with
  | zero => exact fun _ _ _ => .nil
  | succ n ih =>
      intro s buys sells bids asks lists bought sold
      cases next : Sql.matchStep (call.pair text) env action s with
      | none =>
          rw [Loop.run_of_halted next]
          have refused := lists.not_trades bought sold next
          cases bids with
          | nil => exact .nil
          | cons x bids =>
              cases asks with
              | nil => exact .nil
              | cons y asks =>
                  rw [MatchCall.fills, if_neg (refused x bids y asks rfl rfl)]
                  exact .nil
      | some out =>
          obtain ⟨s', e⟩ := out
          obtain ⟨buyer, buys', seller, sells', x, bids', y, asks', id, id',
            ⟨rfl, rfl, stands, bought'⟩, ⟨rfl, rfl, stands', sold'⟩, trades, settled, after,
            clients⟩ := lists.readStep fresh bought sold next
          obtain ⟨quantity, price, client, trigger⟩ := (stands.read text).fields
          obtain ⟨quantity', price', client', trigger'⟩ := (stands'.read text).fields
          rw [Loop.run_of_step next, MatchCall.fills, if_pos trades]
          refine .cons ?_ ?_
          · obtain ⟨-, rfl⟩ := Prod.mk.inj settled
            refine ⟨rfl, client, client', ?_, s.exchangePrice, ?_⟩
            · simp [quantity, quantity']
            · simp [price, price', trigger, trigger']
          · have sizes : buyer.quantity = x.2 ∧ seller.quantity = y.2 := ⟨quantity, quantity'⟩
            rw [sizes.1, sizes.2] at after
            rw [← clients]
            exact ih after (stands_leave (stands.read text) bought' id _)
              (stands_leave (stands'.read text) sold' id' _)

end

namespace Market

variable {env : Env} {m : Market} {action : ID} {text : ℚ → ℚ}

/-- Trades of other actions leave the price history of an action. -/
theorem priceRows_chain {pair : Database → ID → ID → Option (OrderRow × OrderRow)} {as : List ID}
    (absent : action ∉ as) (r : PriceRow) :
    r ∈ (Loop.chain (matchAction pair env) as m).1.db.priceRows action
      ↔ r ∈ m.db.priceRows action := by
  have each : ∀ a ∈ as, Loop.Keeps
      (fun m' : Market => r ∈ m'.db.priceRows action ↔ r ∈ m.db.priceRows action) (fun _ => True)
      (fun _ => True) (fun _ => ()) (matchAction pair env a) := by
    intro a mem
    refine keeps_db_of_pair (D := fun d => r ∈ d.priceRows action ↔ r ∈ m.db.priceRows action) env a
      fun buy sell bid ask buys sells s same _ => ?_
    have other : a ≠ action := fun eq => absent (eq ▸ mem)
    rw [← same, mem_priceRows, mem_priceRows, mem_prices_settlePair]
    constructor
    · rintro ⟨noted | ⟨-, rfl⟩, here⟩
      · exact ⟨noted, here⟩
      · exact absurd here other
    · exact fun row => ⟨.inl row.1, row.2⟩
  exact (Loop.keeps_chain_of_mem as each m Iff.rfl).inv

/-- The loop of an action settles the pairs that its orders make. -/
theorem Lists.settles_matchAction (text : ℚ → ℚ) {orders others : OrderType → ID → List OrderRow}
    (lists : m.Lists orders others) (fresh : env.Fresh) (action : ID) :
    List.Forall₂ (Settles env action) (Market.matchAction (fixingPairText text) env action m).2
      (m.fixingPairs text action) := by
  have length : ∀ side, (m.orderIds side action).length = (m.ordersOf side action).length :=
    fun side => by rw [lists.ids, List.length_map, lists.ordersOf]
  rw [events_matchAction, fixingPairs, ← length, ← length, lists.ordersOf, lists.ordersOf]
  exact Sweep.Lists.settles_fills .fixing fresh _ (lists.sweep action) (stands_offers _)
    (stands_offers _)

/-- What a fixing settles of an action: the pairs of its orders, in a loop that starts at the
prices of the action. -/
theorem Backed.settles_pairs (text : ℚ → ℚ) (backed : m.Backed) (fresh : env.Fresh)
    (order : IterationOrder ID (List ID)) (action : ID) :
    ∃ n s, settledFor action (m.processFixingText text env order).2
        = (Loop.run (Sql.matchStep (fixingPairText text) env action) n s).2 ∧
      (∀ p, m.db.Quotes action p → s.db.Quotes action p) ∧
      List.Forall₂ (Settles env action) (settledFor action (m.processFixingText text env order).2)
        (m.fixingPairs text action) := by
  have reads : ReadsOrders (fixingPairText text) := MatchCall.fixing.readsOrders_pair text
  obtain ⟨others, lists⟩ := backed.lists
  obtain ⟨before, absent, events⟩ := settledFor_chain lists reads fresh order action
  obtain ⟨orders₁, lists₁, same, clients⟩ := lists.after_others reads fresh absent
  have settles := lists₁.settles_matchAction text fresh action
  have pairs : fixingPairs text action
      (Loop.chain (Market.matchAction (fixingPairText text) env) before m).1
        = m.fixingPairs text action := by
    rw [fixingPairs, fixingPairs, lists₁.ordersOf, lists₁.ordersOf, same, same, funext clients]
  rw [processFixingText, events]
  refine ⟨_, _, events_matchAction _, fun p quotes => ?_, pairs ▸ settles⟩
  exact quotes.congr fun r => priceRows_chain absent r

end Market

/-! ### Two prices -/

/-- Client 2 of `init` offers 10 at 10, and client 1 bids 12 for 4 and 11 for 3. -/
def oneOffer : Market :=
  ((({ db := Database.demo 0 1 } : Market).accumulateOrder (limitRow 1 2 .sell 10 10)
    ).accumulateOrder (limitRow 2 1 .buy 4 12)).accumulateOrder (limitRow 3 1 .buy 3 11)

theorem backed_oneOffer : oneOffer.Backed := by
  obtain ⟨orders, lists⟩ := Market.strands_start (Database.demo 0 1)
  obtain ⟨orders, lists⟩ := lists.accumulateOrder (o := limitRow 1 2 .sell 10 10)
    (by decide +kernel)
  obtain ⟨orders, lists⟩ := lists.accumulateOrder (o := limitRow 2 1 .buy 4 12)
    (by decide +kernel)
  exact (lists.accumulateOrder (o := limitRow 3 1 .buy 3 11) (by decide +kernel)).backed

end StockMarket.Sql
