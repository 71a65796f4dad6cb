import Mathlib.Data.Int.Log
import StockMarket.Lib.Binary64
import StockMarket.Sql.Fixing

/-!
Prices that pass through texts.

`get_order_info` prints the row of an order and the matching loops read it back. SQLite prints
a price with 15 digits, so what is read (`OrderRow.read`) may be another double. A pair is
settled at the prices that were read, and what is left of an order is opened again with them.
`process_fixing` compares the prices that it read, `process_continuous_trading` the prices in
the database.

`text` is what a price is read as, `fifteenDigits` in the server, and `id` where the loops of
the other modules compute with the rows themselves (`runText_id`). As long as every order that
is filled in part reads back as it is (`MatchCall.cutOrders`), the orders behind the vectors are
those of the loops without texts (`Market.Lists.matchAction_of_read`).
-/

namespace StockMarket.Sql

open Client Database

/-- What a price is read as from SQLite's text of it, which has 15 digits. -/
def fifteenDigits (price : ℚ) : ℚ :=
  let digit : ℚ := 10 ^ (Int.log 10 |price| - 14)
  Binary64.round (Binary64.roundEven (price / digit) * digit)

theorem fifteenDigits_nonneg {p : ℚ} (nonneg : 0 ≤ p) : 0 ≤ fifteenDigits p := by
  have digit : (0 : ℚ) ≤ 10 ^ (Int.log 10 |p| - 14) :=
    zpow_nonneg (by decide) _
  have digits : 0 ≤ Binary64.roundEven (p / 10 ^ (Int.log 10 |p| - 14)) :=
    Binary64.le_roundEven (by exact_mod_cast div_nonneg nonneg digit)
  exact Binary64.round_nonneg (mul_nonneg (by exact_mod_cast digits) digit)

/-- The order as its text says. -/
def OrderRow.read (text : ℚ → ℚ) (o : OrderRow) : OrderRow :=
  { o with
    price := text o.price
    triggerPriceLower := text o.triggerPriceLower
    triggerPriceUpper := text o.triggerPriceUpper }

theorem OrderRow.same_read (text : ℚ → ℚ) (o : OrderRow) : (o.read text).Same o :=
  ⟨rfl, rfl, rfl, rfl, rfl, rfl⟩

/-- `process_fixing` reads the two orders and looks at what it read. -/
def fixingPairText (text : ℚ → ℚ) (d : Database) (buy sell : ID) :
    Option (OrderRow × OrderRow) :=
  match d.getOrderInfo buy, d.getOrderInfo sell with
  | some buyer, some seller =>
    let bid := buyer.read text
    let ask := seller.read text
    if ¬ d.clientExists bid.clientId ∨ ¬ d.clientExists ask.clientId then none
    else if bid.price < ask.price then none
    else if bid.quantity ≤ 0 ∨ ask.quantity ≤ 0 then none
    else some (bid, ask)
  | _, _ => none

/-- `process_continuous_trading` compares the prices in the database first. -/
def continuousPairText (text : ℚ → ℚ) (d : Database) (buy sell : ID) :
    Option (OrderRow × OrderRow) :=
  if d.getPrice buy < d.getPrice sell then none
  else
    match d.getOrderInfo buy, d.getOrderInfo sell with
    | some buyer, some seller =>
      let bid := buyer.read text
      let ask := seller.read text
      if ¬ d.clientExists bid.clientId ∨ ¬ d.clientExists ask.clientId then none
      else if bid.quantity ≤ 0 ∨ ask.quantity ≤ 0 then none
      else some (bid, ask)
    | _, _ => none

namespace Market

/-- `process_continuous_trading`. -/
def processContinuousTradingText (text : ℚ → ℚ) (env : Env) (action : ID) :
    Market → Market × List Settlement :=
  matchAction (continuousPairText text) env action

/-- `process_fixing`. -/
def processFixingText (text : ℚ → ℚ) (env : Env) (order : IterationOrder ID (List ID))
    (m : Market) : Market × List Settlement :=
  Loop.chain (matchAction (fixingPairText text) env) ((order.walk m.buyOrders).map Sigma.fst) m

end Market

namespace MatchCall

/-- A call, with texts. -/
def runText (text : ℚ → ℚ) (env : Env) (order : IterationOrder ID (List ID)) :
    MatchCall → Market → Market × List Settlement
  | .continuousTrading action => Market.processContinuousTradingText text env action
  | .fixing => Market.processFixingText text env order

/-- How its loop looks at a pair. -/
def pair (text : ℚ → ℚ) : MatchCall → Database → ID → ID → Option (OrderRow × OrderRow)
  | .continuousTrading _ => continuousPairText text
  | .fixing => fixingPairText text

/-- Its loop takes the prices of two orders to cross. -/
def Crosses (text : ℚ → ℚ) (buyer seller : OrderRow) : MatchCall → Prop
  | .continuousTrading _ => seller.price ≤ buyer.price
  | .fixing => text seller.price ≤ text buyer.price

/-- Two orders of which something is left trade. -/
def Trades (text : ℚ → ℚ) (known : ID → Bool) (call : MatchCall)
    (x y : OrderRow × Int) : Prop :=
  call.Crosses text x.1 y.1 ∧ (known x.1.clientId ∧ known y.1.clientId) ∧ 0 < x.2 ∧ 0 < y.2

instance (text : ℚ → ℚ) (buyer seller : OrderRow) :
    ∀ call : MatchCall, Decidable (call.Crosses text buyer seller)
  | .continuousTrading _ => inferInstanceAs (Decidable (seller.price ≤ buyer.price))
  | .fixing => inferInstanceAs (Decidable (text seller.price ≤ text buyer.price))

instance (text : ℚ → ℚ) (known : ID → Bool) (call : MatchCall) (x y : OrderRow × Int) :
    Decidable (call.Trades text known x y) :=
  inferInstanceAs (Decidable (_ ∧ _))

/-- The orders of two queues that are filled in part, at some time. `fuel` bounds the rounds. -/
def cut (text : ℚ → ℚ) (known : ID → Bool) (call : MatchCall) :
    Nat → List (OrderRow × Int) → List (OrderRow × Int) → List OrderRow
  | fuel + 1, (buyer, q) :: bids, (seller, r) :: asks =>
    if call.Trades text known (buyer, q) (seller, r) then
      (if r < q then [buyer] else []) ++ (if q < r then [seller] else []) ++
        cut text known call fuel (Auction.leave buyer (q - min q r) bids)
          (Auction.leave seller (r - min q r) asks)
    else []
  | _, _, _ => []

/-- The orders of an action that a call fills in part. -/
def cutOrders (text : ℚ → ℚ) (call : MatchCall) (m : Market) (action : ID) : List OrderRow :=
  call.cut text m.db.clientExists
    ((m.ordersOf .buy action).length + (m.ordersOf .sell action).length)
    (offers (m.ordersOf .buy action)) (offers (m.ordersOf .sell action))

section

variable {text : ℚ → ℚ} {env : Env} {order : IterationOrder ID (List ID)} {m : Market}

/-- A call runs the loops of its actions. -/
theorem runText_eq_chain : ∀ call : MatchCall, call.runText text env order m
    = Loop.chain (Market.matchAction (call.pair text) env) (call.actions order m) m
  | .continuousTrading action => by
      rw [runText, Market.processContinuousTradingText, actions, Loop.chain, Loop.chain,
        List.append_nil]
      rfl
  | .fixing => rfl

/-- Without texts these are the loops of the market. -/
theorem runText_id (env : Env) (order : IterationOrder ID (List ID)) :
    ∀ call : MatchCall, call.runText id env order = call.run env order
  | .continuousTrading _ => rfl
  | .fixing => rfl

/-- A pair is settled, as it is read, if it trades. -/
theorem pair_eq (text : ℚ → ℚ) (call : MatchCall) {d : Database} {buyer seller : OrderRow}
    (mem : buyer ∈ d.orders.rows) (mem' : seller ∈ d.orders.rows) :
    call.pair text d buyer.orderId seller.orderId
      = if call.Trades text d.clientExists (buyer, buyer.quantity) (seller, seller.quantity) then
          some (buyer.read text, seller.read text)
        else none := by
  have row := getOrderInfo_of_mem mem
  have row' := getOrderInfo_of_mem mem'
  have price : d.getPrice buyer.orderId = buyer.price := by rw [getPrice_eq, row]; rfl
  have price' : d.getPrice seller.orderId = seller.price := by rw [getPrice_eq, row']; rfl
  cases call with
  | continuousTrading action =>
      simp only [pair, continuousPairText, Trades, Crosses, row, row', price, price',
        OrderRow.read]
      grind
  | fixing =>
      simp only [pair, fixingPairText, Trades, Crosses, row, row', OrderRow.read]
      grind

theorem readsOrders_pair (text : ℚ → ℚ) (call : MatchCall) : ReadsOrders (call.pair text) := by
  intro d buy sell bid ask found
  have rows : ∃ buyer seller, d.getOrderInfo buy = some buyer ∧ d.getOrderInfo sell = some seller ∧
      bid = buyer.read text ∧ ask = seller.read text := by
    cases call with
    | continuousTrading action =>
        simp only [pair, continuousPairText] at found
        grind
    | fixing =>
        simp only [pair, fixingPairText] at found
        grind
  obtain ⟨buyer, seller, row, row', rfl, rfl⟩ := rows
  exact ⟨buyer, seller, row, row', buyer.same_read text, seller.same_read text⟩

theorem pos_of_pair {d : Database} {buy sell : ID} {bid ask : OrderRow} (call : MatchCall)
    (found : call.pair text d buy sell = some (bid, ask)) : 0 < min bid.quantity ask.quantity := by
  cases call with
  | continuousTrading action =>
      simp only [pair, continuousPairText] at found
      grind
  | fixing =>
      simp only [pair, fixingPairText] at found
      grind

end

end MatchCall

/-! ### Orders that read back -/

section

variable {text : ℚ → ℚ} {call : MatchCall} {known : ID → Bool} {o buyer seller : OrderRow}
  {x y : OrderRow × Int}

/-- What is left of an order trades as the order. -/
theorem Stands.trades (stands : Stands buyer x) (stands' : Stands seller y) :
    call.Trades text known (buyer, buyer.quantity) (seller, seller.quantity)
      ↔ call.Trades text known x y := by
  obtain ⟨id, rfl⟩ := stands
  obtain ⟨id', rfl⟩ := stands'
  cases call <;> exact Iff.rfl

/-- It reads back if the order does. -/
theorem Stands.read_eq (stands : Stands o x) : o.read text = o ↔ x.1.read text = x.1 := by
  obtain ⟨id, rfl⟩ := stands
  have fields : ∀ o : OrderRow, o.read text = o ↔ text o.price = o.price ∧
      text o.triggerPriceLower = o.triggerPriceLower ∧
        text o.triggerPriceUpper = o.triggerPriceUpper := by
    intro o
    constructor
    · intro same
      exact ⟨congrArg OrderRow.price same, congrArg OrderRow.triggerPriceLower same,
        congrArg OrderRow.triggerPriceUpper same⟩
    · rintro ⟨price, lower, upper⟩
      rw [OrderRow.read, price, lower, upper]
  rw [fields, fields]

/-- What is left of an order that reads back, if anything is left. -/
theorem leftover_read {quantity : Int} (readBack : quantity < o.quantity → o.read text = o)
    (id : ID) : (o.read text).leftover id quantity = o.leftover id quantity := by
  unfold OrderRow.leftover
  by_cases left : quantity < o.quantity
  · rw [readBack left]
  · have none : ¬quantity < (o.read text).quantity := left
    rw [if_neg left, if_neg none]

end

section

variable {env : Env} {action : ID} {others : OrderType → List OrderRow} {s s' : Sweep}
  {buys sells : List OrderRow} {bids asks : List (OrderRow × Int)} {e : Settlement}
  {text : ℚ → ℚ} {call : MatchCall}

/-- **One round**: the first two orders trade, and what is left of them is what is left of the
orders as they were read. -/
theorem Sweep.Lists.readStep (fresh : env.Fresh) (lists : s.Lists action others buys sells)
    (bought : List.Forall₂ Stands buys bids) (sold : List.Forall₂ Stands sells asks)
    (next : Sql.matchStep (call.pair text) env action s = some (s', e)) :
    ∃ buyer buys' seller sells' x bids' y asks' id id',
      (buys = buyer :: buys' ∧ bids = x :: bids' ∧ Stands buyer x ∧
        List.Forall₂ Stands buys' bids') ∧
      (sells = seller :: sells' ∧ asks = y :: asks' ∧ Stands seller y ∧
        List.Forall₂ Stands sells' asks') ∧
      call.Trades text s.db.clientExists x y ∧
      Sql.settlePair env action (buyer.read text) (seller.read text) (buys'.map OrderRow.orderId)
        (sells'.map OrderRow.orderId) s = (s', e) ∧
      s'.Lists action others
        ((buyer.read text).leftover id (min buyer.quantity seller.quantity) ++ buys')
        ((seller.read text).leftover id' (min buyer.quantity seller.quantity) ++ sells') ∧
      s'.db.clientExists = s.db.clientExists := by
  obtain ⟨buyer, buys', seller, sells', bid, ask, id, id', rfl, rfl, -, -, found, settled, after,
    -⟩ := lists.matchStep_of_same (call.readsOrders_pair text) fresh next
  obtain ⟨x, bids', stands, bought', rfl⟩ := List.forall₂_cons_left_iff.mp bought
  obtain ⟨y, asks', stands', sold', rfl⟩ := List.forall₂_cons_left_iff.mp sold
  rw [call.pair_eq text (lists.buy_mem (o := buyer) List.mem_cons_self).1
    (lists.sell_mem (o := seller) List.mem_cons_self).1] at found
  split at found
  · rename_i trades
    obtain ⟨rfl, rfl⟩ := Prod.mk.inj (Option.some.inj found)
    have clients : s'.db.clientExists = s.db.clientExists := by
      funext c
      have kept := clientExists_settlePair env action (buyer.read text) (seller.read text)
        (buys'.map OrderRow.orderId) (sells'.map OrderRow.orderId) s c
      rwa [settled] at kept
    exact ⟨buyer, buys', seller, sells', x, bids', y, asks', id, id',
      ⟨rfl, rfl, stands, bought'⟩, ⟨rfl, rfl, stands', sold'⟩, (stands.trades stands').mp trades,
      settled, after, clients⟩
  · cases found

/-- Where the loop ends, the first two orders do not trade. -/
theorem Sweep.Lists.not_trades (lists : s.Lists action others buys sells)
    (bought : List.Forall₂ Stands buys bids) (sold : List.Forall₂ Stands sells asks)
    (halted : Sql.matchStep (call.pair text) env action s = none) :
    ∀ x bids' y asks', bids = x :: bids' → asks = y :: asks' →
      ¬call.Trades text s.db.clientExists x y := by
  rintro x bids' y asks' rfl rfl
  obtain ⟨buyer, buys', stands, -, rfl⟩ := List.forall₂_cons_right_iff.mp bought
  obtain ⟨seller, sells', stands', -, rfl⟩ := List.forall₂_cons_right_iff.mp sold
  have none := Market.pair_of_halted lists halted
  rw [call.pair_eq text (lists.buy_mem (o := buyer) List.mem_cons_self).1
    (lists.sell_mem (o := seller) List.mem_cons_self).1] at none
  split at none
  · cases none
  · rename_i refused
    rwa [stands.trades stands'] at refused

/-- It fills nothing more. -/
theorem Sweep.Lists.cut_of_halted (lists : s.Lists action others buys sells)
    (bought : List.Forall₂ Stands buys bids) (sold : List.Forall₂ Stands sells asks)
    (halted : Sql.matchStep (call.pair text) env action s = none) (n : Nat) :
    call.cut text s.db.clientExists n bids asks = [] := by
  have refused := lists.not_trades bought sold halted
  rcases n with _ | n
  · rfl
  · rcases bids with _ | ⟨x, bids⟩
    · rfl
    · rcases asks with _ | ⟨y, asks⟩
      · rfl
      · exact if_neg (refused x bids y asks rfl rfl)

/-- The first two orders, if they trade. -/
theorem MatchCall.cut_of_trades {known : ID → Bool} {x y : OrderRow × Int}
    (trades : call.Trades text known x y) (n : Nat) (bids asks : List (OrderRow × Int)) :
    call.cut text known (n + 1) (x :: bids) (y :: asks)
      = ((if y.2 < x.2 then [x.1] else []) ++ if x.2 < y.2 then [y.1] else []) ++
        call.cut text known n (Auction.leave x.1 (x.2 - min x.2 y.2) bids)
          (Auction.leave y.1 (y.2 - min x.2 y.2) asks) :=
  if_pos trades

/-- **One round** of a loop whose orders read back, if they are filled in part. -/
theorem Sweep.Lists.readStep_of_read (fresh : env.Fresh) (lists : s.Lists action others buys sells)
    (bought : List.Forall₂ Stands buys bids) (sold : List.Forall₂ Stands sells asks)
    (next : Sql.matchStep (call.pair text) env action s = some (s', e)) {n : Nat}
    (readBack : ∀ o ∈ call.cut text s.db.clientExists (n + 1) bids asks, o.read text = o) :
    ∃ buyer buys' seller sells' id id' bids' asks',
      (buys = buyer :: buys' ∧ sells = seller :: sells') ∧ call.Crosses text buyer seller ∧
      0 < min buyer.quantity seller.quantity ∧
      (∀ o ∈ [buyer, seller], min buyer.quantity seller.quantity < o.quantity →
        o.read text = o) ∧
      Sql.settlePair env action (buyer.read text) (seller.read text) (buys'.map OrderRow.orderId)
        (sells'.map OrderRow.orderId) s = (s', e) ∧
      s'.Lists action others
        (buyer.leftover id (min buyer.quantity seller.quantity) ++ buys')
        (seller.leftover id' (min buyer.quantity seller.quantity) ++ sells') ∧
      List.Forall₂ Stands (buyer.leftover id (min buyer.quantity seller.quantity) ++ buys') bids' ∧
      List.Forall₂ Stands (seller.leftover id' (min buyer.quantity seller.quantity) ++ sells')
        asks' ∧
      ∀ o ∈ call.cut text s'.db.clientExists n bids' asks', o.read text = o := by
  obtain ⟨buyer, buys', seller, sells', x, bids', y, asks', id, id',
    ⟨rfl, rfl, stands, bought'⟩, ⟨rfl, rfl, stands', sold'⟩, trades, settled, after, clients⟩ :=
    lists.readStep fresh bought sold next
  rw [MatchCall.cut_of_trades trades] at readBack
  obtain ⟨first, later⟩ := List.forall_mem_append.mp readBack
  obtain ⟨ofBuyer, ofSeller⟩ := List.forall_mem_append.mp first
  obtain ⟨quantity, price, client, -⟩ := stands.fields
  obtain ⟨quantity', price', client', -⟩ := stands'.fields
  have left : min buyer.quantity seller.quantity < buyer.quantity → buyer.read text = buyer := by
    intro more
    rw [quantity, quantity', min_lt_iff, lt_self_iff_false, false_or] at more
    rw [if_pos more] at ofBuyer
    exact stands.read_eq.mpr (ofBuyer x.1 List.mem_cons_self)
  have left' : min buyer.quantity seller.quantity < seller.quantity →
      seller.read text = seller := by
    intro more
    rw [quantity, quantity', min_lt_iff, lt_self_iff_false, or_false] at more
    rw [if_pos more] at ofSeller
    exact stands'.read_eq.mpr (ofSeller y.1 List.mem_cons_self)
  rw [leftover_read left, leftover_read left'] at after
  have some : 0 < min buyer.quantity seller.quantity := by
    rw [quantity, quantity']
    exact lt_min trades.2.2.1 trades.2.2.2
  have traded : min x.2 y.2 = min buyer.quantity seller.quantity := by rw [quantity, quantity']
  rw [← clients, traded] at later
  refine ⟨buyer, buys', seller, sells', id, id', _, _, ⟨rfl, rfl⟩,
    ((stands.trades stands').mpr trades).1, some, List.forall_mem_cons.mpr ⟨left,
      List.forall_mem_cons.mpr ⟨left', fun _ mem => absurd mem List.not_mem_nil⟩⟩, settled, after,
    stands_leave stands bought' id _, stands_leave stands' sold' id' _, later⟩

/-- **What every round keeps** of the orders behind the two vectors is kept, if the orders that
are filled in part read back. -/
theorem Sweep.Lists.run_of_read {Q : List OrderRow → List OrderRow → Prop} (fresh : env.Fresh)
    (round : ∀ buyer buys seller sells id id', call.Crosses text buyer seller →
      0 < min buyer.quantity seller.quantity → Q (buyer :: buys) (seller :: sells) →
      Q (buyer.leftover id (min buyer.quantity seller.quantity) ++ buys)
        (seller.leftover id' (min buyer.quantity seller.quantity) ++ sells)) :
    ∀ (n : Nat) {s : Sweep} {buys sells : List OrderRow} {bids asks : List (OrderRow × Int)},
      s.Lists action others buys sells → List.Forall₂ Stands buys bids →
      List.Forall₂ Stands sells asks → Q buys sells →
      (∀ o ∈ call.cut text s.db.clientExists n bids asks, o.read text = o) →
      ∃ buys' sells',
        (Loop.run (Sql.matchStep (call.pair text) env action) n s).1.Lists action others
        buys' sells' ∧
          Q buys' sells' := by
  intro n
  induction n with
  | zero => exact fun lists _ _ holds _ => ⟨_, _, lists, holds⟩
  | succ n ih =>
      intro s buys sells bids asks lists bought sold holds readBack
      cases next : Sql.matchStep (call.pair text) env action s with
      | none =>
          rw [Loop.run_of_halted next]
          exact ⟨_, _, lists, holds⟩
      | some pair =>
          obtain ⟨s', e⟩ := pair
          obtain ⟨buyer, buys', seller, sells', id, id', bids', asks', ⟨rfl, rfl⟩, crosses, some, -,
            -, after, parts, parts', later⟩ := lists.readStep_of_read fresh bought sold next readBack
          rw [Loop.run_of_step next]
          exact ih after parts parts'
            (round buyer buys' seller sells' id id' crosses some holds) later

end

/-! ### Calls -/

namespace Market

section

variable {env : Env} {m : Market} {orders others : OrderType → ID → List OrderRow}
  {text : ℚ → ℚ} {call : MatchCall}

theorem Lists.cutOrders (lists : m.Lists orders others) (action : ID) :
    call.cutOrders text m action = call.cut text m.db.clientExists
      ((m.orderIds .buy action).length + (m.orderIds .sell action).length)
      (offers (orders .buy action)) (offers (orders .sell action)) := by
  rw [MatchCall.cutOrders, lists.ordersOf, lists.ordersOf, lists.ids, lists.ids, List.length_map,
    List.length_map]

/-- **The loop of one action**: what every round keeps of the orders behind the two vectors holds
where it ends, if the orders that it fills in part read back. -/
theorem Lists.matchAction_of_read (call : MatchCall) (lists : m.Lists orders others)
    (fresh : env.Fresh)
    (action : ID) {Q : List OrderRow → List OrderRow → Prop}
    (start : Q (orders .buy action) (orders .sell action))
    (round : ∀ buyer buys seller sells id id', call.Crosses text buyer seller →
      0 < min buyer.quantity seller.quantity → Q (buyer :: buys) (seller :: sells) →
      Q (buyer.leftover id (min buyer.quantity seller.quantity) ++ buys)
        (seller.leftover id' (min buyer.quantity seller.quantity) ++ sells))
    (readBack : ∀ o ∈ call.cutOrders text m action, o.read text = o) :
    ∃ orders', (Market.matchAction (call.pair text) env action m).1.Lists
        (withOrders orders action orders') others ∧ Q (orders' .buy) (orders' .sell) ∧
      ∀ buyer buys seller sells, orders' .buy = buyer :: buys → orders' .sell = seller :: sells →
        call.pair text (Market.matchAction (call.pair text) env action m).1.db buyer.orderId
          seller.orderId = none := by
  rcases matchAction_swept (call.pair text) env action m with ⟨same, empty⟩ | ⟨stops, same⟩
  · rw [same]
    refine ⟨(orders · action), (withOrders_self orders action).symm ▸ lists, start, ?_⟩
    intro buyer buys seller sells some some'
    simp [lists.ids, some, some'] at empty
  · rw [same]
    have begun := lists.sweep action
    have frame := (keeps_sweeping (call.readsOrders_pair text) fresh action (others · action) m.db
      ((m.orderIds .buy action).length + (m.orderIds .sell action).length) _
      ⟨⟨_, _, begun⟩, fun _ _ _ => rfl⟩).inv.frame
    rw [lists.cutOrders] at readBack
    obtain ⟨buys, sells, after, kept⟩ := begun.run_of_read fresh round _ (stands_offers _)
      (stands_offers _) start readBack
    refine ⟨_, lists.afterSweep after frame, kept, ?_⟩
    rintro buyer buys' seller sells' rfl rfl
    exact pair_of_halted after stops

/-- The loop of another action changes neither the orders of an action nor the clients. -/
theorem Backed.other_action (backed : m.Backed) (fresh : env.Fresh) {action a : ID}
    (other : action ≠ a) :
    (Market.matchAction (call.pair text) env a m).1.Backed ∧
      (∀ side, (Market.matchAction (call.pair text) env a m).1.ordersOf side action
        = m.ordersOf side action) ∧
      call.cutOrders text (Market.matchAction (call.pair text) env a m).1 action
        = call.cutOrders text m action := by
  obtain ⟨others, lists⟩ := backed.lists
  have begun : m.Lists (withOrders (fun side action => m.ordersOf side action) a
      fun side => m.ordersOf side a) others := by
    rwa [withOrders_self fun side action => m.ordersOf side action]
  have kept := keeps_lists_matchAction (call.readsOrders_pair text) fresh a _ others m ⟨_, begun⟩
  obtain ⟨new, lists'⟩ := kept.inv
  have same : ∀ side, (Market.matchAction (call.pair text) env a m).1.ordersOf side action
      = m.ordersOf side action := fun side => by
    rw [lists'.ordersOf, withOrders, if_neg other]
  have clients := kept.quantity fun _ _ => trivial
  refine ⟨Strands.backed ⟨_, lists'⟩, same, ?_⟩
  have known : (Market.matchAction (call.pair text) env a m).1.db.clientExists
      = m.db.clientExists := clients
  rw [MatchCall.cutOrders, MatchCall.cutOrders, same, same, known]

/-- **The loops of some actions**, one after the other. -/
theorem Backed.chain_of_read {P : OrderType → ID → List OrderRow → Prop} (fresh : env.Fresh)
    (round : ∀ action buyer buys seller sells id id', call.Crosses text buyer seller →
      0 < min buyer.quantity seller.quantity →
      P .buy action (buyer :: buys) ∧ P .sell action (seller :: sells) →
      P .buy action (buyer.leftover id (min buyer.quantity seller.quantity) ++ buys) ∧
        P .sell action (seller.leftover id' (min buyer.quantity seller.quantity) ++ sells)) :
    ∀ (actions : List ID) {m : Market}, actions.Nodup → m.Backed →
      (∀ side action, P side action (m.ordersOf side action)) →
      (∀ action ∈ actions, ∀ o ∈ call.cutOrders text m action, o.read text = o) →
      (Loop.chain (Market.matchAction (call.pair text) env) actions m).1.Backed ∧
        ∀ side action, P side action
          ((Loop.chain (Market.matchAction (call.pair text) env) actions m).1.ordersOf side action)
  | [], _, _, backed, start, _ => ⟨backed, start⟩
  | a :: actions, m, nodup, backed, start, readBack => by
      obtain ⟨absent, nodup⟩ := List.nodup_cons.mp nodup
      obtain ⟨others, lists⟩ := backed.lists
      obtain ⟨new, lists', kept, -⟩ := lists.matchAction_of_read call fresh a
        (Q := fun buys sells => P .buy a buys ∧ P .sell a sells) ⟨start .buy a, start .sell a⟩
        (round a) (readBack a List.mem_cons_self)
      refine chain_of_read fresh round actions nodup (Strands.backed ⟨_, lists'⟩) ?_ ?_
      · intro side action
        rw [lists'.ordersOf]
        by_cases here : action = a
        · subst here
          cases side
          · simpa [withOrders] using kept.1
          · simpa [withOrders] using kept.2
        · simpa only [withOrders, here, if_false] using start side action
      · intro action mem o cut
        have other : action ≠ a := fun eq => absent (eq ▸ mem)
        rw [(backed.other_action fresh other).2.2] at cut
        exact readBack action (List.mem_cons_of_mem _ mem) o cut

theorem nodup_actions (order : IterationOrder ID (List ID)) (m : Market) :
    (call.actions order m).Nodup := by
  cases call with
  | continuousTrading action => exact List.nodup_singleton action
  | fixing => exact order.nodup_keys m.buyOrders

end

/-- Every order that a call fills in part reads back. -/
def ReadsBack (text : ℚ → ℚ) (order : IterationOrder ID (List ID)) (call : MatchCall)
    (m : Market) : Prop :=
  ∀ action ∈ call.actions order m, ∀ o ∈ call.cutOrders text m action, o.read text = o

/-- **A call** leaves parts of the orders behind all vectors, if the orders that it fills in part
read back. -/
theorem leftOf_runText {text : ℚ → ℚ} {env : Env} {m : Market} {call : MatchCall}
    (fresh : env.Fresh) (order : IterationOrder ID (List ID)) (backed : m.Backed)
    (readBack : ReadsBack text order call m) :
    (call.runText text env order m).1.Backed ∧ ∀ side action,
      LeftOf ((call.runText text env order m).1.ordersOf side action)
        (m.ordersOf side action) := by
  rw [call.runText_eq_chain]
  exact backed.chain_of_read (P := fun side action os => LeftOf os (m.ordersOf side action)) fresh
    (fun _ _ _ _ _ id id' _ pos left => ⟨left.1.leftover id pos, left.2.leftover id' pos⟩)
    _ (nodup_actions order m) (fun _ _ => .refl _) readBack

end Market

end StockMarket.Sql
