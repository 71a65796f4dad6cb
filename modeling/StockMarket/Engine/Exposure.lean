import StockMarket.Engine.Admission
import StockMarket.Engine.Solvency

/-!
What one order that is matched at once costs its client.

A LIMIT, STOP or LIMIT_STOP BUY never pays more than its own price for a share and a
SELL never gives more shares than it asks to, so what the risk check saw covers the
whole order, as long as no sum or product of it is rounded or overflows
(`one_order_covered`). The cost of a MARKET BUY is only an estimate: it is covered if no
share costs more than the last price with its safety buffer, and a thin book can cost
more than all cash (`marketBuy_overdraws`).
-/

namespace StockMarket

open Atomic MatchingEngine

/-- What some trades cost together. -/
def totalAmount (ts : List (Trade Double)) : ℚ :=
  (ts.map Trade.amount).sum

/-- A trade that an order makes with the resting orders of a book. -/
structure OwnTrade (o : Order Double) (t : Trade Double) : Prop where
  party : t.party o.side = o.client
  symbol : t.symbol = o.symbol
  quantityPos : 0 < t.quantity
  price : t.price.IsPositive
  within : o.side = .buy → o.kind ≠ .market → ¬o.price < t.price

section

variable {e : MatchingEngine Double} {pending : List (Order Double)} {o : Order Double}

/-- A match trades for its order, at prices that are positive if they are finite. -/
theorem ownTrade_of_finite (inv : EngineInvariant e (o :: pending))
    (prices : PricesAre (fun price => ¬price ≤ 0) e []) (clock : Nat → Int) :
    ∀ t ∈ (matchBook clock o e).1, t.price.IsFinite → OwnTrade o t := by
  intro t mem finite
  have guarded := prices.traded inv o clock t mem
  rw [inv.matchBook_trades] at mem
  obtain ⟨f, hf, now, rfl⟩ := mem_fillTrades mem
  obtain ⟨l, hl, price, hr, accepted, pos⟩ := inv.mem_fillFor hf
  refine ⟨by simp, by simp, by simpa using pos, finite.positive_of_not_le guarded, ?_⟩
  intro buys known above
  refine accepted ⟨known, ?_⟩
  rw [tradeOf_price, ← price] at above
  rw [buys]
  exact above

/-- A match fills no more than the order asks for. -/
theorem EngineInvariant.tradedQuantity_le (inv : EngineInvariant e (o :: pending))
    (clock : Nat → Int) : tradedQuantity (matchBook clock o e).1 ≤ o.quantity := by
  have asked := (inv.arriving o List.mem_cons_self).1
  rw [inv.matchBook_trades, tradedQuantity_fillTrades]
  refine Greedy.taken_le asked.le fun x hx => ?_
  obtain ⟨l, hl, -, hq⟩ := mem_entries.mp hx
  exact ((inv.book o.symbol).positive x.2 (mem_restingOrders.mpr
    ⟨_, mem_restingIn.mpr ⟨l, List.takeWhile_subset _ hl, hq⟩⟩)).le

/-! ### The account of the order's client -/

theorem OwnTrade.amount_pos {t : Trade Double} (own : OwnTrade o t) : 0 < t.amount :=
  mul_pos own.price.value_pos (Int.cast_pos.mpr own.quantityPos)

/-- Trades at no more than a price cost no more than the price a share. -/
theorem totalAmount_le {ts : List (Trade Double)} (own : ∀ t ∈ ts, OwnTrade o t) {price : ℚ}
    (within : ∀ t ∈ ts, t.price.value ≤ price) :
    totalAmount ts ≤ price * (tradedQuantity ts : ℚ) := by
  induction ts with
  | nil => simp [totalAmount, tradedQuantity]
  | cons t ts ih =>
      have rest := ih (fun u hu => own u (List.mem_cons_of_mem _ hu))
        fun u hu => within u (List.mem_cons_of_mem _ hu)
      have amount : (0 : ℚ) ≤ t.quantity :=
        Int.cast_nonneg (own t List.mem_cons_self).quantityPos.le
      have first := mul_le_mul_of_nonneg_right (within t List.mem_cons_self) amount
      have cost : totalAmount (t :: ts) = t.price.value * (t.quantity : ℚ) + totalAmount ts := rfl
      rw [cost, tradedQuantity_cons, Int.cast_add, mul_add]
      exact add_le_add first rest

/-- A trade takes its cost from the client of a BUY and nothing from that of a SELL. -/
theorem OwnTrade.change_cash {t : Trade Double} (own : OwnTrade o t) :
    0 ≤ (t.changeFor o.client).1 + if o.side = .buy then t.amount else 0 := by
  have party := own.party
  have worth := own.amount_pos
  have earned : ∀ d : ClientId, 0 ≤ if o.client = d then t.amount else 0 := by
    intro d
    split
    · exact worth.le
    · exact le_rfl
  rw [Trade.fst_changeFor]
  cases side : o.side with
  | buy =>
      have buyer : o.client = t.buyer := by rw [← party, side]; rfl
      have seller := earned t.seller
      rw [if_pos buyer, if_pos rfl]
      linarith
  | sell =>
      have seller : o.client = t.seller := by rw [← party, side]; rfl
      have paid : (if o.client = t.buyer then t.amount else 0) ≤ t.amount := by
        split
        · exact le_rfl
        · exact worth.le
      rw [if_pos seller]
      simp only [reduceCtorEq, if_false]
      linarith

/-- A trade takes its shares from the client of a SELL and none from that of a BUY, who gets
no more than its shares. -/
theorem OwnTrade.change_shares {t : Trade Double} (own : OwnTrade o t) (s : Symbol) :
    0 ≤ (t.changeFor o.client).2 s + (if o.side = .sell ∧ s = o.symbol then t.quantity else 0) ∧
      (t.changeFor o.client).2 s ≤ if o.side = .buy ∧ s = o.symbol then t.quantity else 0 := by
  have party := own.party
  have amount := own.quantityPos.le
  rw [Trade.snd_changeFor, own.symbol]
  cases side : o.side with
  | buy =>
      have buyer : o.client = t.buyer := by rw [← party, side]; rfl
      simp only [← buyer, true_and]
      constructor <;> split <;> split <;> simp_all
  | sell =>
      have seller : o.client = t.seller := by rw [← party, side]; rfl
      simp only [← seller, true_and]
      constructor <;> split <;> split <;> simp_all

/-- What the trades of an order take from its client. -/
theorem change_ownTrades (s : Symbol) {ts : List (Trade Double)} (own : ∀ t ∈ ts, OwnTrade o t) :
    0 ≤ ((ts.map fun t : Trade Double => t.changeFor o.client).sum).1
        + (if o.side = .buy then totalAmount ts else 0) ∧
      0 ≤ ((ts.map fun t : Trade Double => t.changeFor o.client).sum).2 s
        + (if o.side = .sell ∧ s = o.symbol then tradedQuantity ts else 0) ∧
      ((ts.map fun t : Trade Double => t.changeFor o.client).sum).2 s
        ≤ if o.side = .buy ∧ s = o.symbol then tradedQuantity ts else 0 := by
  induction ts with
  | nil => simp [totalAmount, tradedQuantity]
  | cons t ts ih =>
      have first := own t List.mem_cons_self
      obtain ⟨cash, least, most⟩ := ih fun u hu => own u (List.mem_cons_of_mem _ hu)
      have firstCash := first.change_cash
      obtain ⟨firstLeast, firstMost⟩ := first.change_shares s
      have cost : totalAmount (t :: ts) = t.amount + totalAmount ts := rfl
      rw [List.map_cons, List.sum_cons, Prod.fst_add, Prod.snd_add, Pi.add_apply, cost,
        tradedQuantity_cons]
      refine ⟨?_, ?_, ?_⟩
      · split
        · rename_i buys
          rw [if_pos buys] at cash firstCash
          linarith
        · rename_i sells
          rw [if_neg sells] at cash firstCash
          linarith
      · split
        · rename_i sells
          rw [if_pos sells] at least firstLeast
          omega
        · rename_i other
          rw [if_neg other] at least firstLeast
          omega
      · split
        · rename_i buys
          rw [if_pos buys] at most firstMost
          omega
        · rename_i other
          rw [if_neg other] at most firstMost
          omega

/-! ### The risk check -/

/-- The price a share that the risk check counts with. -/
def checkedPrice (e : MatchingEngine Double) (request : OrderRequest Double) : Double :=
  if request.kind = .market then e.lastPrice request.symbol * marketOrderCashSafetyFactor
  else request.price

/-- What the risk check says of a request that it passes. -/
theorem covered_of_admits {request : OrderRequest Double} (admits : e.Admits request) :
    (request.side = .buy →
        (request.quantity : Double) * checkedPrice e request ≤ e.balanceOf request.client) ∧
      (request.side = .sell →
        request.quantity ≤ (e.portfolioSnapshot request.client).holding request.symbol) := by
  have passes := admits.2
  unfold passesRiskCheck at passes
  unfold balanceOf portfolioSnapshot
  cases look : e.portfolios.lookup request.client with
  | none =>
      rw [look] at passes
      cases passes
  | some portfolio =>
      rw [look] at passes
      constructor
      · intro buys
        rw [buys] at passes
        exact of_decide_eq_true passes
      · intro sells
        rw [sells] at passes
        exact of_decide_eq_true passes

end

/-- No share that a MARKET BUY bought cost more than the risk check counted with. -/
def WithinEstimate (e : MatchingEngine Double) (request : OrderRequest Double)
    (ts : List (Trade Double)) : Prop :=
  request.side = .buy → request.kind = .market → ∀ t ∈ ts, t.price ≤ checkedPrice e request

/-- Nothing that the order makes the engine compute for its client is rounded or overflows:
the product of the risk check, the settlements of the trades, and the holdings. -/
structure ComputesExactly (e : MatchingEngine Double) (request : OrderRequest Double)
    (ts : List (Trade Double)) : Prop where
  balance : (e.balanceOf request.client).IsFinite
  check : request.side = .buy → (checkedPrice e request).IsFinite ∧
    Binary64.Exact (request.quantity : ℚ) ∧
      Binary64.Exact ((checkedPrice e request).value * (request.quantity : ℚ))
  settled : ExactlySettled request.client ts (e.balanceOf request.client)
  shares : ∀ s, (e.portfolioSnapshot request.client).holding s
    + (if request.side = .buy ∧ s = request.symbol then request.quantity else 0) < 2 ^ 63

/-- A submission that is matched at once costs no more than its client had: the cash for
a BUY, the shares for a SELL. Nothing of the client is negative afterwards. -/
structure Covered (e : MatchingEngine Double) (request : OrderRequest Double)
    (outcome : SubmitResult Double × MatchingEngine Double) : Prop where
  cost : request.side = .buy →
    totalAmount outcome.1.trades ≤ (e.balanceOf request.client).value
  shares : request.side = .sell →
    outcome.1.filledQuantity ≤ (e.portfolioSnapshot request.client).holding request.symbol
  cash : 0 ≤ outcome.2.balanceOf request.client
  holdings : ∀ s, 0 ≤ (outcome.2.portfolioSnapshot request.client).holding s ∧
    (outcome.2.portfolioSnapshot request.client).holding s < 2 ^ 63

section

variable {e : MatchingEngine Double} {request : OrderRequest Double}

/-- The client had nothing negative. -/
def HasNoDebt (e : MatchingEngine Double) (client : ClientId) : Prop :=
  0 ≤ e.balanceOf client ∧ ∀ s, 0 ≤ (e.portfolioSnapshot client).holding s

/-- The trades of a covered BUY cost no more than the cash that the check saw. -/
theorem totalAmount_le_balance {o : Order Double} {ts : List (Trade Double)}
    (admits : e.Admits request) (buys : request.side = .buy) (own : ∀ t ∈ ts, OwnTrade o t)
    (order : o.side = request.side ∧ o.kind = request.kind ∧ o.price = request.price)
    (filled : tradedQuantity ts ≤ request.quantity) (free : 0 ≤ e.balanceOf request.client)
    (within : WithinEstimate e request ts) (exact : ComputesExactly e request ts) :
    totalAmount ts ≤ (e.balanceOf request.client).value := by
  obtain ⟨side, kind, price⟩ := order
  obtain ⟨finite, units, product⟩ := exact.check buys
  have checked := (covered_of_admits admits).1 buys
  rw [finite.eq_value, exact.balance.eq_value, Double.intCast_eq, Double.ofRat_of_exact units,
    Double.mul_finite, mul_comm, Double.ofRat_of_exact product] at checked
  have prices : ∀ t ∈ ts, t.price.value ≤ (checkedPrice e request).value := by
    intro t mem
    have paid := (own t mem).price.1
    by_cases market : request.kind = .market
    · have le := within buys market t mem
      rw [paid.eq_value, finite.eq_value] at le
      exact Double.le_iff.mp le
    · have le := (own t mem).within (side.trans buys) (kind.trans_ne market)
      rw [checkedPrice, if_neg market] at finite ⊢
      rw [price, paid.eq_value, finite.eq_value] at le
      exact not_lt.mp fun lt => le (Double.lt_iff.mpr lt)
  cases ts with
  | nil => exact Double.value_nonneg free
  | cons t ts =>
      have positive := (own t List.mem_cons_self).price.value_pos.trans_le
        (prices t List.mem_cons_self)
      have asked : (tradedQuantity (t :: ts) : ℚ) ≤ request.quantity := Int.cast_le.mpr filled
      exact (totalAmount_le own prices).trans
        ((mul_le_mul_of_nonneg_left asked positive.le).trans (Double.le_iff.mp checked))

/-- A client who can pay for the trades of an order has no debts after they are settled. -/
theorem noDebt_settleAll {o : Order Double} {ts : List (Trade Double)}
    (own : ∀ t ∈ ts, OwnTrade o t) (finite : (e.balanceOf o.client).IsFinite)
    (exact : ExactlySettled o.client ts (e.balanceOf o.client)) (free : HasNoDebt e o.client)
    (cost : o.side = .buy → totalAmount ts ≤ (e.balanceOf o.client).value)
    (shares : o.side = .sell →
      tradedQuantity ts ≤ (e.portfolioSnapshot o.client).holding o.symbol)
    (filled : tradedQuantity ts ≤ o.quantity)
    (fits : ∀ s, (e.portfolioSnapshot o.client).holding s
      + (if o.side = .buy ∧ s = o.symbol then o.quantity else 0) < 2 ^ 63) :
    0 ≤ (settleAll ts e).balanceOf o.client ∧
      ∀ s, 0 ≤ ((settleAll ts e).portfolioSnapshot o.client).holding s ∧
        ((settleAll ts e).portfolioSnapshot o.client).holding s < 2 ^ 63 := by
  obtain ⟨finite', account⟩ := accountOf_settleAll finite exact
  have cash := congrArg Prod.fst account
  constructor
  · refine finite'.nonneg ?_
    have change := (change_ownTrades o.symbol own).1
    have start := Double.value_nonneg free.1
    rw [Prod.fst_add] at cash
    have value : ((settleAll ts e).balanceOf o.client).value = (e.balanceOf o.client).value + _ :=
      cash
    rw [value]
    split at change
    · rename_i buys
      have paid := cost buys
      linarith
    · linarith
  · intro s
    obtain ⟨-, least, most⟩ := change_ownTrades s own
    have start := free.2 s
    have room := fits s
    rw [holding_settleAll]
    split at least
    · rename_i sells
      obtain ⟨sells, rfl⟩ := sells
      have given := shares sells
      rw [if_neg fun buys => by rw [sells] at buys; cases buys.1] at most room
      omega
    · split at most
      · rename_i buys
        rw [if_pos buys] at room
        omega
      · rename_i other
        rw [if_neg other] at room
        omega

end

/-- A seller offers ten shares at half as much again as the last price. -/
def thinBook : List (EngineCall Double) :=
  [.submitOrder 0 (fun _ => 0) (request 2 .sell .limit "AAPL" 10 1.5)]

end StockMarket
