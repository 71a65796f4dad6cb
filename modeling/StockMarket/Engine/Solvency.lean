import StockMarket.Engine.ExactCash
import StockMarket.Engine.Prices
import StockMarket.Lib.Int64
import Mathlib.Algebra.Order.BigOperators.Group.List
import Mathlib.Tactic.Linarith

/-!
When portfolios stay solvent.

The risk check looks at one order at a time and at the whole portfolio, so two
orders that it passes can lay claim to the same cash or the same shares
(`twoSells_insolvent`). What keeps clients solvent is that each order is backed
by what its client has free of the claims of the client's other open orders
(`Backed`); for a MARKET BUY, whose price nobody knows before, that is needed when
its turn to be matched comes. Cash is a double, so an order that is covered to the
last unit can still be overdrawn by a rounding (`fourFills_overdraw`): the settlements
have to be exact. In a run where all this holds at every step no portfolio is ever
overdrawn, and no holding outgrows 64 bits if all shares together do not
(`solvent_of_backed`).
-/

namespace StockMarket

open MatchingEngine

/-! ### Claims of open orders -/

/-- The cash per unit that an open order lays claim to, for one client. -/
def claimsCash (c : ClientId) (o : Order Double) : ℚ :=
  if o.client = c ∧ o.side = .buy ∧ o.kind ≠ .market then o.price.value else 0

/-- Whether the units of an open order are shares of a client that it claims. -/
def claimsShares (c : ClientId) (s : Symbol) (o : Order Double) : ℤ :=
  if o.client = c ∧ o.side = .sell ∧ o.symbol = s then 1 else 0

namespace MatchingEngine

/-- The cash of a client that no open order lays claim to. -/
def freeCash (e : MatchingEngine Double) (pending : List (Order Double)) (c : ClientId) : ℚ :=
  (e.accountOf c).1 - weigh (claimsCash c) (e.openOrders pending)

/-- The shares of a client that no open order lays claim to. -/
def freeShares (e : MatchingEngine Double) (pending : List (Order Double)) (c : ClientId)
    (s : Symbol) : ℤ :=
  (e.accountOf c).2 s - weigh (claimsShares c s) (e.openOrders pending)

/-- Every portfolio has non-negative cash and non-negative holdings. -/
def Solvent (e : MatchingEngine Double) : Prop :=
  ∀ entry ∈ e.portfolios.entries,
    0 ≤ entry.2.cash ∧ ∀ holding ∈ entry.2.holdings.entries, 0 ≤ holding.2

instance (e : MatchingEngine Double) : Decidable e.Solvent :=
  List.decidableBAll _ _

/-- Every balance is finite. -/
def FiniteCash (e : MatchingEngine Double) : Prop :=
  ∀ entry ∈ e.portfolios.entries, entry.2.cash.IsFinite

instance (e : MatchingEngine Double) : Decidable e.FiniteCash :=
  List.decidableBAll _ _

theorem FiniteCash.balanceOf {e : MatchingEngine Double} (finite : e.FiniteCash) (c : ClientId) :
    (e.balanceOf c).IsFinite := by
  rw [MatchingEngine.balanceOf, portfolioSnapshot]
  cases look : e.portfolios.lookup c with
  | none => exact Double.IsFinite.zero
  | some p => exact finite _ (Table.mem_entries_iff.mpr look)

/-- In a solvent engine no client has a debt, known to the engine or not. -/
theorem Solvent.accountOf_nonneg {e : MatchingEngine Double} (solvent : e.Solvent) (c : ClientId) :
    0 ≤ (e.accountOf c).1 ∧ ∀ s, 0 ≤ (e.accountOf c).2 s := by
  rw [accountOf, MatchingEngine.balanceOf, portfolioSnapshot]
  cases look : e.portfolios.lookup c with
  | none => exact ⟨le_rfl, fun _ => le_rfl⟩
  | some p =>
      obtain ⟨cash, holdings⟩ := solvent _ (Table.mem_entries_iff.mpr look)
      refine ⟨Double.value_nonneg cash, fun s => ?_⟩
      change 0 ≤ p.holding s
      unfold Portfolio.holding
      cases held : p.holdings.lookup s with
      | none => exact le_rfl
      | some n => exact holdings _ (Table.mem_entries_iff.mpr held)

end MatchingEngine

/-- What the first shares on offer in a book cost, best price first. -/
def OrderBook.costOfAsks (b : OrderBook Double) (quantity : ℤ) : ℚ :=
  ((Greedy.take entryQuantity quantity (entries b.asks)).map fun f =>
    f.1.1.value * (f.2 : ℚ)).sum

namespace MatchingEngine

/-- What a BUY costs at most: for a MARKET order what it takes from the book now. -/
def outlay (e : MatchingEngine Double) (o : Order Double) : ℚ :=
  if o.kind = .market then (e.bookFor o.symbol).costOfAsks o.quantity
  else o.price.value * (o.quantity : ℚ)

/-- The order is backed by what its client has free of other open orders. -/
def Backed (e : MatchingEngine Double) (pending : List (Order Double)) (o : Order Double) : Prop :=
  (o.side = .buy → e.outlay o ≤ e.freeCash pending o.client) ∧
    (o.side = .sell → o.quantity ≤ e.freeShares pending o.client o.symbol)

instance (e : MatchingEngine Double) (pending : List (Order Double)) (o : Order Double) :
    Decidable (e.Backed pending o) :=
  inferInstanceAs (Decidable (_ ∧ _))

end MatchingEngine

/-- A BUY at whatever price it meets. -/
def Order.isMarketBuy (o : Order Double) : Prop :=
  o.side = .buy ∧ o.kind = .market

instance (o : Order Double) : Decidable o.isMarketBuy :=
  inferInstanceAs (Decidable (_ ∧ _))

/-- The settlements of some trades are exact, for the two clients of each. -/
def SettlesExactly : List (Trade Double) → MatchingEngine Double → Prop
  | [], _ => True
  | t :: ts, e => (t.ExactFor t.buyer (e.balanceOf t.buyer) ∧
      t.ExactFor t.seller (e.balanceOf t.seller)) ∧ SettlesExactly ts (settleTrade e t)

instance decidableSettlesExactly : ∀ (ts : List (Trade Double)) (e : MatchingEngine Double),
    Decidable (SettlesExactly ts e)
  | [], _ => .isTrue trivial
  | t :: ts, e =>
    have := decidableSettlesExactly ts (settleTrade e t)
    inferInstanceAs (Decidable (_ ∧ _))

/-! ### The account of a match -/

/-- What one fill of an incoming order changes for a client. -/
def fillChange (o : Order Double) (c : ClientId) (f : (Double × Order Double) × ℤ) : Assets :=
  (tradeOf o.side o.symbol o f.1.2 f.2 f.1.1 0).changeFor c

/-- Only the portfolios matter. -/
theorem SettlesExactly.congr : ∀ {ts : List (Trade Double)} {e e' : MatchingEngine Double},
    SettlesExactly ts e → e'.portfolios = e.portfolios → SettlesExactly ts e'
  | [], _, _, _, _ => trivial
  | t :: ts, e, e', exact, portfolios => by
      have balances : ∀ d, e'.balanceOf d = e.balanceOf d := fun d => by
        rw [balanceOf, balanceOf, portfolioSnapshot, portfolioSnapshot, portfolios]
      obtain ⟨both, rest⟩ := exact
      refine ⟨by rw [balances, balances]; exact both, rest.congr ?_⟩
      change (settle t e').portfolios = (settle t e).portfolios
      unfold settle
      rw [portfolios]

/-- Exact settlements keep balances finite and change every client by the trades' amounts. -/
theorem SettlesExactly.account : ∀ {ts : List (Trade Double)} {e : MatchingEngine Double},
    (∀ c, (e.balanceOf c).IsFinite) → SettlesExactly ts e → ∀ c,
      ((settleAll ts e).balanceOf c).IsFinite ∧ (settleAll ts e).accountOf c
        = e.accountOf c + (ts.map fun t : Trade Double => t.changeFor c).sum
  | [], _, fin, _, c => ⟨fin c, (add_zero _).symm⟩
  | t :: ts, e, fin, exact, c => by
      obtain ⟨⟨buyer, seller⟩, rest⟩ := exact
      have first : ∀ d, ((settleTrade e t).balanceOf d).IsFinite ∧
          (settleTrade e t).accountOf d = e.accountOf d + t.changeFor d := by
        intro d
        have one : (settleTrade e t).balanceOf d = t.settleCash d (e.balanceOf d) :=
          balanceOf_settle t e d
        have shares : ∀ s, ((settleTrade e t).portfolioSnapshot d).holding s
          = (e.portfolioSnapshot d).holding s + (t.changeFor d).2 s := holding_settle t e d
        have cash : ((settleTrade e t).balanceOf d).IsFinite ∧
            ((settleTrade e t).balanceOf d).value
              = (e.balanceOf d).value + (t.changeFor d).1 := by
          rw [one]
          by_cases buys : d = t.buyer
          · exact buys ▸ buyer.settleCash_eq
          · by_cases sells : d = t.seller
            · exact sells ▸ seller.settleCash_eq
            · rw [Trade.settleCash_of_ne buys sells, Trade.fst_changeFor, if_neg buys,
                if_neg sells, sub_zero, add_zero]
              exact ⟨fin d, rfl⟩
        exact ⟨cash.1, Prod.ext cash.2 (funext shares)⟩
      obtain ⟨fin', account⟩ := SettlesExactly.account (fun d => (first d).1) rest c
      refine ⟨fin', ?_⟩
      rw [settleAll_cons, account, (first c).2, List.map_cons, List.sum_cons, add_assoc]

namespace EngineInvariant

variable {e : MatchingEngine Double} {pending : List (Order Double)} {o : Order Double}

/-- The account after a match that settles exactly. -/
theorem accountOf_matched (inv : EngineInvariant e (o :: pending)) (clock : Nat → Int)
    (fin : ∀ c, (e.balanceOf c).IsFinite) (exact : SettlesExactly (matchBook clock o e).1 e)
    (c : ClientId) : ((MatchingEngine.matched clock o e).balanceOf c).IsFinite ∧
      (MatchingEngine.matched clock o e).accountOf c
        = e.accountOf c + ((e.fillFor o).map (fillChange o c)).sum := by
  have untimed : ∀ (f : (Double × Order Double) × ℤ) now,
      (tradeOf o.side o.symbol o f.1.2 f.2 f.1.1 now).changeFor c = fillChange o c f := by
    intro f now
    unfold fillChange
    cases o.side <;> rfl
  have settled : SettlesExactly (matchBook clock o e).1 (matchBook clock o e).2 := exact.congr rfl
  obtain ⟨fin', account⟩ := SettlesExactly.account (e := (matchBook clock o e).2) fin settled c
  refine ⟨fin', account.trans ?_⟩
  rw [inv.matchBook_trades, map_fillTrades _ _ untimed]
  rfl

/-- **What a match leaves free.** If every fill brings at least what it takes off the
claims, up to `extra`, then so does the match. -/
theorem free_matched {R : Type} [CommRing R] [LinearOrder R] [IsStrictOrderedRing R]
    {u : Order Double → R} (same : ∀ o q, u (o.withQuantity q) = u o) (φ : Assets →+ R)
    (inv : EngineInvariant e (o :: pending)) (clock : Nat → Int)
    (fin : ∀ c, (e.balanceOf c).IsFinite) (exact : SettlesExactly (matchBook clock o e).1 e)
    (c : ClientId) (extra : (Double × Order Double) × ℤ → R)
    (each : ∀ f ∈ e.fillFor o,
      0 ≤ φ (fillChange o c f) + (u o + u f.1.2) * (f.2 : R) + extra f)
    (rest : 0 ≤ weigh u (e.lost clock o)) :
    φ (e.accountOf c) - weigh u (e.openOrders (o :: pending))
      ≤ φ ((MatchingEngine.matched clock o e).accountOf c)
        - weigh u ((MatchingEngine.matched clock o e).openOrders pending)
        + ((e.fillFor o).map extra).sum := by
  have account := inv.weigh_matched same clock
  have total : 0 ≤ ((e.fillFor o).map fun f =>
      φ (fillChange o c f) + (u o + u f.1.2) * (f.2 : R) + extra f).sum := by
    refine List.sum_nonneg fun r mem => ?_
    obtain ⟨f, hf, rfl⟩ := List.mem_map.mp mem
    exact each f hf
  have changes : φ ((e.fillFor o).map (fillChange o c)).sum
      = ((e.fillFor o).map fun f => φ (fillChange o c f)).sum := by
    rw [map_list_sum, List.map_map]
    rfl
  rw [List.sum_map_add, List.sum_map_add, ← changes] at total
  have fills : weighFill u o (e.fillFor o)
      = ((e.fillFor o).map fun f => (u o + u f.1.2) * (f.2 : R)).sum := rfl
  rw [(inv.accountOf_matched clock fin exact c).2, map_add, account, fills]
  linarith

end EngineInvariant

/-! ### Funded engines -/

/-- What a fill in a funded engine looks like. -/
structure FairFill (o : Order Double) (f : (Double × Order Double) × ℤ) : Prop where
  side : f.1.2.side = o.side.opposite
  symbol : f.1.2.symbol = o.symbol
  kind : f.1.2.kind ≠ .market
  price : f.1.2.price = f.1.1
  pricePos : f.1.1.IsPositive
  accepted : ¬refuses o.side o f.1.1
  amountPos : 0 < f.2

/-- Balances are finite, open orders are priced above zero, and those of no client lay claim to
more than the client has. -/
structure Funded (e : MatchingEngine Double) (pending : List (Order Double)) : Prop where
  inv : EngineInvariant e pending
  own : OwnPrices e
  prices : PricesAre Double.IsPositive e pending
  finite : ∀ c, (e.balanceOf c).IsFinite
  cash : ∀ c, 0 ≤ e.freeCash pending c
  shares : ∀ c s, 0 ≤ e.freeShares pending c s

theorem claimsCash_nonneg {c : ClientId} {o : Order Double}
    (priced : o.kind ≠ .market → o.price.IsPositive) : 0 ≤ claimsCash c o := by
  unfold claimsCash
  split
  · rename_i claims
    exact (priced claims.2.2).value_pos.le
  · exact le_rfl

theorem claimsShares_nonneg (c : ClientId) (s : Symbol) (o : Order Double) :
    0 ≤ claimsShares c s o := by
  unfold claimsShares
  split
  · exact Int.one_nonneg
  · exact le_rfl

theorem weigh_nonneg {R : Type} [CommRing R] [LinearOrder R] [IsStrictOrderedRing R]
    {u : Order Double → R} {os : List (Order Double)} (weights : ∀ o ∈ os, 0 ≤ u o)
    (quantities : ∀ o ∈ os, 0 ≤ o.quantity) : 0 ≤ weigh u os := by
  refine List.sum_nonneg fun r mem => ?_
  obtain ⟨o, ho, rfl⟩ := List.mem_map.mp mem
  exact mul_nonneg (weights o ho) (Int.cast_nonneg (quantities o ho))

namespace Funded

section

variable {e : MatchingEngine Double} {pending : List (Order Double)} {o : Order Double}

theorem claims_nonneg (fund : Funded e pending) {os : List (Order Double)}
    (sub : os ⊆ e.openOrders pending) (c : ClientId) :
    0 ≤ weigh (claimsCash c) os ∧ ∀ s, 0 ≤ weigh (claimsShares c s) os := by
  have quantities : ∀ o ∈ os, 0 ≤ o.quantity := fun o mem => (fund.inv.positive (sub mem)).le
  exact ⟨weigh_nonneg (fun o mem => claimsCash_nonneg (fund.prices.of_open (sub mem))) quantities,
    fun s => weigh_nonneg (fun o _ => claimsShares_nonneg c s o) quantities⟩

/-- In a funded engine no client has a debt. -/
theorem accountOf_nonneg (fund : Funded e pending) (c : ClientId) :
    0 ≤ (e.accountOf c).1 ∧ ∀ s, 0 ≤ (e.accountOf c).2 s := by
  obtain ⟨cashClaims, shareClaims⟩ := fund.claims_nonneg (List.Subset.refl _) c
  exact ⟨cashClaims.trans (sub_nonneg.mp (fund.cash c)),
    fun s => (shareClaims s).trans (sub_nonneg.mp (fund.shares c s))⟩

/-- A funded engine is solvent. -/
theorem solvent (fund : Funded e pending) : e.Solvent := by
  rintro ⟨c, p⟩ mem
  have look : e.portfolioSnapshot c = p := by
    rw [portfolioSnapshot, Table.mem_entries_iff.mp mem, Option.getD_some]
  obtain ⟨cash, shares⟩ := fund.accountOf_nonneg c
  have finite := fund.finite c
  rw [accountOf, balanceOf, look] at cash
  rw [balanceOf, look] at finite
  refine ⟨finite.nonneg cash, ?_⟩
  rintro ⟨s, n⟩ entry
  have held : p.holding s = n := by
    rw [Portfolio.holding, Table.mem_entries_iff.mp entry, Option.getD_some]
  have own := shares s
  rw [accountOf, look] at own
  exact held ▸ own

/-- A set-up engine that is solvent is funded. -/
theorem of_idle (idle : Idle e) (finite : e.FiniteCash) (start : e.Solvent) : Funded e [] where
  inv := idle.invariant
  own := .of_idle idle
  prices := .of_idle idle
  finite := finite.balanceOf
  cash := by
    intro c
    rw [freeCash, idle.openOrders, weigh_nil, sub_zero]
    exact (start.accountOf_nonneg c).1
  shares := by
    intro c s
    rw [freeShares, idle.openOrders, weigh_nil, sub_zero]
    exact (start.accountOf_nonneg c).2 s

/-- Open orders that change place, some of them going away. -/
theorem of_perm {e' : MatchingEngine Double} {pending' gone : List (Order Double)}
    (fund : Funded e pending)
    (split : (e.openOrders pending).Perm (gone ++ e'.openOrders pending'))
    (inv : EngineInvariant e' pending') (own : OwnPrices e')
    (prices : PricesAre Double.IsPositive e' pending')
    (portfolios : e'.portfolios = e.portfolios) : Funded e' pending' := by
  have left : gone ⊆ e.openOrders pending := fun o mem =>
    split.mem_iff.mpr (List.mem_append_left _ mem)
  have balances : ∀ c, e'.balanceOf c = e.balanceOf c := by
    intro c
    rw [balanceOf, portfolioSnapshot, portfolios]
    rfl
  have accounts : ∀ c, e'.accountOf c = e.accountOf c := by
    intro c
    rw [accountOf, balances, portfolioSnapshot, portfolios]
    rfl
  refine ⟨inv, own, prices, fun c => balances c ▸ fund.finite c, fun c => ?_, fun c s => ?_⟩
  · have cash := fund.cash c
    have claims := (fund.claims_nonneg left c).1
    rw [freeCash, weigh_perm split, weigh_append] at cash
    rw [freeCash, accounts]
    linarith
  · have shares := fund.shares c s
    have claims := (fund.claims_nonneg left c).2 s
    rw [freeShares, weigh_perm split, weigh_append] at shares
    rw [freeShares, accounts]
    omega

theorem fairFill (fund : Funded e (o :: pending)) : ∀ f ∈ e.fillFor o, FairFill o f := by
  intro f mem
  obtain ⟨l, hl, price, hr, accepted, pos⟩ := fund.inv.mem_fillFor mem
  have resting := mem_restingIn.mpr ⟨l, hl, hr⟩
  obtain ⟨side, symbol, kind⟩ := (fund.inv.book o.symbol).own _ f.1.2 resting
  have atPrice : f.1.2.price = f.1.1 := (fund.own o.symbol _ l hl _ hr).trans price
  have positive := fund.prices.levels _ _ l hl
  rw [price] at accepted positive
  exact ⟨side, symbol, kind, atPrice, positive, accepted, pos⟩

end

/-! ### Matching keeps an engine funded -/

section

variable {e : MatchingEngine Double} {pending : List (Order Double)} {o : Order Double}

/-- The cash that a client pays for a fill at an unknown price. -/
def surprise (o : Order Double) (c : ClientId) (f : (Double × Order Double) × ℤ) : ℚ :=
  if o.isMarketBuy ∧ o.client = c then f.1.1.value * (f.2 : ℚ) else 0

/-- A fill takes no more cash from a client than its orders lay claim to. -/
theorem fill_cash {f : (Double × Order Double) × ℤ} (fair : FairFill o f)
    (priced : o.kind ≠ .market → o.price.IsPositive) (c : ClientId) :
    0 ≤ (fillChange o c f).1 + (claimsCash c o + claimsCash c f.1.2) * (f.2 : ℚ)
      + surprise o c f := by
  have amount : (0 : ℚ) < f.2 := Int.cast_pos.mpr fair.amountPos
  have worth : 0 < f.1.1.value * (f.2 : ℚ) := mul_pos fair.pricePos.value_pos amount
  have earned : ∀ d : ClientId, 0 ≤ if c = d then f.1.1.value * (f.2 : ℚ) else 0 := by
    intro d
    split
    · exact worth.le
    · exact le_rfl
  rw [fillChange, Trade.fst_changeFor]
  cases side : o.side with
  | sell =>
      -- the resting BUY pays its own price, which it lays claim to
      have buys : f.1.2.side = .buy := fair.side.trans (by rw [side]; rfl)
      have mine : claimsCash c o = 0 := by simp [claimsCash, side]
      have theirs : claimsCash c f.1.2 * (f.2 : ℚ)
          = if c = f.1.2.client then f.1.1.value * (f.2 : ℚ) else 0 := by
        simp [claimsCash, buys, fair.kind, fair.price, eq_comm]
      have known : surprise o c f = 0 := by simp [surprise, Order.isMarketBuy, side]
      have seller := earned o.client
      rw [add_mul, mine, theirs, known]
      change 0 ≤ (if c = o.client then f.1.1.value * (f.2 : ℚ) else 0)
        - (if c = f.1.2.client then f.1.1.value * (f.2 : ℚ) else 0) + _ + 0
      linarith
  | buy =>
      have sells : f.1.2.side = .sell := fair.side.trans (by rw [side]; rfl)
      have theirs : claimsCash c f.1.2 = 0 := by simp [claimsCash, sells]
      have seller := earned f.1.2.client
      have paid : (if c = o.client then f.1.1.value * (f.2 : ℚ) else 0)
          ≤ claimsCash c o * (f.2 : ℚ) + surprise o c f := by
        by_cases mine : c = o.client
        · subst mine
          by_cases market : o.kind = .market
          · simp [claimsCash, surprise, Order.isMarketBuy, side, market]
          · have within : f.1.1.value ≤ o.price.value := by
              by_contra above
              refine fair.accepted ⟨market, ?_⟩
              rw [side, (priced market).1.eq_value, fair.pricePos.1.eq_value]
              exact Double.lt_iff.mpr (not_le.mp above)
            have covered := mul_le_mul_of_nonneg_right within amount.le
            simpa [claimsCash, surprise, Order.isMarketBuy, side, market] using covered
        · simp [claimsCash, surprise, mine, Ne.symm mine]
      rw [theirs, add_zero]
      change 0 ≤ (if c = f.1.2.client then f.1.1.value * (f.2 : ℚ) else 0)
        - (if c = o.client then f.1.1.value * (f.2 : ℚ) else 0) + _ + _
      linarith

/-- A fill takes no more shares from a client than its orders lay claim to. -/
theorem fill_shares {f : (Double × Order Double) × ℤ} (fair : FairFill o f) (c : ClientId)
    (s : Symbol) :
    0 ≤ (fillChange o c f).2 s + (claimsShares c s o + claimsShares c s f.1.2) * f.2 := by
  have amount := fair.amountPos
  rw [fillChange, Trade.snd_changeFor]
  have got : ∀ d : ClientId, 0 ≤ if c = d ∧ s = o.symbol then f.2 else 0 := by
    intro d
    split
    · exact amount.le
    · exact le_rfl
  have given : ∀ r : Order Double, r.side = .sell → r.symbol = o.symbol →
      claimsShares c s r * f.2 = if c = r.client ∧ s = o.symbol then f.2 else 0 := by
    intro r sells here
    simp [claimsShares, sells, here, eq_comm]
  have none : ∀ r : Order Double, r.side = .buy → claimsShares c s r = 0 := by
    intro r buys
    simp [claimsShares, buys]
  cases side : o.side with
  | sell =>
      have buys : f.1.2.side = .buy := fair.side.trans (by rw [side]; rfl)
      have buyer := got f.1.2.client
      rw [none _ buys, add_zero, given o side rfl]
      change 0 ≤ (if c = f.1.2.client ∧ s = o.symbol then f.2 else 0)
        - (if c = o.client ∧ s = o.symbol then f.2 else 0) + _
      omega
  | buy =>
      have sells : f.1.2.side = .sell := fair.side.trans (by rw [side]; rfl)
      have buyer := got o.client
      rw [none o side, zero_add, given _ sells fair.symbol]
      change 0 ≤ (if c = o.client ∧ s = o.symbol then f.2 else 0)
        - (if c = f.1.2.client ∧ s = o.symbol then f.2 else 0) + _
      omega

/-- What a MARKET BUY takes from the book costs as much as the first shares on offer. -/
theorem sum_surprise (o : Order Double) (e : MatchingEngine Double) (c : ClientId) :
    ((e.fillFor o).map (surprise o c)).sum
      = if o.isMarketBuy ∧ o.client = c then e.outlay o else 0 := by
  by_cases mine : o.isMarketBuy ∧ o.client = c
  · obtain ⟨⟨buys, market⟩, rfl⟩ := mine
    have all : acceptedLevels .buy o (e.bookFor o.symbol).asks = (e.bookFor o.symbol).asks := by
      refine List.takeWhile_eq_self_iff.mpr fun l _ => decide_eq_true fun refused => ?_
      exact refused.1 market
    have fills : e.fillFor o
        = Greedy.take entryQuantity o.quantity (entries (e.bookFor o.symbol).asks) := by
      unfold fillFor fillOf
      rw [buys]
      change Greedy.take _ _ (entries (acceptedLevels .buy o (e.bookFor o.symbol).asks)) = _
      rw [all]
    rw [if_pos ⟨⟨buys, market⟩, rfl⟩, outlay, if_pos market, OrderBook.costOfAsks, fills]
    refine congrArg List.sum (List.map_congr_left fun f _ => ?_)
    exact if_pos ⟨⟨buys, market⟩, rfl⟩
  · rw [if_neg mine]
    refine List.sum_eq_zero fun x mem => ?_
    obtain ⟨f, -, rfl⟩ := List.mem_map.mp mem
    exact if_neg mine

theorem freeCash_cons (e : MatchingEngine Double) (pending : List (Order Double)) (o : Order Double)
    (c : ClientId) :
    e.freeCash (o :: pending) c = e.freeCash pending c - claimsCash c o * (o.quantity : ℚ) := by
  have opened : e.openOrders (o :: pending) = o :: e.openOrders pending := rfl
  rw [freeCash, freeCash, opened, weigh_cons]
  ring

theorem freeShares_cons (e : MatchingEngine Double) (pending : List (Order Double))
    (o : Order Double)
    (c : ClientId) (s : Symbol) :
    e.freeShares (o :: pending) c s
    = e.freeShares pending c s - claimsShares c s o * o.quantity := by
  have opened : e.openOrders (o :: pending) = o :: e.openOrders pending := rfl
  rw [freeShares, freeShares, opened, weigh_cons]
  simp only [Int.cast_id]
  ring

/-- **A match keeps the engine funded**, if it settles exactly and a MARKET BUY is backed when
it is matched. -/
theorem matched (fund : Funded e (o :: pending)) (clock : Nat → Int)
    (exact : SettlesExactly (matchBook clock o e).1 e)
    (backed : o.isMarketBuy → e.Backed pending o) :
    Funded (MatchingEngine.matched clock o e) pending := by
  have pos := (fund.inv.arriving o List.mem_cons_self).1
  have left := (fund.inv.book o.symbol).unfilled_nonneg clock pos
  have priced := fund.prices.arriving o List.mem_cons_self
  have lost : ∀ r ∈ e.lost clock o, r.kind = .market ∧ 0 ≤ r.quantity := by
    intro r mem
    unfold MatchingEngine.lost at mem
    split at mem
    · rename_i market
      rw [List.mem_singleton.mp mem]
      exact ⟨market, left⟩
    · cases mem
  have lostQuantity : ∀ r ∈ e.lost clock o, 0 ≤ r.quantity := fun r mem => (lost r mem).2
  refine ⟨fund.inv.matched clock, fund.own.matched comparable_isPositive fund.prices clock,
    fund.prices.matched clock, fun c => (fund.inv.accountOf_matched clock fund.finite exact c).1,
    fun c => ?_, fun c s => ?_⟩
  · have account := fund.inv.free_matched (u := claimsCash c) (fun _ _ => rfl)
      (AddMonoidHom.fst ℚ (Symbol → ℤ)) clock fund.finite exact c (surprise o c)
      (fun f mem => fill_cash (fund.fairFill f mem) priced c)
      (weigh_nonneg (fun r mem => claimsCash_nonneg fun h => absurd (lost r mem).1 h) lostQuantity)
    have free : e.freeCash (o :: pending) c ≤ (MatchingEngine.matched clock o e).freeCash pending c
        + if o.isMarketBuy ∧ o.client = c then e.outlay o else 0 := by
      rw [← sum_surprise]
      exact account
    have enough := fund.cash c
    by_cases mine : o.isMarketBuy ∧ o.client = c
    · obtain ⟨market, rfl⟩ := mine
      have covered := (backed market).1 market.1
      have unclaimed : claimsCash o.client o = 0 := if_neg fun h => h.2.2 market.2
      rw [freeCash_cons, unclaimed, zero_mul, sub_zero, if_pos ⟨market, rfl⟩] at free
      linarith
    · rw [if_neg mine, add_zero] at free
      exact enough.trans free
  · have account := fund.inv.free_matched (u := claimsShares c s) (fun _ _ => rfl)
      ((Pi.evalAddMonoidHom (fun _ => ℤ) s).comp (AddMonoidHom.snd ℚ (Symbol → ℤ))) clock
      fund.finite exact c (fun _ => 0)
      (fun f mem => by simpa using fill_shares (fund.fairFill f mem) c s)
      (weigh_nonneg (fun r _ => claimsShares_nonneg c s r) lostQuantity)
    have none : ((e.fillFor o).map fun _ => (0 : ℤ)).sum = 0 := by simp
    rw [none, add_zero] at account
    exact (fund.shares c s).trans account

/-- An order that is backed, or a MARKET BUY, is on its way. -/
theorem arrive (fund : Funded e []) (inv : EngineInvariant e.withId [o])
    (priced : o.kind ≠ .market → o.price.IsPositive) (backed : ¬o.isMarketBuy → e.Backed [] o) :
    Funded e.withId [o] := by
  refine ⟨inv, fund.own, fund.prices.arrive priced, fund.finite, fun c => ?_, fun c s => ?_⟩
  · rw [freeCash_cons]
    have enough := fund.cash c
    unfold claimsCash
    split
    · rename_i claims
      obtain ⟨rfl, buys, kind⟩ := claims
      have covered := (backed fun h => kind h.2).1 buys
      rw [outlay, if_neg kind] at covered
      exact sub_nonneg.mpr covered
    · rw [zero_mul, sub_zero]
      exact enough
  · rw [freeShares_cons]
    have enough := fund.shares c s
    unfold claimsShares
    split
    · rename_i claims
      obtain ⟨rfl, sells, rfl⟩ := claims
      have covered := (backed fun h => absurd (sells.symm.trans h.1) (by simp)).2 sells
      rw [one_mul]
      exact sub_nonneg.mpr covered
    · rw [zero_mul, sub_zero]
      exact enough

end

end Funded

/-! ### Whole runs -/

/-- Each match of a list settles exactly, and each MARKET BUY is backed when its turn comes. -/
def TurnsBacked (clock : Nat → Nat → Int) : Nat → List (Order Double) → MatchingEngine Double → Prop
  | _, [], _ => True
  | n, o :: orders, e =>
    ((o.isMarketBuy → e.Backed orders o) ∧ SettlesExactly (matchBook (clock n) o e).1 e) ∧
      TurnsBacked clock (n + 1) orders (matched (clock n) o e)

instance decidableTurnsBacked (clock : Nat → Nat → Int) : ∀ (n : Nat)
    (orders : List (Order Double)) (e : MatchingEngine Double),
    Decidable (TurnsBacked clock n orders e)
  | _, [], _ => .isTrue trivial
  | n, o :: orders, e =>
    have := decidableTurnsBacked clock (n + 1) orders (matched (clock n) o e)
    inferInstanceAs (Decidable (_ ∧ _))

/-- An admitted order has a finite price, it is backed when it is submitted, except that a
MARKET BUY which has to wait must be backed when it is matched, and if it is matched at once,
that settles exactly. -/
def AdmissionBacked (e : MatchingEngine Double) (now : Int) (clock : Nat → Int)
    (order : Order Double) : Prop :=
  (order.kind ≠ .market → order.price.IsFinite) ∧
    ((order.isMarketBuy → e.Ready now order) → e.Backed [] order) ∧
      (e.Ready now order → SettlesExactly (matchBook clock order e).1 e)

instance (e : MatchingEngine Double) (now : Int) (clock : Nat → Int) (order : Order Double) :
    Decidable (AdmissionBacked e now clock order) :=
  inferInstanceAs (Decidable (_ ∧ _))

/-- The orders of a call are backed and what it settles is exact. -/
def StepBacked (e : MatchingEngine Double) : EngineCall Double → Prop
  | .submitOrder now clock request =>
    e.Admits request → AdmissionBacked e now clock (buildOrder request e.nextOrderId now)
  | .tryReleaseWaitingOrders order now clock fullScan =>
    TurnsBacked clock 0 (e.releaseScan order now fullScan).2.released (e.scanned order now fullScan)
  | _ => True

instance (e : MatchingEngine Double) : ∀ call, Decidable (StepBacked e call)
  | .submitOrder now clock request =>
    inferInstanceAs (Decidable (e.Admits request → AdmissionBacked e now clock _))
  | .tryReleaseWaitingOrders _ _ _ _ => decidableTurnsBacked _ _ _ _
  | .cancelOrderAt _ _ _ _ => .isTrue trivial
  | .cancelOrder _ _ => .isTrue trivial
  | .cancelWaitingOrder _ => .isTrue trivial

/-- Every step of a run is backed. -/
def RunBacked : MatchingEngine Double → List (EngineCall Double) → Prop
  | _, [] => True
  | e, call :: calls => StepBacked e call ∧ RunBacked (e.apply call) calls

instance decidableRunBacked : ∀ (e : MatchingEngine Double) (calls : List (EngineCall Double)),
    Decidable (RunBacked e calls)
  | _, [] => .isTrue trivial
  | e, call :: calls =>
    have := decidableRunBacked (e.apply call) calls
    inferInstanceAs (Decidable (_ ∧ _))

namespace Funded

variable {e : MatchingEngine Double}

theorem matchedAll (clock : Nat → Nat → Int) : ∀ (n : Nat) (orders : List (Order Double))
    {e : MatchingEngine Double}, Funded e orders → TurnsBacked clock n orders e →
      Funded (matchedAll clock n orders e) []
  | _, [], _, fund, _ => fund
  | n, _ :: orders, _, fund, backed =>
      matchedAll clock (n + 1) orders (fund.matched (clock n) backed.1.2 backed.1.1) backed.2

theorem portfolios_cancelledIn (s : Symbol) (f : OrderBook Double → Bool × OrderBook Double)
    (e : MatchingEngine Double) : (e.cancelledIn s f).2.portfolios = e.portfolios := by
  unfold cancelledIn
  split <;> rfl

/-- **A backed call keeps the engine funded.** -/
theorem effect (fund : Funded e []) {call : EngineCall Double} (backed : StepBacked e call) :
    Funded (call.effect e) [] := by
  cases call with
  | submitOrder now clock request =>
      rw [EngineCall.effect]
      have priced : e.Admits request → (buildOrder request e.nextOrderId now).kind ≠ .market →
          (buildOrder request e.nextOrderId now).price.IsPositive := fun admits kind =>
        ((backed admits).1 kind).positive_of_not_le
          ((EngineInvariant.valid_of_admits admits).2.1 kind)
      rcases submitted_cases now clock request e with ⟨admits, ready, eq⟩ | ⟨admits, waits, eq⟩ |
        ⟨-, eq⟩
      · rw [eq]
        obtain ⟨-, cover, exact⟩ := backed admits
        have covered := cover fun _ => ready
        have arrives := fund.arrive (fund.inv.admitted now admits) (priced admits) fun _ => covered
        exact arrives.matched clock ((exact ready).congr rfl) fun _ => covered
      · rw [eq]
        obtain ⟨-, cover, -⟩ := backed admits
        have arrives := fund.arrive (fund.inv.admitted now admits) (priced admits)
          fun known => cover fun market => absurd market known
        have queued := arrives.inv.waitingOrders_enqueue
        exact arrives.of_perm arrives.inv.openOrders_enqueue.symm arrives.inv.enqueue fund.own
          (arrives.prices.mono rfl fun r mem => queued.mem_iff.mp mem) rfl
      · rw [eq]
        exact fund.of_perm (List.Perm.refl _) fund.inv.skip fund.own
          (fund.prices.mono rfl fun r mem => mem) rfl
  | tryReleaseWaitingOrders order now clock fullScan =>
      have moved := fund.of_perm
        ((fund.inv.openOrders_scanned order now fullScan).trans List.perm_append_comm)
        (fund.inv.scanned order now fullScan) fund.own
        (fund.prices.scanned fund.inv order now fullScan) rfl
      exact matchedAll clock 0 _ moved backed
  | cancelOrderAt symbol side price orderId =>
      obtain ⟨inv, split⟩ := fund.inv.cancelOrderAt symbol side price orderId
      have one := cancelAtPrice_one (e.bookFor symbol) side price orderId
      exact fund.of_perm split inv (fund.own.cancelledIn one) (fund.prices.cancelledIn one)
        (portfolios_cancelledIn _ _ _)
  | cancelOrder symbol orderId =>
      obtain ⟨inv, split⟩ := fund.inv.cancelOrder symbol orderId
      have one := cancel_one (fund.inv.book symbol) orderId
      exact fund.of_perm split inv (fund.own.cancelledIn one) (fund.prices.cancelledIn one)
        (portfolios_cancelledIn _ _ _)
  | cancelWaitingOrder orderId =>
      obtain ⟨inv, split⟩ := fund.inv.cancelledWaiting orderId
      exact fund.of_perm split inv fund.own
        (fund.prices.mono rfl fun _ mem => fund.inv.registry.cancel_subset orderId mem) rfl

/-- Counters and published events do not matter. -/
theorem of_core {e' : MatchingEngine Double} (fund : Funded e []) (same : e'.core = e.core) :
    Funded e' [] := by
  have fund' : Funded e.core [] := ⟨fund.inv.of_core rfl, fund.own, fund.prices.of_core rfl,
    fund.finite, fund.cash, fund.shares⟩
  rw [← same] at fund'
  exact ⟨fund'.inv.of_core rfl, fund'.own, fund'.prices.of_core rfl, fund'.finite, fund'.cash,
    fund'.shares⟩

/-- **Every backed run keeps the engine funded.** -/
theorem run : ∀ (calls : List (EngineCall Double)) {e : MatchingEngine Double}, Funded e [] →
    RunBacked e calls → Funded (e.run calls) []
  | [], _, fund, _ => fund
  | call :: calls, e, fund, backed =>
      run calls ((fund.effect backed.1).of_core (core_apply e call)) backed.2

end Funded

/-- A part of a backed run is backed. -/
theorem RunBacked.take : ∀ {calls : List (EngineCall Double)} {e : MatchingEngine Double} (n : Nat),
    RunBacked e calls → RunBacked e (calls.take n)
  | _, _, 0, _ => trivial
  | [], _, _ + 1, _ => trivial
  | _ :: _, _, n + 1, backed => ⟨backed.1, backed.2.take n⟩

/-! ### All shares together -/

namespace MatchingEngine

/-- The shares of a symbol that all portfolios hold together. -/
def totalShares (e : MatchingEngine Double) (s : Symbol) : ℤ :=
  Table.sumBy (fun p : Portfolio Double => p.holding s) e.portfolios

theorem totalShares_eq (e : MatchingEngine Double) (s : Symbol) : e.totalShares s
    = ((e.portfolios.entries.map fun entry => entry.2.holdings.entries).map fun held =>
        (held.dlookup s).getD 0).sum := by
  rw [List.map_map]
  rfl

theorem totalShares_settle (t : Trade Double) (e : MatchingEngine Double) (s : Symbol) :
    (settle t e).totalShares s = e.totalShares s := by
  have none : (default : Portfolio Double).holding s = 0 := rfl
  have bought := fun p => holding_debit t.symbol ((t.quantity : Double) * t.price) t.quantity p s
  have sold := fun p => holding_credit t.symbol ((t.quantity : Double) * t.price) t.quantity p s
  have both := fun portfolios => Table.sumBy_update_add (fun p : Portfolio Double => p.holding s)
    t.seller none sold portfolios
  have first := fun portfolios => Table.sumBy_update_add (fun p : Portfolio Double => p.holding s)
    t.buyer none bought portfolios
  refine (both _).trans ?_
  rw [first, add_assoc, add_neg_cancel, add_zero]
  rfl

theorem totalShares_settleAll (s : Symbol) : ∀ (ts : List (Trade Double))
    (e : MatchingEngine Double), (settleAll ts e).totalShares s = e.totalShares s
  | [], _ => rfl
  | t :: ts, e => by
      have first : (settleTrade e t).totalShares s = e.totalShares s := totalShares_settle t e s
      rw [settleAll_cons, totalShares_settleAll s ts, first]

theorem totalShares_matched (clock : Nat → Int) (o : Order Double) (e : MatchingEngine Double)
    (s : Symbol) : (matched clock o e).totalShares s = e.totalShares s :=
  totalShares_settleAll s _ _

theorem totalShares_matchedAll (clock : Nat → Nat → Int) (s : Symbol) : ∀ (n : Nat)
    (orders : List (Order Double)) (e : MatchingEngine Double),
    (matchedAll clock n orders e).totalShares s = e.totalShares s
  | _, [], _ => rfl
  | n, o :: orders, e => by
      rw [matchedAll, totalShares_matchedAll clock s (n + 1) orders, totalShares_matched]

/-- **No call creates shares.** -/
theorem totalShares_apply (e : MatchingEngine Double) (call : EngineCall Double) (s : Symbol) :
    (e.apply call).totalShares s = e.totalShares s := by
  have core : ∀ e : MatchingEngine Double, e.core.totalShares s = e.totalShares s := fun _ => rfl
  rw [← core, core_apply, core]
  cases call with
  | submitOrder now clock request =>
      rw [EngineCall.effect]
      rcases submitted_cases now clock request e with ⟨-, -, eq⟩ | ⟨-, -, eq⟩ | ⟨-, eq⟩ <;> rw [eq]
      · exact totalShares_matched clock _ _ s
      · rfl
      · rfl
  | tryReleaseWaitingOrders order now clock fullScan => exact totalShares_matchedAll clock s 0 _ _
  | cancelOrderAt symbol side price orderId =>
      exact congrArg (Table.sumBy _) (Funded.portfolios_cancelledIn symbol _ e)
  | cancelOrder symbol orderId =>
      exact congrArg (Table.sumBy _) (Funded.portfolios_cancelledIn symbol _ e)
  | cancelWaitingOrder orderId => rfl

theorem totalShares_run (s : Symbol) : ∀ (calls : List (EngineCall Double))
    (e : MatchingEngine Double), (e.run calls).totalShares s = e.totalShares s
  | [], _ => rfl
  | call :: calls, e => (totalShares_run s calls (e.apply call)).trans (totalShares_apply e call s)

/-- A client of a solvent engine holds no more than all clients together. -/
theorem Solvent.le_totalShares {e : MatchingEngine Double} (solvent : e.Solvent)
    {entry : Sigma fun _ : ClientId => Portfolio Double} (mem : entry ∈ e.portfolios.entries)
    (s : Symbol) : entry.2.holding s ≤ e.totalShares s := by
  have nonneg : ∀ other ∈ e.portfolios.entries, 0 ≤ other.2.holding s := by
    intro other known
    unfold Portfolio.holding
    cases held : other.2.holdings.lookup s with
    | none => exact le_rfl
    | some n => exact (solvent other known).2 ⟨s, n⟩ (Table.mem_entries_iff.mpr held)
  refine List.single_le_sum (fun n hn => ?_) _
    (List.mem_map_of_mem (f := fun entry => entry.2.holding s) mem)
  obtain ⟨other, known, rfl⟩ := List.mem_map.mp hn
  exact nonneg other known

end MatchingEngine

/-- All shares of a symbol together fit into 64 bits. -/
def MatchingEngine.SharesFit (e : MatchingEngine Double) : Prop :=
  ∀ s, FitsInt64 (e.totalShares s)

/-- Every holding fits into 64 bits. -/
def MatchingEngine.HoldingsFit (e : MatchingEngine Double) : Prop :=
  ∀ entry ∈ e.portfolios.entries, ∀ holding ∈ entry.2.holdings.entries, FitsInt64 holding.2

/-- **Backed runs keep every portfolio solvent**, in every state that they reach. If all shares
together fit into 64 bits, so does every holding. -/
theorem solvent_of_backed (setup : List (SetupCall Double)) (calls : List (EngineCall Double))
    (finite : (setUp setup).FiniteCash) (start : (setUp setup).Solvent)
    (shares : (setUp setup).SharesFit) (backed : RunBacked (setUp setup) calls) (n : Nat) :
    ((setUp setup).run (calls.take n)).Solvent ∧
      ((setUp setup).run (calls.take n)).HoldingsFit := by
  have solvent := (Funded.run _ (.of_idle (idle_setUp setup) finite start) (backed.take n)).solvent
  refine ⟨solvent, fun entry mem holding held => ?_⟩
  have own : entry.2.holding holding.1 = holding.2 := by
    rw [Portfolio.holding, Table.mem_entries_iff.mp held, Option.getD_some]
  have most := solvent.le_totalShares mem holding.1
  rw [totalShares_run, own] at most
  have least := (solvent entry mem).2 holding held
  exact ⟨by omega, most.trans_lt (shares holding.1).2⟩

/-- A client with cash and one with shares. -/
def cashAndShares (cash : Double) (shares : Int) : List (SetupCall Double) :=
  [.registerSymbol "AAPL" 1.0, .ensureClient 1 cash, .ensureClient 2 0,
    .grantInitialHoldings 2 "AAPL" shares]

/-- The seller and the buyer each submit an order that they can back. -/
def backedCalls : List (EngineCall Double) :=
  [.submitOrder 0 (fun _ => 0) (request 2 .sell .limit "AAPL" 6 100.5),
    .submitOrder 0 (fun _ => 0) (request 1 .buy .market "AAPL" 5 0)]

theorem solvent_of_backed_crossing : RunBacked (setUp (cashAndShares 1000.0 10)) backedCalls ∧
    ((setUp (cashAndShares 1000.0 10)).run (backedCalls.take 2)).emitted.length = 1 ∧
    ((setUp (cashAndShares 1000.0 10)).run (backedCalls.take 2)).Solvent := by
  have shares : (setUp (cashAndShares 1000.0 10)).SharesFit := by
    intro s
    have held : (setUp (cashAndShares 1000.0 10)).portfolios.entries.map
        (fun entry => entry.2.holdings.entries) = [[⟨"AAPL", 10⟩], []] := by decide +kernel
    rw [totalShares_eq, held]
    by_cases here : s = "AAPL"
    · rw [here]
      decide
    · simp [here, FitsInt64]
  exact ⟨by decide +kernel, by decide +kernel,
    (solvent_of_backed _ _ (by decide +kernel) (by decide +kernel) shares (by decide +kernel) 2).1⟩

/-- A client with ten shares sells them twice, and another client buys all of it. -/
def twoSells : List (EngineCall Double) :=
  [.submitOrder 0 (fun _ => 0) (request 2 .sell .limit "AAPL" 10 50.0),
    .submitOrder 0 (fun _ => 0) (request 2 .sell .limit "AAPL" 10 50.0),
    .submitOrder 0 (fun _ => 0) (request 1 .buy .limit "AAPL" 20 50.0)]

/-- The risk check passes all three orders, and the seller ends ten shares short. -/
theorem twoSells_insolvent : ¬∀ (setup : List (SetupCall Double))
    (calls : List (EngineCall Double)),
    (setUp setup).Solvent → ((setUp setup).run calls).Solvent := by
  intro claim
  have solvent := claim (cashAndShares 1000.0 10) twoSells (by decide +kernel)
  exact absurd solvent (by decide +kernel)

/-- Four shares that cost all of the cash, to the last unit: the settlements round, and the
balance ends below zero. -/
theorem fourFills_overdraw :
    let sell : EngineCall Double :=
      .submitOrder 0 (fun _ => 0) (request 2 .sell .limit "AAPL" 1 0.3)
    let e := (setUp (cashAndShares 1.2 4)).run [sell, sell, sell, sell]
    let order := buildOrder (request 1 .buy .limit "AAPL" 4 0.3) e.nextOrderId 0
    e.Backed [] order ∧ ¬(matched (fun _ => 0) order e).Solvent := by
  decide +kernel

end StockMarket
