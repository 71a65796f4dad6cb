import StockMarket.Book.Prices
import StockMarket.Double
import StockMarket.Engine.Sequential
import StockMarket.Engine.Settlement
import Mathlib.Tactic.Ring

/-!
Settlements that do not round.

`settle` computes in doubles, so what it leaves of a balance may differ in the last digit from
the exact sum. `Trade.ExactFor` says that for one client all numbers of a settlement are ones
that a double holds. Then the account changes by the trade's own amount, as it would with exact
cash (`Trade.ExactFor.settleCash_eq`, `accountOf_settleAll`).
-/

namespace StockMarket

open MatchingEngine

namespace Trade

/-- What the shares of a trade cost. -/
def amount (t : Trade Double) : ℚ :=
  t.price.value * (t.quantity : ℚ)

/-- What a trade changes for a client, with exact cash. -/
def changeFor (t : Trade Double) (client : ClientId) : Assets :=
  (t.withPrices Double.value).change client

/-- What a settlement makes of a client's cash. -/
def settleCash (t : Trade Double) (client : ClientId) (cash : Double) : Double :=
  let paid := if client = t.buyer then cash - (t.quantity : Double) * t.price else cash
  if client = t.seller then paid + (t.quantity : Double) * t.price else paid

/-- The cash after what the client pays, with exact cash. -/
def paidBy (t : Trade Double) (client : ClientId) (cash : ℚ) : ℚ :=
  if client = t.buyer then cash - t.amount else cash

/-- A double holds every number of the settlement, as far as the client is concerned. -/
structure ExactFor (t : Trade Double) (client : ClientId) (cash : Double) : Prop where
  balance : cash.IsFinite
  price : t.price.IsFinite
  quantity : Binary64.Exact (t.quantity : ℚ)
  amount : Binary64.Exact t.amount
  bought : client = t.buyer → Binary64.Exact (t.paidBy client cash.value)
  sold : client = t.seller → Binary64.Exact (t.paidBy client cash.value + t.amount)

instance (t : Trade Double) (client : ClientId) (cash : Double) :
    Decidable (t.ExactFor client cash) :=
  decidable_of_iff (cash.IsFinite ∧ t.price.IsFinite ∧ Binary64.Exact (t.quantity : ℚ) ∧
      Binary64.Exact t.amount ∧ (client = t.buyer → Binary64.Exact (t.paidBy client cash.value)) ∧
      (client = t.seller → Binary64.Exact (t.paidBy client cash.value + t.amount)))
    ⟨fun ⟨a, b, c, d, f, g⟩ => ⟨a, b, c, d, f, g⟩, fun ⟨a, b, c, d, f, g⟩ => ⟨a, b, c, d, f, g⟩⟩

variable {t : Trade Double} {client : ClientId} {cash : Double}

theorem fst_changeFor (t : Trade Double) (client : ClientId) : (t.changeFor client).1
    = (if client = t.seller then t.amount else 0) - (if client = t.buyer then t.amount else 0) := by
  have own : (t.withPrices Double.value).purchase.1 = -t.amount := by
    simp [Trade.purchase, sharesOf, cashOf, amount, Trade.withPrices, mul_comm]
  have parties : (t.withPrices Double.value).buyer = t.buyer ∧
    (t.withPrices Double.value).seller = t.seller := ⟨rfl, rfl⟩
  rw [changeFor, Trade.change, Prod.fst_sub, apply_ite Prod.fst, apply_ite Prod.fst, own,
    Prod.fst_zero, parties.1, parties.2]
  split <;> split <;> ring

theorem snd_changeFor (t : Trade Double) (client : ClientId) (s : Symbol) :
    (t.changeFor client).2 s = (if client = t.buyer ∧ s = t.symbol then t.quantity else 0)
      - (if client = t.seller ∧ s = t.symbol then t.quantity else 0) := by
  have own : (t.withPrices Double.value).purchase.2 s = if s = t.symbol then t.quantity else 0 := by
    simp [Trade.purchase, sharesOf, cashOf, Trade.withPrices, Pi.single_apply]
  have parties : (t.withPrices Double.value).buyer = t.buyer ∧
    (t.withPrices Double.value).seller = t.seller := ⟨rfl, rfl⟩
  rw [changeFor, Trade.change, Prod.snd_sub, Pi.sub_apply, apply_ite Prod.snd, apply_ite Prod.snd,
    ite_apply, ite_apply, own, Prod.snd_zero, Pi.zero_apply, ite_and, ite_and, parties.1, parties.2]

/-- The product that `settle` computes. -/
theorem ExactFor.notional (exact : t.ExactFor client cash) :
    (t.quantity : Double) * t.price = .finite t.amount := by
  rw [exact.price.eq_value, Double.intCast_eq, Double.ofRat_of_exact exact.quantity,
    Double.mul_finite, mul_comm]
  exact Double.ofRat_of_exact exact.amount

/-- **An exact settlement** changes the cash by the trade's amount. -/
theorem ExactFor.settleCash_eq (exact : t.ExactFor client cash) :
    (t.settleCash client cash).IsFinite ∧
      (t.settleCash client cash).value = cash.value + (t.changeFor client).1 := by
  have paid : (if client = t.buyer then cash - (t.quantity : Double) * t.price else cash)
      = .finite (t.paidBy client cash.value) := by
    rw [exact.notional, exact.balance.eq_value, paidBy]
    split
    · rename_i buys
      have held := exact.bought buys
      rw [paidBy, if_pos buys] at held
      rw [Double.sub_finite]
      exact Double.ofRat_of_exact held
    · rfl
  have range : ∀ q, Binary64.Exact q → (Double.finite q).IsFinite := fun q held =>
    Double.ofRat_of_exact held ▸ Double.isFinite_ofRat held.1
  rw [settleCash, paid, exact.notional, fst_changeFor]
  split
  · rename_i sells
    have held := exact.sold sells
    rw [Double.add_finite, Double.ofRat_of_exact held]
    refine ⟨range _ held, ?_⟩
    rw [paidBy]
    change (if _ then _ else _) + _ = _
    split <;> ring
  · refine ⟨?_, ?_⟩
    · by_cases buys : client = t.buyer
      · exact range _ (exact.bought buys)
      · rw [paidBy, if_neg buys, ← exact.balance.eq_value]
        exact exact.balance
    · rw [paidBy]
      change (if _ then _ else _) = _
      split <;> ring

theorem settleCash_of_ne (buyer : client ≠ t.buyer) (seller : client ≠ t.seller) :
    t.settleCash client cash = cash := by
  rw [settleCash, if_neg seller, if_neg buyer]

end Trade

/-! ### Accounts -/

namespace MatchingEngine

/-- The cash that a client has. -/
def balanceOf (e : MatchingEngine Double) (client : ClientId) : Double :=
  (e.portfolioSnapshot client).cash

/-- What a client owns. -/
def accountOf (e : MatchingEngine Double) (client : ClientId) : Assets :=
  ((e.balanceOf client).value, (e.portfolioSnapshot client).holding)

/-- A portfolio after `m[k] = f(m[k])`. -/
theorem getD_update (portfolios : Table ClientId (Portfolio Double)) (k c : ClientId)
    (f : Portfolio Double → Portfolio Double) :
    ((Table.update k default f portfolios).lookup c).getD default
      = if c = k then f ((portfolios.lookup c).getD default)
        else (portfolios.lookup c).getD default := by
  by_cases here : c = k
  · subst here
    rw [Table.lookup_update, Option.getD_some, if_pos rfl]
  · rw [Table.lookup_update_ne here, if_neg here]

theorem portfolioSnapshot_settle (t : Trade Double) (e : MatchingEngine Double) (c : ClientId) :
    (settle t e).portfolioSnapshot c =
      let amount := (t.quantity : Double) * t.price
      let paid := if c = t.buyer then debit t.symbol amount t.quantity (e.portfolioSnapshot c)
        else e.portfolioSnapshot c
      if c = t.seller then credit t.symbol amount t.quantity paid else paid := by
  unfold portfolioSnapshot settle
  simp only [getD_update]

theorem balanceOf_settle (t : Trade Double) (e : MatchingEngine Double) (c : ClientId) :
    (settle t e).balanceOf c = t.settleCash c (e.balanceOf c) := by
  rw [balanceOf, portfolioSnapshot_settle, Trade.settleCash]
  dsimp only
  split <;> split <;> rfl

theorem holding_debit (symbol : Symbol) (cash : Double) (quantity : Int) (p : Portfolio Double)
    (s : Symbol) : (debit symbol cash quantity p).holding s
      = p.holding s + if s = symbol then quantity else 0 := by
  have moved := congrFun (holding_update p (p.cash - cash) symbol (· + quantity) quantity
    fun _ => rfl) s
  rw [debit, moved, Pi.add_apply, Pi.single_apply]

theorem holding_credit (symbol : Symbol) (cash : Double) (quantity : Int) (p : Portfolio Double)
    (s : Symbol) : (credit symbol cash quantity p).holding s
      = p.holding s + -if s = symbol then quantity else 0 := by
  have moved := congrFun (holding_update p (p.cash + cash) symbol (· - quantity) (-quantity)
    fun n => sub_eq_add_neg n quantity) s
  rw [credit, moved, Pi.add_apply, Pi.single_apply]
  split <;> omega

theorem holding_settle (t : Trade Double) (e : MatchingEngine Double) (c : ClientId) (s : Symbol) :
    ((settle t e).portfolioSnapshot c).holding s
      = (e.portfolioSnapshot c).holding s + (t.changeFor c).2 s := by
  rw [portfolioSnapshot_settle, Trade.snd_changeFor, ite_and, ite_and]
  dsimp only
  by_cases buys : c = t.buyer <;> by_cases sells : c = t.seller
  · rw [if_pos sells, if_pos buys, if_pos buys, if_pos sells, holding_credit, holding_debit]
    omega
  · rw [if_neg sells, if_pos buys, if_pos buys, if_neg sells, holding_debit]
    omega
  · rw [if_pos sells, if_neg buys, if_neg buys, if_pos sells, holding_credit]
    omega
  · rw [if_neg sells, if_neg buys, if_neg buys, if_neg sells]
    omega

/-- Settling trades, one after the other. -/
theorem balanceOf_settleAll (c : ClientId) : ∀ (ts : List (Trade Double))
    (e : MatchingEngine Double), (settleAll ts e).balanceOf c
      = ts.foldl (fun cash t => t.settleCash c cash) (e.balanceOf c)
  | [], _ => rfl
  | t :: ts, e => by
      have first : (settleTrade e t).balanceOf c = t.settleCash c (e.balanceOf c) :=
        balanceOf_settle t e c
      rw [settleAll_cons, balanceOf_settleAll c ts, first, List.foldl_cons]

theorem holding_settleAll (c : ClientId) (s : Symbol) : ∀ (ts : List (Trade Double))
    (e : MatchingEngine Double), ((settleAll ts e).portfolioSnapshot c).holding s
      = (e.portfolioSnapshot c).holding s + ((ts.map fun t : Trade Double => t.changeFor c).sum).2 s
  | [], _ => (add_zero _).symm
  | t :: ts, e => by
      have first : ((settleTrade e t).portfolioSnapshot c).holding s
        = (e.portfolioSnapshot c).holding s + (t.changeFor c).2 s := holding_settle t e c s
      rw [settleAll_cons, holding_settleAll c s ts, first, List.map_cons, List.sum_cons,
        Prod.snd_add, Pi.add_apply, add_assoc]

end MatchingEngine

/-- The settlements of some trades are exact for a client, one after the other. -/
def ExactlySettled (client : ClientId) : List (Trade Double) → Double → Prop
  | [], _ => True
  | t :: ts, cash => t.ExactFor client cash ∧ ExactlySettled client ts (t.settleCash client cash)

instance decidableExactlySettled (client : ClientId) : ∀ (ts : List (Trade Double)) (cash : Double),
    Decidable (ExactlySettled client ts cash)
  | [], _ => .isTrue trivial
  | t :: ts, cash =>
    have := decidableExactlySettled client ts (t.settleCash client cash)
    inferInstanceAs (Decidable (_ ∧ _))

theorem ExactlySettled.finite_price {client : ClientId} : ∀ {ts : List (Trade Double)}
    {cash : Double}, ExactlySettled client ts cash → ∀ t ∈ ts, t.price.IsFinite
  | _ :: _, _, exact, t, mem => by
      rcases List.mem_cons.mp mem with rfl | mem
      · exact exact.1.price
      · exact exact.2.finite_price t mem

/-- **Exact settlements** change the cash by the trades' amounts. -/
theorem ExactlySettled.foldl {client : ClientId} : ∀ {ts : List (Trade Double)} {cash : Double},
    cash.IsFinite → ExactlySettled client ts cash →
      (ts.foldl (fun cash t => t.settleCash client cash) cash).IsFinite ∧
        (ts.foldl (fun cash t => t.settleCash client cash) cash).value
          = cash.value + ((ts.map fun t : Trade Double => t.changeFor client).sum).1
  | [], _, fin, _ => ⟨fin, (add_zero _).symm⟩
  | t :: ts, cash, _, exact => by
      obtain ⟨first, rest⟩ := exact
      obtain ⟨fin, value⟩ := first.settleCash_eq
      obtain ⟨fin', value'⟩ := ExactlySettled.foldl fin rest
      refine ⟨fin', ?_⟩
      rw [List.foldl_cons, value', value, List.map_cons, List.sum_cons, Prod.fst_add, add_assoc]

/-- The account after some exact settlements. -/
theorem accountOf_settleAll {client : ClientId} {ts : List (Trade Double)}
    {e : MatchingEngine Double} (fin : (e.balanceOf client).IsFinite)
    (exact : ExactlySettled client ts (e.balanceOf client)) :
    ((settleAll ts e).balanceOf client).IsFinite ∧ (settleAll ts e).accountOf client
      = e.accountOf client + (ts.map fun t => t.changeFor client).sum := by
  obtain ⟨fin', value⟩ := exact.foldl fin
  have shares : ∀ s, _ := fun s => holding_settleAll client s ts e
  rw [balanceOf_settleAll]
  refine ⟨fin', Prod.ext ?_ (funext shares)⟩
  rw [accountOf, balanceOf_settleAll]
  exact value

end StockMarket
