import StockMarket.Double
import StockMarket.Sql.Valuation

/-!
What a client can spend.

`can_afford` should compare a cost with the balance less what the client's open BUY orders
reserve (`CountsPurchases`). The sum it takes has no condition on the side of the orders, so his
open SELL orders count as well, and whoever offers what he holds can spend or withdraw so much
less (`offer_blocks_withdrawal`). `countsPurchases_iff` says when it does not matter.

Amounts are doubles here: costs as C++ multiplies them, those of open orders as SQLite does.
`sum` is its `COALESCE(SUM(…), 0)`, whose way of adding depends on the version. The other
modules compute with `Client.canAfford`, where nothing is rounded.
-/

namespace StockMarket.Sql

/-- PENDING or WAITING. -/
def OrderRow.IsOpen (o : OrderRow) : Prop :=
  o.orderStatus = .pending ∨ o.orderStatus = .waiting

instance : DecidablePred OrderRow.IsOpen := fun o => by
  unfold OrderRow.IsOpen
  infer_instance

namespace Rounded

open Client Database

/-- `safety_percentage`. -/
def safetyPercentage : Double := 1.10

/-- A column of SQLite. It has NULL for NaN, which is read as zero. -/
def column (x : Double) : Double := if x = .nan then 0 else x

section

variable (sum : List Double → Double) (env : Env) (client action : ID) (quantity : Int)
  (price : Double) (d : Database)

/-- What one open order counts for in `can_afford`. -/
def openAmount (o : OrderRow) : Double :=
  o.quantity *
    if o.triggerType = .market then
      ((d.latestPrice env o.actionId).head?.map Double.finite).getD 0 * safetyPercentage
    else .finite o.price

/-- The balance less the sum over those open orders of a client that count. -/
def availableBalance (counts : OrderRow → Bool) : Double :=
  match d.clients.find client with
  | none => .finite (-1)
  | some c => column (.finite c.balance -
      sum ((d.orders.select fun o => o.clientId = client ∧ o.IsOpen ∧ counts o).map
        (openAmount env d)))

/-- What `can_afford` takes a purchase to cost, if it can tell. -/
def cost : Option Double :=
  if price = .finite maxNumber ∧ action ≠ -1 then
    let currentPrice := Double.finite (d.getActionCurrentPrice env action)
    if currentPrice ≤ 0 then none else some (quantity * currentPrice * safetyPercentage)
  else some (quantity * price)

/-- `Client::can_afford`. -/
def canAfford : Bool :=
  match cost env action quantity price d with
  | none => false
  | some amount => ¬ amount < 0 ∧ amount ≤ availableBalance sum env client d fun _ => true

/-- What there is to spend, with the SELL orders taken off as well. -/
def spendable : Double := availableBalance sum env client d fun _ => true

/-- What there should be: only open BUY orders reserve cash. -/
def spendableByBuys : Double := availableBalance sum env client d fun o => o.orderType = .buy

/-- Only open BUY orders reduce what a client can spend: he can afford a cost, if it is not
negative, exactly if it is at most his balance less what they reserve. -/
def CountsPurchases : Prop :=
  ∀ quantity price action amount, cost env action quantity price d = some amount → 0 ≤ amount →
    (canAfford sum env client action quantity price d ↔ amount ≤ spendableByBuys sum env client d)

end

section

variable {sum : List Double → Double} {env : Env} {client action : ID} {quantity : Int}
  {price amount : Double} {d : Database} {counts : OrderRow → Bool}

theorem ofRat_ne_nan (q : ℚ) : Double.ofRat q ≠ .nan := by
  unfold Double.ofRat
  split
  · exact Double.noConfusion
  · split <;> exact Double.noConfusion

/-- What is available is a number, which a double holds. -/
theorem availableBalance_cases :
    (∃ q, availableBalance sum env client d counts = .ofRat q) ∨
      availableBalance sum env client d counts = .posInf ∨
        availableBalance sum env client d counts = .negInf := by
  unfold availableBalance
  split
  · exact .inl ⟨-1, by decide +kernel⟩
  · rename_i c _
    generalize sum _ = reserved
    cases reserved with
    | finite q =>
        rw [Double.sub_finite, column, if_neg (ofRat_ne_nan _)]
        exact .inl ⟨_, rfl⟩
    | posInf => exact .inr (.inr rfl)
    | negInf => exact .inr (.inl rfl)
    | nan =>
        have zero : (0 : Double) = .ofRat 0 := by decide +kernel
        exact .inl ⟨0, zero⟩

theorem availableBalance_le_self :
    availableBalance sum env client d counts ≤ availableBalance sum env client d counts := by
  rcases @availableBalance_cases sum env client d counts with ⟨q, eq⟩ | eq | eq <;> rw [eq]
  · exact Double.le_self (ofRat_ne_nan q)
  · rfl
  · rfl

/-- To withdraw what is available costs just that. -/
theorem cost_availableBalance :
    cost env (-1) 1 (availableBalance sum env client d counts) d
      = some (availableBalance sum env client d counts) := by
  have once : (1 : Int) * availableBalance sum env client d counts
      = availableBalance sum env client d counts := by
    rcases @availableBalance_cases sum env client d counts with ⟨q, eq⟩ | eq | eq <;> rw [eq]
    · exact Double.one_mul_ofRat q
    · decide +kernel
    · decide +kernel
  rw [cost, if_neg fun h => h.2 rfl, once]

theorem not_neg_of_nonneg (nonneg : 0 ≤ amount) : ¬amount < 0 := by
  cases amount with
  | finite q =>
      exact fun neg => absurd (Double.lt_iff.mp neg) (not_lt.mpr (Double.le_iff.mp nonneg))
  | posInf => exact Bool.false_ne_true
  | negInf => exact absurd nonneg Bool.false_ne_true
  | nan => exact Bool.false_ne_true

/-- What is available is negative or not. -/
theorem availableBalance_neg (none : ¬0 ≤ availableBalance sum env client d counts) :
    availableBalance sum env client d counts < 0 := by
  have number := @availableBalance_le_self sum env client d counts
  generalize availableBalance sum env client d counts = balance at none number
  cases balance with
  | finite q => exact Double.lt_iff.mpr (not_le.mp (mt Double.le_iff.mpr none))
  | posInf => exact absurd rfl none
  | negInf => rfl
  | nan => exact absurd number Bool.false_ne_true

theorem not_nonneg_of_neg (neg : amount < 0) : ¬0 ≤ amount :=
  fun nonneg => not_neg_of_nonneg nonneg neg

/-- The answer compares a cost with the balance less the whole sum. -/
theorem canAfford_iff (costs : cost env action quantity price d = some amount)
    (nonneg : 0 ≤ amount) :
    canAfford sum env client action quantity price d ↔ amount ≤ spendable sum env client d := by
  simp [canAfford, costs, not_neg_of_nonneg nonneg, spendable]

/-- **Only purchases are counted** if and only if the SELL orders make no difference to what is
left of the balance, or nothing can be spent with them and without them. -/
theorem countsPurchases_iff (sum : List Double → Double) (env : Env) (client : ID)
    (d : Database) :
    CountsPurchases sum env client d ↔
      spendable sum env client d = spendableByBuys sum env client d ∨
        spendable sum env client d < 0 ∧ spendableByBuys sum env client d < 0 := by
  constructor
  · intro claim
    -- both amounts are ones that he may want to withdraw
    have whole : 0 ≤ spendable sum env client d →
        spendable sum env client d ≤ spendableByBuys sum env client d := fun nonneg =>
      (claim 1 _ (-1) _ cost_availableBalance nonneg).mp
        ((canAfford_iff cost_availableBalance nonneg).mpr availableBalance_le_self)
    have purchases : 0 ≤ spendableByBuys sum env client d →
        spendableByBuys sum env client d ≤ spendable sum env client d := fun nonneg =>
      (canAfford_iff cost_availableBalance nonneg).mp
        ((claim 1 _ (-1) _ cost_availableBalance nonneg).mpr availableBalance_le_self)
    by_cases some : 0 ≤ spendable sum env client d
    · have less := whole some
      exact .inl (Double.le_antisymm less (purchases (Double.le_trans some less)))
    · by_cases more : 0 ≤ spendableByBuys sum env client d
      · exact absurd (Double.le_trans more (purchases more)) some
      · exact .inr ⟨availableBalance_neg some, availableBalance_neg more⟩
  · rintro (same | ⟨broke, broke'⟩) quantity price action amount costs nonneg
    · rw [canAfford_iff costs nonneg, same]
    · rw [canAfford_iff costs nonneg]
      have short : ∀ {balance : Double}, balance < 0 → ¬amount ≤ balance :=
        fun neg within => not_nonneg_of_neg neg (Double.le_trans nonneg within)
      exact iff_of_false (short broke) (short broke')

/-- An open BUY order counts: whoever has 1000 and has ordered 20 at the market price. -/
theorem countsPurchases_demoBuy :
    CountsPurchases plainSum countingEnv 1 (demoBuy 20).market.db :=
  (countsPurchases_iff _ _ _ _).mpr (.inl (by decide +kernel))

/-- The database where client 2 of `init`, who has 100, offers his 20 shares at the market. -/
def demoOffer : Database :=
  (({ market := { db := Database.demo 0 1 } } : Server).perform countingEnv
    (.enter (marketRow 1 2 .sell 20))).market.db

/-- He cannot withdraw 50 of his 100 then. -/
theorem offer_blocks_withdrawal : ¬∀ (sum : List Double → Double) (env : Env) (client : ID)
    (d : Database), CountsPurchases sum env client d := by
  intro claim
  have costs : cost countingEnv (-1) 1 (.finite 50) demoOffer = some (.finite 50) := by
    decide +kernel
  have refused := claim plainSum countingEnv 2 demoOffer 1 (.finite 50) (-1) (.finite 50) costs
    (by decide +kernel)
  exact absurd refused (by decide +kernel)

end

end Rounded

end StockMarket.Sql
