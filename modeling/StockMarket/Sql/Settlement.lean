import StockMarket.Sql.Accounts
import StockMarket.Sql.Market

/-!
What the matching loops do to the accounts.

The two legs of a pair are booked one after the other, each behind its own check.
`Settlement.Atomic` is what a trade should be: booked on both sides, or not at all.
`Settlement.ChecksAgree` is that the buyer's available balance covers the purchase
exactly when the seller has the shares to deliver.

* `bookTrade_cases`: everything the two legs can do.
* `settlePair_atomic_iff`: a pair is atomic if and only if its checks agree, and then
  no total changes.
* `keeps_matchAction`: this holds of every pair a matching loop settles.
-/

namespace StockMarket.Sql

open Client Database

/-- The sum of all balances, and of all quantities of each action. -/
def totals (d : Database) : ℚ × (ID → Int) := (d.totalBalance, fun a => d.totalShares a)

section

variable {env : Env} {d : Database} {action buyer seller : ID} {quantity : Int} {price : ℚ}
  {time : ID × ID}

/-- One database has the accounts of another. -/
structure SameAccounts (d d' : Database) : Prop where
  clients : d'.clients = d.clients
  clientPortfolio : d'.clientPortfolio = d.clientPortfolio

theorem SameAccounts.ledger {d d' : Database} (same : SameAccounts d d') :
    d'.ledger = d.ledger := by
  simp only [Database.ledger, same.clients, same.clientPortfolio]

theorem SameAccounts.totals {d d' : Database} (same : SameAccounts d d') :
    totals d' = totals d := by
  simp only [Sql.totals, totalBalance, totalShares, same.clients, same.clientPortfolio]

theorem SameAccounts.trans {d d' d'' : Database} (first : SameAccounts d d')
    (later : SameAccounts d' d'') : SameAccounts d d'' :=
  ⟨later.clients.trans first.clients, later.clientPortfolio.trans first.clientPortfolio⟩

theorem sameAccounts_closeOrder (o : OrderRow) (d : Database) :
    SameAccounts d (closeOrder o d) := ⟨rfl, rfl⟩

theorem sameAccounts_completeOrder (n : Nat) (o : OrderRow) (d : Database) :
    SameAccounts d (completeOrder env n o quantity price time d) := ⟨rfl, rfl⟩

theorem sameAccounts_reopenOrder (n : Nat) (o : OrderRow) (others : List ID) (d : Database) :
    SameAccounts d (reopenOrder env n o quantity others d).1 := by
  unfold reopenOrder
  split <;> exact ⟨rfl, rfl⟩

end

/-! ### The two legs -/

/-- What the two legs of a trade can do to the accounts, by whether the purchase and
the sale pass their checks. -/
inductive Booked (covers delivers : Prop) (action buyer seller : ID) (amount : ℚ)
    (quantity : Int) (d d' : Database) : Prop where
  | both {d₁ : Database} (covered : covers) (delivered : delivers)
      (bought : Posts d d₁ buyer action (-amount) quantity)
      (sold : Posts d₁ d' seller action amount (-quantity))
  | buyerOnly (covered : covers) (undelivered : ¬ delivers)
      (bought : Posts d d' buyer action (-amount) quantity)
  | sellerOnly {paid : ℚ} (uncovered : ¬ covers) (delivered : delivers)
      (sold : Posts d d' seller action paid (-quantity))
  | neither (uncovered : ¬ covers) (undelivered : ¬ delivers) (same : d' = d)

namespace Booked

variable {covers delivers : Prop} {action buyer seller : ID} {amount : ℚ} {quantity : Int}
  {d d' : Database}

/-- A trade is booked on both sides or on neither if and only if its checks agree. -/
theorem atomic_iff (moves : quantity ≠ 0)
    (booked : Booked covers delivers action buyer seller amount quantity d d') :
    (d'.ledger = d.ledger.transfer buyer seller action amount quantity ∨ d'.ledger = d.ledger)
      ↔ (covers ↔ delivers) := by
  cases booked with
  | both covered delivered bought sold =>
      refine iff_of_true (.inl ?_) (iff_of_true covered delivered)
      rw [sold.ledger, bought.ledger, Ledger.transfer]
  | buyerOnly covered undelivered bought =>
      have halfway : ¬ d'.ledger = d.ledger.transfer buyer seller action amount quantity := by
        rw [bought.ledger, Ledger.transfer]
        exact (Ledger.post_ne (neg_ne_zero.mpr moves)).symm
      have moved : ¬ d'.ledger = d.ledger := by
        rw [bought.ledger]
        exact Ledger.post_ne moves
      exact iff_of_false (not_or_intro halfway moved) fun agree => undelivered (agree.mp covered)
  | sellerOnly uncovered delivered sold =>
      have halfway : ¬ d'.ledger = d.ledger.transfer buyer seller action amount quantity := by
        rw [sold.ledger]
        exact Ledger.post_ne_transfer moves
      have moved : ¬ d'.ledger = d.ledger := by
        rw [sold.ledger]
        exact Ledger.post_ne (neg_ne_zero.mpr moves)
      exact iff_of_false (not_or_intro halfway moved) fun agree => uncovered (agree.mpr delivered)
  | neither uncovered undelivered same =>
      exact iff_of_true (.inr (by rw [same])) (iff_of_false uncovered undelivered)

/-- A trade whose checks agree changes no total. -/
theorem totals_eq (booked : Booked covers delivers action buyer seller amount quantity d d')
    (agree : covers ↔ delivers) : totals d' = totals d := by
  cases booked with
  | both _ _ bought sold =>
      simp only [totals, sold.balance, bought.balance, sold.shares, bought.shares]
      refine Prod.ext (by simp) (funext fun a => ?_)
      by_cases eq : a = action <;> simp [eq]
  | buyerOnly covered undelivered _ => exact absurd (agree.mp covered) undelivered
  | sellerOnly uncovered delivered _ => exact absurd (agree.mpr delivered) uncovered
  | neither _ _ same => rw [same]

end Booked

section

variable {env : Env} {d : Database} {action buyer seller : ID} {quantity : Int} {price : ℚ}
  {time : ID × ID}

/-- The seller's shares at his own check: a client who trades with himself has been
given what he buys. -/
def deliverable (env : Env) (action buyer seller : ID) (quantity : Int) (price : ℚ)
    (d : Database) : Int :=
  d.ledger.shares seller action
    + if buyer = seller ∧ canAfford env buyer action quantity price d then quantity else 0

theorem bookTrade_cases (env : Env) (buyer seller : ID) (quantity : Int) (price : ℚ)
    (time : ID × ID) (sound : d.Sound) (valid : ValidAction action) (pos : 0 < quantity) :
    Booked (canAfford env buyer action quantity price d)
      (quantity ≤ columnInt (deliverable env action buyer seller quantity price d))
      action buyer seller (price * quantity) quantity d
      (bookTrade env action buyer seller quantity price time d) := by
  rw [bookTrade]
  by_cases covers : canAfford env buyer action quantity price d
  · obtain ⟨known, nonneg⟩ := of_canAfford pos covers
    have leg : updatePortfolio env buyer action quantity price time.2 time.1 .buy d
        = buy buyer action quantity price time.2 time.1 d := if_pos covers
    have bought := posts_buy quantity price time.2 time.1 valid known
    have sound₁ := sound_buy price time.2 time.1 sound valid pos.le known
    rw [leg]
    set d₁ := buy buyer action quantity price time.2 time.1 d
    have delivers : hasShares seller action quantity d₁
        ↔ quantity ≤ columnInt (deliverable env action buyer seller quantity price d) := by
      rw [hasShares_iff pos, bought.ledger, Ledger.shares_post, deliverable]
      simp only [covers, and_true, eq_comm (a := seller)]
    by_cases has : hasShares seller action quantity d₁
    · have sold := posts_sell price time.2 time.1 sound₁ has
      have leg' : updatePortfolio env seller action quantity price time.2 time.1 .sell d₁
          = sell seller action quantity price time.2 time.1 d₁ := if_pos has
      rw [max_eq_left nonneg] at sold
      rw [leg']
      exact .both covers (delivers.mp has) bought sold
    · have leg' : updatePortfolio env seller action quantity price time.2 time.1 .sell d₁ = d₁ :=
        if_neg has
      rw [leg']
      exact .buyerOnly covers (mt delivers.mpr has) bought
  · have leg : updatePortfolio env buyer action quantity price time.2 time.1 .buy d = d :=
      if_neg covers
    have delivers : hasShares seller action quantity d
        ↔ quantity ≤ columnInt (deliverable env action buyer seller quantity price d) := by
      rw [hasShares_iff pos, deliverable]
      simp [covers]
    rw [leg]
    by_cases has : hasShares seller action quantity d
    · have leg' : updatePortfolio env seller action quantity price time.2 time.1 .sell d
          = sell seller action quantity price time.2 time.1 d := if_pos has
      rw [leg']
      exact .sellerOnly covers (delivers.mp has) (posts_sell price time.2 time.1 sound has)
    · have leg' : updatePortfolio env seller action quantity price time.2 time.1 .sell d = d :=
        if_neg has
      rw [leg']
      exact .neither covers (mt delivers.mpr has) rfl

theorem sound_updatePortfolio (sound : d.Sound) (valid : ValidAction action) (pos : 0 < quantity)
    (client : ID) (side : OrderType) :
    (updatePortfolio env client action quantity price time.2 time.1 side d).Sound := by
  cases side with
  | buy =>
      rw [updatePortfolio]
      split
      · rename_i covers
        exact sound_buy price time.2 time.1 sound valid pos.le (of_canAfford pos covers).1
      · exact sound
  | sell =>
      rw [updatePortfolio]
      split
      · exact sound_sell sound
      · exact sound

theorem sound_bookTrade (sound : d.Sound) (valid : ValidAction action) (pos : 0 < quantity) :
    (bookTrade env action buyer seller quantity price time d).Sound :=
  sound_updatePortfolio (sound_updatePortfolio sound valid pos buyer .buy) valid pos seller .sell

end

/-! ### One pair -/

namespace Settlement

variable (env : Env) (e : Settlement)

/-- Booked on both sides, or on neither. -/
def Atomic : Prop :=
  e.after.ledger
      = e.before.ledger.transfer e.buyer e.seller e.action (e.price * e.quantity) e.quantity ∨
    e.after.ledger = e.before.ledger

/-- The two checks agree: the purchase is covered exactly when the shares can be
delivered. -/
def ChecksAgree : Prop :=
  canAfford env e.buyer e.action e.quantity e.price e.before ↔
    e.quantity
      ≤ columnInt (deliverable env e.action e.buyer e.seller e.quantity e.price e.before)

instance : Decidable (e.ChecksAgree env) := by
  unfold ChecksAgree
  infer_instance

end Settlement

section

variable {env : Env} {action : ID} {buyer seller : OrderRow} {buys sells : List ID}
  {s : Sweep}

/-- Everything behind the two legs leaves the accounts alone. -/
theorem sameAccounts_settlePair {e : Settlement}
    (eq : (settlePair env action buyer seller buys sells s).2 = e) :
    SameAccounts
      (bookTrade env action e.buyer e.seller e.quantity e.price (env.now s.transactions) s.db)
      e.after := by
  subst eq
  simp only [settlePair]
  refine .trans ?_ (sameAccounts_reopenOrder _ _ _ _)
  refine .trans ?_ (sameAccounts_reopenOrder _ _ _ _)
  split
  · refine .trans ?_ (sameAccounts_completeOrder _ _ _)
    refine .trans ?_ (sameAccounts_completeOrder _ _ _)
    exact (sameAccounts_closeOrder _ _).trans (sameAccounts_closeOrder _ _)
  · exact (sameAccounts_closeOrder _ _).trans (sameAccounts_closeOrder _ _)

/-- **One pair.** It is booked on both sides or on neither if and only if its checks
agree, and then no total changes. -/
theorem settlePair_atomic_iff (env : Env) (buys sells : List ID) (sound : s.db.Sound)
    (valid : ValidAction action) (pos : 0 < min buyer.quantity seller.quantity) :
    let out := settlePair env action buyer seller buys sells s
    (out.2.Atomic ↔ out.2.ChecksAgree env) ∧
      (out.2.ChecksAgree env → totals out.1.db = totals s.db) := by
  intro out
  have same := sameAccounts_settlePair (e := out.2) rfl
  have booked := bookTrade_cases env out.2.buyer out.2.seller out.2.quantity out.2.price
    (env.now s.transactions) sound valid pos
  constructor
  · have iff := booked.atomic_iff pos.ne'
    rw [← same.ledger] at iff
    exact iff
  · intro agree
    exact same.totals.trans (booked.totals_eq agree)

theorem sound_addOrder {d : Database} (sound : d.Sound) (status : OrderStatus) {o : OrderRow}
    (valid : o.orderType = .sell → ValidAction o.actionId) : (addOrder status o d).Sound :=
  ⟨sound.holding_nonneg, sound.holding_action, sound.holding_owner,
    Relation.forall_insert sound.sale_action valid⟩

theorem sound_removeOrder {d : Database} (sound : d.Sound) (client : ID) (status : OrderStatus)
    (order : ID) : (removeOrder client status order d).Sound :=
  ⟨sound.holding_nonneg, sound.holding_action, sound.holding_owner,
    Relation.forall_delete sound.sale_action⟩

theorem sound_reopenOrder {d : Database} (sound : d.Sound) {n : Nat} {o : OrderRow}
    {quantity : Int} {others : List ID} (valid : ValidAction o.actionId) :
    (reopenOrder env n o quantity others d).1.Sound := by
  unfold reopenOrder
  split
  · exact sound_addOrder sound _ fun _ => valid
  · exact sound

theorem sound_settlePair (env : Env) (buys sells : List ID) (sound : s.db.Sound)
    (valid : ValidAction action) (pos : 0 < min buyer.quantity seller.quantity) :
    (settlePair env action buyer seller buys sells s).1.db.Sound := by
  simp only [settlePair]
  refine sound_reopenOrder (sound_reopenOrder ?_ valid) valid
  rw [if_pos pos]
  refine sound_addOrder (sound_addOrder ?_ _ fun _ => valid) _ fun _ => valid
  exact sound_removeOrder (sound_removeOrder (sound_bookTrade sound valid pos) _ _ _) _ _ _

end

/-! ### The loops -/

/-- How a loop looks at a pair: it settles orders of positive quantities only. -/
def PositivePairs (pair : Database → ID → ID → Option (OrderRow × OrderRow)) : Prop :=
  ∀ d buy sell buyer seller, pair d buy sell = some (buyer, seller) →
    0 < buyer.quantity ∧ 0 < seller.quantity

theorem positive_fixingPair : PositivePairs fixingPair := by
  intro d buy sell buyer seller found
  unfold fixingPair at found
  grind

theorem positive_continuousPair : PositivePairs continuousPair := by
  intro d buy sell buyer seller found
  unfold continuousPair at found
  grind

/-- What holds of the state of a loop over the books of one action. -/
structure Sweep.Sound (action : ID) (s : Sweep) : Prop where
  db : s.db.Sound
  valid : s.sells ≠ [] → ValidAction action

section

variable {pair : Database → ID → ID → Option (OrderRow × OrderRow)} {env : Env} {action : ID}

/-- One round of a loop. -/
theorem kept_matchStep (env : Env) (action : ID) (positive : PositivePairs pair) (s s' : Sweep)
    (e : Settlement) (sound : s.Sound action) (next : matchStep pair env action s = some (s', e)) :
    Loop.Kept (Sweep.Sound action) (fun e => e.Atomic ↔ e.ChecksAgree env)
      (Settlement.ChecksAgree env) (fun s => totals s.db) s (s', [e]) := by
  obtain ⟨buy, buys, sell, sells, buyer, seller, -, eq, found, settled⟩ := matchStep_some next
  have valid : ValidAction action := sound.valid (by simp [eq])
  have pos : 0 < min buyer.quantity seller.quantity :=
    lt_min_iff.mpr (positive _ _ _ _ _ found)
  have ⟨atomic, kept⟩ := settlePair_atomic_iff env buys sells sound.db valid pos
  have sound' := sound_settlePair env buys sells sound.db valid pos
  rw [settled] at atomic kept sound'
  exact {
    inv := ⟨sound', fun _ => valid⟩
    events := by simpa using atomic
    quantity := by simpa using kept }

end

/-- What holds of a market between two operations: its database is sound, and only
valid actions have a sale in the book. -/
structure Market.Sound (m : Market) : Prop where
  db : m.db.Sound
  sales : ∀ action sells, m.sellOrders.lookup action = some sells → sells ≠ [] →
    ValidAction action

section

variable {pair : Database → ID → ID → Option (OrderRow × OrderRow)} (env : Env)

/-- The loop of one action. -/
theorem keeps_matchAction (positive : PositivePairs pair) (action : ID) :
    Loop.Keeps Market.Sound (fun e => e.Atomic ↔ e.ChecksAgree env)
      (Settlement.ChecksAgree env) (fun m => totals m.db)
      (Market.matchAction pair env action) := by
  intro m sound
  unfold Market.matchAction
  split
  · rename_i buys sells bought sold
    split
    · exact .idle sound
    · rename_i both
      have valid : ValidAction action := sound.sales action sells sold fun nil => both (.inr nil)
      have kept := Loop.keeps_run (kept_matchStep env action positive)
        (buys.length + sells.length) (m.sweep buys sells) ⟨sound.db, fun _ => valid⟩
      refine ⟨⟨kept.inv.db, fun action' sells' found ne => ?_⟩, kept.events, kept.quantity⟩
      by_cases eq : action' = action
      · rwa [eq]
      · exact sound.sales action' sells' ((AList.lookup_insert_ne eq).symm.trans found) ne
  · exact .idle sound

theorem keeps_processContinuousTrading (action : ID) :
    Loop.Keeps Market.Sound (fun e => e.Atomic ↔ e.ChecksAgree env)
      (Settlement.ChecksAgree env) (fun m => totals m.db)
      (Market.processContinuousTrading env action) :=
  keeps_matchAction env positive_continuousPair action

theorem keeps_processFixing (order : IterationOrder ID (List ID)) :
    Loop.Keeps Market.Sound (fun e => e.Atomic ↔ e.ChecksAgree env)
      (Settlement.ChecksAgree env) (fun m => totals m.db)
      (Market.processFixing env order) := fun m sound =>
  Loop.keeps_chain (keeps_matchAction env positive_fixingPair) _ m sound

end

end StockMarket.Sql
