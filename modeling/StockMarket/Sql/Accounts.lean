import Mathlib.Algebra.Group.Pi.Basic
import StockMarket.Sql.Database

/-!
What the clients own, and what the two legs of a trade do to it.

A `Ledger` is the purpose of the tables `clients` and `client_portfolio`: cash and
shares for every client. Everything that moves is a `post`. `Posts d d' …` says that
the change from one database to another is one post, in the ledger and in the totals
of the tables.

* `posts_buy`, `posts_sell`: each leg, once its check has passed, is a post.
* `hasShares_iff`: the check of the sale is a bound on the shares in the ledger.
-/

namespace StockMarket.Sql

/-! ### The ledger -/

/-- Cash of each client, and shares of each action for each client. -/
@[ext] structure Ledger where
  cash : ID → ℚ
  shares : ID → ID → Int

namespace Ledger

/-- Add an amount of cash and a quantity of one action for a client. -/
def post (client action : ID) (amount : ℚ) (quantity : Int) (l : Ledger) : Ledger where
  cash c := l.cash c + if c = client then amount else 0
  shares c a := l.shares c a + if c = client ∧ a = action then quantity else 0

/-- A trade: the buyer pays and receives, the seller is paid and delivers. -/
def transfer (buyer seller action : ID) (amount : ℚ) (quantity : Int) (l : Ledger) : Ledger :=
  post seller action amount (-quantity) (post buyer action (-amount) quantity l)

variable {client action : ID} {amount : ℚ} {quantity : Int} {l : Ledger}

theorem shares_post (c a : ID) :
    (post client action amount quantity l).shares c a
      = l.shares c a + if c = client ∧ a = action then quantity else 0 := rfl

/-- A post of shares is seen in the ledger. -/
theorem post_ne (moves : quantity ≠ 0) : post client action amount quantity l ≠ l := by
  intro same
  have eq : (post client action amount quantity l).shares client action
      = l.shares client action := by rw [same]
  rw [shares_post, if_pos ⟨rfl, rfl⟩] at eq
  omega

/-- The seller's leg alone is not the trade. -/
theorem post_ne_transfer {buyer seller : ID} {amount' : ℚ} (moves : quantity ≠ 0) :
    post seller action amount' (-quantity) l
      ≠ transfer buyer seller action amount quantity l := by
  intro same
  have eq : (post seller action amount' (-quantity) l).shares buyer action
      = (transfer buyer seller action amount quantity l).shares buyer action := by rw [same]
  simp only [transfer, shares_post, and_self, if_true] at eq
  omega

end Ledger

/-! ### The tables as a ledger -/

/-- An action id that a 32-bit column read returns unchanged and that is not the
default of an empty result. -/
def ValidAction (action : ID) : Prop := 0 ≤ action ∧ action < 2 ^ 31

namespace Database

def ledger (d : Database) : Ledger where
  cash c := d.clients.valueAt ClientRow.balance c
  shares c a := d.clientPortfolio.valueAt PortfolioRow.quantity (c, a)

/-- The sum of all balances. -/
def totalBalance (d : Database) : ℚ := d.clients.sumBy ClientRow.balance

/-- The sum of all quantities of one action. -/
def totalShares (action : ID) (d : Database) : Int :=
  d.clientPortfolio.sumBy fun r => if r.actionId = action then r.quantity else 0

/-- What holds of the tables whenever the server is between two operations: holdings
are not negative, of an action with a valid id and owned by a client there is, and
every sale is of a valid action. -/
structure Sound (d : Database) : Prop where
  holding_nonneg : ∀ r ∈ d.clientPortfolio.rows, 0 ≤ r.quantity
  holding_action : ∀ r ∈ d.clientPortfolio.rows, ValidAction r.actionId
  holding_owner : ∀ r ∈ d.clientPortfolio.rows, (d.clients.find r.clientId).isSome
  sale_action : ∀ o ∈ d.orders.rows, o.orderType = .sell → ValidAction o.actionId

variable {d : Database} {client action : ID}

theorem Sound.shares_nonneg (sound : d.Sound) : 0 ≤ d.ledger.shares client action := by
  simp only [ledger, Relation.valueAt]
  cases found : d.clientPortfolio.find (client, action) with
  | none => exact le_rfl
  | some r => exact sound.holding_nonneg r (Relation.find_some_iff.mp found).1

/-- Who holds an action is a client there is, and the action is valid. -/
theorem Sound.of_held (sound : d.Sound)
    (held : (d.clientPortfolio.find (client, action)).isSome) :
    ValidAction action ∧ (d.clients.find client).isSome := by
  obtain ⟨r, found⟩ := Option.isSome_iff_exists.mp held
  obtain ⟨mem, key⟩ := Relation.find_some_iff.mp found
  obtain ⟨rfl, rfl⟩ : r.clientId = client ∧ r.actionId = action := Prod.mk.inj key
  exact ⟨sound.holding_action r mem, sound.holding_owner r mem⟩

end Database

/-- From `d` to `d'`, one post is made. -/
structure Posts (d d' : Database) (client action : ID) (amount : ℚ) (quantity : Int) :
    Prop where
  ledger : d'.ledger = d.ledger.post client action amount quantity
  balance : d'.totalBalance = d.totalBalance + amount
  shares : ∀ a, d'.totalShares a = d.totalShares a + if a = action then quantity else 0

namespace Client

open Database

variable {env : Env} {d : Database} {client action : ID} {quantity : Int} {price amount : ℚ}
  {daily date : ID}

/-! ### Cash -/

/-- What an update of one balance does. -/
theorem cash_of_update {d' : Database} {f : ClientRow → ClientRow}
    (keep : ∀ c, (f c).clientId = c.clientId) (known : (d.clients.find client).isSome)
    (shift : ∀ c, (f c).balance = c.balance + amount)
    (clients : d'.clients = d.clients.update (fun c => c.clientId = client) f keep) :
    (∀ c, d'.ledger.cash c = d.ledger.cash c + if c = client then amount else 0) ∧
      d'.totalBalance = d.totalBalance + amount := by
  obtain ⟨r, found⟩ := Option.isSome_iff_exists.mp known
  simp only [ledger, totalBalance, clients]
  exact ⟨Relation.valueAt_update _ keep found (shift r),
    Relation.sumBy_update _ keep found (shift r)⟩

theorem cash_withdraw (known : (d.clients.find client).isSome) :
    (∀ c, (withdraw client amount d).ledger.cash c
        = d.ledger.cash c + if c = client then -amount else 0) ∧
      (withdraw client amount d).totalBalance = d.totalBalance + -amount :=
  cash_of_update (by intro; rfl) known (by intro; exact sub_eq_add_neg _ _) rfl

/-- A deposit that is not positive does nothing. -/
theorem cash_deposit (known : (d.clients.find client).isSome) :
    (∀ c, (deposit client amount d).ledger.cash c
        = d.ledger.cash c + if c = client then max amount 0 else 0) ∧
      (deposit client amount d).totalBalance = d.totalBalance + max amount 0 := by
  by_cases pos : 0 < amount
  · rw [deposit, if_pos pos, max_eq_left pos.le]
    exact cash_of_update (by intro; rfl) known (by intro; rfl) rfl
  · rw [deposit, if_neg pos, max_eq_right (not_lt.mp pos)]
    simp

/-! ### Shares -/

theorem isActionInPortfolio_iff (valid : ValidAction action) :
    isActionInPortfolio client action d ↔ (d.clientPortfolio.find (client, action)).isSome := by
  rw [isActionInPortfolio, Relation.select_key]
  cases found : d.clientPortfolio.find (client, action) with
  | none =>
      have default : (-1 : Int) < action := lt_of_lt_of_le (by decide) valid.1
      simp [executeSqlQueryId, default.ne]
  | some r =>
      have key : r.actionId = action := congrArg Prod.snd (Relation.find_some_iff.mp found).2
      have same : columnInt action = action :=
        columnInt_of_bounds (le_trans (by decide) valid.1) valid.2
      simp [executeSqlQueryId, key, same]

/-- What an update of one holding does. -/
theorem shares_of_update {f : PortfolioRow → PortfolioRow}
    (keep : ∀ r, (f r).key = r.key) {r : PortfolioRow}
    (found : d.clientPortfolio.find (client, action) = some r)
    (shift : (f r).quantity = r.quantity + quantity) {d' : Database}
    (holdings : d'.clientPortfolio
      = d.clientPortfolio.update (fun r => r.key = (client, action)) f keep) :
    (∀ c a, d'.ledger.shares c a
        = d.ledger.shares c a + if c = client ∧ a = action then quantity else 0) ∧
      ∀ a, d'.totalShares a = d.totalShares a + if a = action then quantity else 0 := by
  simp only [ledger, totalShares, holdings]
  constructor
  · intro c a
    have shifted := Relation.valueAt_update _ keep found shift (c, a)
    simpa only [Prod.mk.injEq] using shifted
  · intro a
    have key := (Relation.find_some_iff.mp found).2
    have key' : (f r).key = (client, action) := (keep r).trans key
    obtain rfl : r.actionId = action := congrArg Prod.snd key
    have same : (f r).actionId = r.actionId := congrArg Prod.snd (keep r)
    refine Relation.sumBy_update _ keep found ?_
    by_cases eq : r.actionId = a
    · simp [same, eq, shift]
    · simp [same, eq, Ne.symm eq]

theorem shares_addShares (valid : ValidAction action) :
    (∀ c a, (addShares client action quantity d).ledger.shares c a
        = d.ledger.shares c a + if c = client ∧ a = action then quantity else 0) ∧
      ∀ a, (addShares client action quantity d).totalShares a
        = d.totalShares a + if a = action then quantity else 0 := by
  by_cases held : isActionInPortfolio client action d
  · obtain ⟨r, found⟩ := Option.isSome_iff_exists.mp ((isActionInPortfolio_iff valid).mp held)
    rw [addShares, if_pos held]
    exact shares_of_update (by intro; rfl) found (by rfl) rfl
  · have fresh : d.clientPortfolio.find (client, action) = none := by
      simpa using (isActionInPortfolio_iff valid).not.mp held
    rw [addShares, if_neg held]
    constructor
    · intro c a
      have inserted := Relation.valueAt_insert (t := d.clientPortfolio) PortfolioRow.quantity
        (r := ⟨client, action, quantity⟩) fresh (c, a)
      simp only [PortfolioRow.key, Prod.mk.injEq] at inserted
      exact inserted
    · intro a
      have inserted := Relation.sumBy_insert (t := d.clientPortfolio)
        (fun r : PortfolioRow => if r.actionId = a then r.quantity else 0)
        (r := ⟨client, action, quantity⟩) fresh
      simp only [eq_comm (a := action)] at inserted
      exact inserted

/-- A sale of no more than what is held. -/
theorem shares_removeShares (valid : ValidAction action)
    (held : (d.clientPortfolio.find (client, action)).isSome)
    (enough : quantity ≤ d.ledger.shares client action) :
    (∀ c a, (removeShares client action quantity d).ledger.shares c a
        = d.ledger.shares c a + if c = client ∧ a = action then -quantity else 0) ∧
      ∀ a, (removeShares client action quantity d).totalShares a
        = d.totalShares a + if a = action then -quantity else 0 := by
  obtain ⟨r, found⟩ := Option.isSome_iff_exists.mp held
  have enough : quantity ≤ r.quantity := by
    simpa only [ledger, Relation.valueAt, found, Option.elim_some] using enough
  rw [removeShares, if_pos ((isActionInPortfolio_iff valid).mpr held)]
  refine shares_of_update (by intro; rfl) found ?_ rfl
  show max (r.quantity - quantity) 0 = r.quantity + -quantity
  omega

/-! ### The checks -/

/-- Without a client there is no balance to buy with. -/
theorem isSome_of_canAfford (afford : canAfford env client action quantity price d) :
    (d.clients.find client).isSome := by
  unfold canAfford at afford
  split at afford
  · cases afford
  · rename_i amount asked
    obtain ⟨nonneg, within⟩ := of_decide_eq_true afford
    cases found : d.clients.find client with
    | some r => rfl
    | none =>
        rw [availableBalance, Relation.select_key, found] at within
        have : amount ≤ -1 := within
        linarith

/-- A purchase that passes its check is of a client there is, and costs something or
nothing. -/
theorem of_canAfford (pos : 0 < quantity) (afford : canAfford env client action quantity price d) :
    (d.clients.find client).isSome ∧ 0 ≤ price * quantity := by
  have pos' : (0 : ℚ) < quantity := Int.cast_pos.mpr pos
  refine ⟨isSome_of_canAfford afford, ?_⟩
  unfold canAfford at afford
  split at afford
  · cases afford
  · rename_i amount asked
    obtain ⟨nonneg, -⟩ := of_decide_eq_true afford
    by_cases market : price = maxNumber ∧ action ≠ -1
    · rw [market.1]
      exact mul_nonneg (by decide) pos'.le
    · rw [cost, if_neg market] at asked
      obtain rfl := Option.some.inj asked
      rwa [mul_comm]

/-- The check of a sale reads the quantity in the ledger. -/
theorem hasShares_iff (pos : 0 < quantity) :
    hasShares client action quantity d
      ↔ quantity ≤ columnInt (d.ledger.shares client action) := by
  rw [hasShares, Relation.select_key]
  simp only [ledger, Relation.valueAt]
  cases found : d.clientPortfolio.find (client, action) with
  | none =>
      have : columnInt 0 = 0 := by decide
      simp [executeSqlQueryInt, this]
      omega
  | some r => simp [executeSqlQueryInt, pos]

theorem of_hasShares (sound : d.Sound) (has : hasShares client action quantity d) :
    0 < quantity ∧ (d.clientPortfolio.find (client, action)).isSome ∧
      quantity ≤ d.ledger.shares client action := by
  have pos : 0 < quantity := by
    simp only [hasShares, decide_eq_true_eq] at has
    exact has.1
  have enough := (hasShares_iff pos).mp has
  refine ⟨pos, ?_, enough.trans (columnInt_le sound.shares_nonneg)⟩
  cases found : d.clientPortfolio.find (client, action) with
  | none =>
      have : columnInt 0 = 0 := by decide
      simp only [ledger, Relation.valueAt, found, Option.elim_none, this] at enough
      omega
  | some r => rfl

/-! ### The legs -/

variable {row : PriceRow}

@[simp] theorem clients_notePrice : (notePrice row d).clients = d.clients := by
  unfold notePrice
  split <;> rfl

@[simp] theorem clientPortfolio_notePrice :
    (notePrice row d).clientPortfolio = d.clientPortfolio := by
  unfold notePrice
  split <;> rfl

@[simp] theorem orders_notePrice : (notePrice row d).orders = d.orders := by
  unfold notePrice
  split <;> rfl

@[simp] theorem clients_addShares :
    (addShares client action quantity d).clients = d.clients := by
  unfold addShares
  split <;> rfl

@[simp] theorem clients_removeShares :
    (removeShares client action quantity d).clients = d.clients := by
  unfold removeShares
  split <;> rfl

@[simp] theorem clientPortfolio_deposit :
    (deposit client amount d).clientPortfolio = d.clientPortfolio := by
  unfold deposit
  split <;> rfl

@[simp] theorem clientPortfolio_withdraw :
    (withdraw client amount d).clientPortfolio = d.clientPortfolio := rfl

/-- A post in two parts: first the cash, then the shares. -/
theorem posts_of_parts {d₁ d₂ d₃ : Database}
    (cash : (∀ c, d₁.ledger.cash c = d.ledger.cash c + if c = client then amount else 0) ∧
      d₁.totalBalance = d.totalBalance + amount)
    (holdings : d₁.clientPortfolio = d.clientPortfolio)
    (shares : (∀ c a, d₂.ledger.shares c a
        = d₁.ledger.shares c a + if c = client ∧ a = action then quantity else 0) ∧
      ∀ a, d₂.totalShares a = d₁.totalShares a + if a = action then quantity else 0)
    (clients : d₂.clients = d₁.clients) (clients' : d₃.clients = d₂.clients)
    (holdings' : d₃.clientPortfolio = d₂.clientPortfolio) :
    Posts d d₃ client action amount quantity := by
  simp only [ledger, totalBalance, totalShares] at cash shares
  constructor
  · ext c a
    · simp only [ledger, Ledger.post, clients', clients, cash.1]
    · simp only [ledger, Ledger.post, holdings', shares.1, holdings]
  · simp only [totalBalance, clients', clients, cash.2]
  · intro a
    simp only [totalShares, holdings', shares.2, holdings]

/-- The buyer's leg. -/
theorem posts_buy (quantity : Int) (price : ℚ) (daily date : ID) (valid : ValidAction action)
    (known : (d.clients.find client).isSome) :
    Posts d (buy client action quantity price daily date d) client action
      (-(price * quantity)) quantity :=
  posts_of_parts (cash_withdraw known) clientPortfolio_withdraw (shares_addShares valid)
    clients_addShares clients_notePrice clientPortfolio_notePrice

/-- The seller's leg, which pays nothing when the price is negative. -/
theorem posts_sell (price : ℚ) (daily date : ID) (sound : d.Sound)
    (has : hasShares client action quantity d) :
    Posts d (sell client action quantity price daily date d) client action
      (max (price * quantity) 0) (-quantity) := by
  obtain ⟨-, held, enough⟩ := of_hasShares sound has
  have ⟨valid, known⟩ := sound.of_held held
  have enough : quantity
      ≤ (deposit client (price * quantity) d).ledger.shares client action := by
    simpa only [ledger, clientPortfolio_deposit] using enough
  exact posts_of_parts (cash_deposit known) clientPortfolio_deposit
    (shares_removeShares valid (by simpa using held) enough)
    clients_removeShares clients_notePrice clientPortfolio_notePrice

/-! ### Both legs keep the tables sound -/

theorem sound_deposit (sound : d.Sound) : (deposit client amount d).Sound := by
  unfold deposit
  split
  · exact ⟨sound.holding_nonneg, sound.holding_action,
      fun r mem => by simpa using sound.holding_owner r mem, sound.sale_action⟩
  · exact sound

theorem sound_withdraw (sound : d.Sound) : (withdraw client amount d).Sound :=
  ⟨sound.holding_nonneg, sound.holding_action,
    fun r mem => by simpa [withdraw] using sound.holding_owner r mem, sound.sale_action⟩

theorem sound_notePrice (sound : d.Sound) : (notePrice row d).Sound := by
  unfold notePrice
  split
  · exact sound
  · exact ⟨sound.holding_nonneg, sound.holding_action, sound.holding_owner, sound.sale_action⟩

/-- Changing the quantities of holdings. -/
theorem sound_updateHolding (sound : d.Sound) {p : PortfolioRow → Bool}
    {f : PortfolioRow → PortfolioRow} (keep : ∀ r, (f r).key = r.key)
    (nonneg : ∀ r, 0 ≤ r.quantity → 0 ≤ (f r).quantity) :
    { d with clientPortfolio := d.clientPortfolio.update p f keep : Database }.Sound := by
  have owner : ∀ r, (f r).clientId = r.clientId := fun r => congrArg Prod.fst (keep r)
  have held : ∀ r, (f r).actionId = r.actionId := fun r => congrArg Prod.snd (keep r)
  constructor
  · exact Relation.forall_update keep sound.holding_nonneg nonneg
  · exact Relation.forall_update keep sound.holding_action fun r valid => by rwa [held]
  · exact Relation.forall_update keep sound.holding_owner fun r known => by rwa [owner]
  · exact sound.sale_action

theorem sound_addShares (sound : d.Sound) (valid : ValidAction action) (nonneg : 0 ≤ quantity)
    (known : (d.clients.find client).isSome) : (addShares client action quantity d).Sound := by
  unfold addShares
  split
  · exact sound_updateHolding sound _ fun r held => add_nonneg held nonneg
  · exact ⟨Relation.forall_insert sound.holding_nonneg nonneg,
      Relation.forall_insert sound.holding_action valid,
      Relation.forall_insert sound.holding_owner known, sound.sale_action⟩

theorem sound_removeShares (sound : d.Sound) : (removeShares client action quantity d).Sound := by
  unfold removeShares
  split
  · exact sound_updateHolding sound _ fun r _ => le_max_right _ _
  · exact sound

theorem sound_buy (price : ℚ) (daily date : ID) (sound : d.Sound) (valid : ValidAction action)
    (nonneg : 0 ≤ quantity) (known : (d.clients.find client).isSome) :
    (buy client action quantity price daily date d).Sound :=
  sound_notePrice (sound_addShares (sound_withdraw sound) valid nonneg (by simpa [withdraw]))

theorem sound_sell (sound : d.Sound) : (sell client action quantity price daily date d).Sound :=
  sound_notePrice (sound_removeShares (sound_deposit sound))

end Client

end StockMarket.Sql
