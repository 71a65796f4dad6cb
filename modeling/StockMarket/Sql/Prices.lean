import StockMarket.Sql.Fixing

/-!
The price history of an action.

Every leg of a trade that is booked notes the price and the time of the trade
(`mem_prices_settlePair`), and the current price is that of a row that no row is later than.
So it is the price of the last transaction if and only if all rows that may be returned first
have this price (`currentPrice_iff`). The clock counts milliseconds, though, and two
transactions in one of them are noted with the same time (`same_millisecond`).
-/

namespace StockMarket.Sql

open Client Database

/-! ### The latest rows -/

/-- `ORDER BY date_time DESC, daily_time DESC` may return this row first. -/
def PriceRow.LatestIn (rows : List PriceRow) (r : PriceRow) : Prop :=
  r ∈ rows ∧ ∀ r' ∈ rows, ¬r.Earlier r'

instance (rows : List PriceRow) : DecidablePred (PriceRow.LatestIn rows) := fun r => by
  unfold PriceRow.LatestIn
  infer_instance

/-- Of rows with equal sort keys, this one. -/
def LatestRow.choosing (r : PriceRow) : LatestRow where
  pick rows := if r.LatestIn rows then some r else firstLatest rows
  pick_mem {rows r'} found := by
    split at found
    · rename_i latest
      exact Option.some.inj found ▸ latest.1
    · exact (firstLatest_spec found).1
  pick_last {rows r'} found := by
    split at found
    · rename_i latest
      exact Option.some.inj found ▸ latest.2
    · exact (firstLatest_spec found).2
  pick_none {rows} missing := by
    split at missing
    · cases missing
    · exact firstLatest_none missing

/-- The rows of an action. -/
def Database.priceRows (action : ID) (d : Database) : List PriceRow :=
  d.prices.filter fun p => p.actionId = action

section

variable {env : Env} {d : Database} {action : ID} {r r' r'' : PriceRow} {rows : List PriceRow}

theorem PriceRow.not_earlier_trans (notEarlier : ¬r.Earlier r') (notEarlier' : ¬r'.Earlier r'') :
    ¬r.Earlier r'' := by
  grind [PriceRow.Earlier]

theorem LatestRow.latestIn (latest : LatestRow) (found : latest.pick rows = some r) :
    r.LatestIn rows :=
  ⟨latest.pick_mem found, latest.pick_last found⟩

theorem mem_priceRows : r ∈ d.priceRows action ↔ r ∈ d.prices ∧ r.actionId = action := by
  simp [Database.priceRows]

theorem getActionCurrentPrice_eq (env : Env) (action : ID) (d : Database) :
    d.getActionCurrentPrice env action
      = ((env.latest.pick (d.priceRows action)).map PriceRow.price).getD (-1) := by
  unfold getActionCurrentPrice latestPrice executeSqlQueryDouble Database.priceRows
  cases env.latest.pick (d.prices.filter fun p => p.actionId = action) <;> rfl

/-- The current price is that of one of the latest rows, if there are rows. -/
theorem exists_latestIn (env : Env) (some : d.priceRows action ≠ []) :
    ∃ r : PriceRow, r.LatestIn (d.priceRows action) ∧ d.getActionCurrentPrice env action
    = r.price := by
  cases found : env.latest.pick (d.priceRows action) with
  | none => exact absurd (env.latest.pick_none found) some
  | some r =>
      refine ⟨r, env.latest.latestIn found, ?_⟩
      rw [getActionCurrentPrice_eq, found]
      rfl

/-- It can be that of any of them. -/
theorem getActionCurrentPrice_choosing (latest : r.LatestIn (d.priceRows action)) :
    d.getActionCurrentPrice { env with latest := .choosing r } action = r.price := by
  rw [getActionCurrentPrice_eq]
  simp [LatestRow.choosing, latest]

/-- So it is a certain price if and only if all latest rows have that. -/
theorem getActionCurrentPrice_iff (some : d.priceRows action ≠ []) (p : ℚ) :
    (∀ latest, d.getActionCurrentPrice { env with latest := latest } action = p) ↔
      ∀ r : PriceRow, r.LatestIn (d.priceRows action) → r.price = p := by
  constructor
  · intro always r latest
    exact (getActionCurrentPrice_choosing latest).symm.trans (always _)
  · intro all latest
    obtain ⟨r, last, price⟩ := exists_latestIn { env with latest := latest } some
    exact price.trans (all r last)

/-! ### What a trade notes -/

theorem mem_prices_notePrice (row : PriceRow) :
    r ∈ (notePrice row d).prices ↔ r ∈ d.prices ∨ r = row := by
  unfold notePrice
  split
  · rename_i noted
    exact ⟨.inl, fun h => h.elim id fun same => same ▸ noted⟩
  · simp

@[simp] theorem prices_addShares (client action : ID) (quantity : Int) :
    (addShares client action quantity d).prices = d.prices := by
  unfold addShares
  split <;> rfl

@[simp] theorem prices_removeShares (client action : ID) (quantity : Int) :
    (removeShares client action quantity d).prices = d.prices := by
  unfold removeShares
  split <;> rfl

@[simp] theorem prices_deposit (client : ID) (amount : ℚ) :
    (deposit client amount d).prices = d.prices := by
  unfold deposit
  split <;> rfl

theorem mem_prices_buy (client : ID) (quantity : Int) (price : ℚ) (daily date : ID) :
    r ∈ (buy client action quantity price daily date d).prices ↔
      r ∈ d.prices ∨ r = ⟨action, price, date, daily⟩ := by
  rw [buy, Client.addAction, mem_prices_notePrice, prices_addShares]
  rfl

theorem mem_prices_sell (client : ID) (quantity : Int) (price : ℚ) (daily date : ID) :
    r ∈ (sell client action quantity price daily date d).prices ↔
      r ∈ d.prices ∨ r = ⟨action, price, date, daily⟩ := by
  rw [sell, Client.removeAction, mem_prices_notePrice, prices_removeShares, prices_deposit]

end

/-- At least one of the two legs passes its check. -/
def Settlement.Booked (env : Env) (e : Settlement) : Prop :=
  canAfford env e.buyer e.action e.quantity e.price e.before ∨
    hasShares e.seller e.action e.quantity e.before

instance (env : Env) : DecidablePred (Settlement.Booked env) := fun e => by
  unfold Settlement.Booked
  infer_instance

section

variable {env : Env} {d : Database} {action : ID} {r : PriceRow}

/-- A trade notes its price and its time, if a leg is booked. -/
theorem mem_prices_bookTrade (buyer seller : ID) (quantity : Int) (price : ℚ) (time : ID × ID) :
    r ∈ (bookTrade env action buyer seller quantity price time d).prices ↔
      r ∈ d.prices ∨ (canAfford env buyer action quantity price d ∨
        hasShares seller action quantity d) ∧ r = ⟨action, price, time.1, time.2⟩ := by
  rw [bookTrade]
  by_cases covers : canAfford env buyer action quantity price d
  · have bought : updatePortfolio env buyer action quantity price time.2 time.1 .buy d
        = buy buyer action quantity price time.2 time.1 d := if_pos covers
    rw [bought, updatePortfolio]
    split
    · rw [mem_prices_sell, mem_prices_buy]
      simp [covers]
    · rw [mem_prices_buy]
      simp [covers]
  · have refused : updatePortfolio env buyer action quantity price time.2 time.1 .buy d = d :=
      if_neg covers
    rw [refused, updatePortfolio]
    split
    · rename_i has
      rw [mem_prices_sell]
      simp [has]
    · rename_i lacks
      simp [covers, lacks]

/-- What a settled pair adds to the price history. -/
theorem mem_prices_settlePair (env : Env) (action : ID) (buyer seller : OrderRow)
    (buys sells : List ID) (s : Sweep) :
    r ∈ (settlePair env action buyer seller buys sells s).1.db.prices ↔
      r ∈ s.db.prices ∨
        (settlePair env action buyer seller buys sells s).2.Booked env ∧
          r = ⟨action, (settlePair env action buyer seller buys sells s).2.price,
            (env.now s.transactions).1, (env.now s.transactions).2⟩ := by
  rw [settlePair_frame Database.prices fun _ _ => rfl, mem_prices_bookTrade]
  rfl

end

/-! ### A sequence of transactions -/

/-- The transactions of an action from a database on, each with its price and time. Between
them may be anything that notes no price of the action. -/
inductive Trades (env : Env) (action : ID) (d : Database) : List PriceRow → Database → Prop where
  | start : Trades env action d [] d
  | other {ts : List PriceRow} {d' d'' : Database} (earlier : Trades env action d ts d')
      (same : ∀ r, r ∈ d''.priceRows action ↔ r ∈ d'.priceRows action) :
      Trades env action d ts d''
  | settle {ts : List PriceRow} (s : Sweep) (buyer seller : OrderRow) (buys sells : List ID)
      (earlier : Trades env action d ts s.db)
      (booked : (settlePair env action buyer seller buys sells s).2.Booked env) :
      Trades env action d
        (ts ++ [⟨action, (settlePair env action buyer seller buys sells s).2.price,
          (env.now s.transactions).1, (env.now s.transactions).2⟩])
        (settlePair env action buyer seller buys sells s).1.db

/-- No transaction is earlier than one before it. -/
def InTime (ts : List PriceRow) : Prop := ts.Pairwise fun r r' => ¬r'.Earlier r

instance : DecidablePred InTime := fun ts => by
  unfold InTime
  infer_instance

section

variable {env : Env} {d d' : Database} {action : ID} {ts : List PriceRow} {r t : PriceRow}

/-- The price history has what was there and what the transactions note. -/
theorem Trades.mem_priceRows (trades : Trades env action d ts d') :
    r ∈ d'.priceRows action ↔ r ∈ d.priceRows action ∨ r ∈ ts := by
  induction trades with
  | start => simp
  | other _ same ih => exact (same r).trans ih
  | settle s buyer seller buys sells _ booked ih =>
      rw [Sql.mem_priceRows] at ih ⊢
      rw [mem_prices_settlePair, or_and_right, ih, List.mem_append, List.mem_singleton, or_assoc]
      refine or_congr_right (or_congr_right ⟨fun h => h.1.2, fun same => ⟨⟨booked, same⟩, ?_⟩⟩)
      rw [same]

/-- No transaction is later than the last. -/
theorem InTime.last (ordered : InTime ts) (last : ts.getLast? = some t) (mem : r ∈ ts) :
    ¬t.Earlier r := by
  obtain ⟨front, rfl⟩ := List.getLast?_eq_some_iff.mp last
  rcases List.mem_append.mp mem with before | here
  · exact (List.pairwise_append.mp ordered).2.2 r before t List.mem_cons_self
  · rw [List.mem_singleton.mp here]
    simp [PriceRow.Earlier]

/-! ### The server's transactions -/

/-- A settled pair is a transaction of its action, or notes nothing. -/
theorem Trades.settlePair {s : Sweep} (trades : Trades env action d ts s.db) (a : ID)
    (buyer seller : OrderRow) (buys sells : List ID) :
    ∃ ts', Trades env action d ts' (settlePair env a buyer seller buys sells s).1.db := by
  by_cases here : a = action ∧ (Sql.settlePair env a buyer seller buys sells s).2.Booked env
  · obtain ⟨rfl, booked⟩ := here
    exact ⟨_, .settle s buyer seller buys sells trades booked⟩
  · refine ⟨ts, trades.other fun r => ?_⟩
    rw [Sql.mem_priceRows, Sql.mem_priceRows, mem_prices_settlePair, or_and_right]
    refine or_iff_left ?_
    rintro ⟨⟨booked, rfl⟩, same⟩
    exact here ⟨same, booked⟩

/-- **The price history of the server** is what it started with and what its transactions
noted. -/
theorem Server.trades_of_run {order : IterationOrder ID (List ID)} {s : Server}
    (run : Relation.ReflTransGen (Server.Step env order) { market := { db := d } } s)
    (action : ID) : ∃ ts, Trades env action d ts s.market.db := by
  refine Server.db_of_run (D := fun d' => ∃ ts, Trades env action d ts d') ?_ ?_ ?_ run ⟨[], .start⟩
  · exact fun d' _ ⟨ts, trades⟩ => ⟨ts, trades.other fun r => Iff.rfl⟩
  · exact fun d' _ ⟨ts, trades⟩ => ⟨ts, trades.other fun r => Iff.rfl⟩
  · exact fun a buyer seller buys sells s ⟨ts, trades⟩ =>
    trades.settlePair a buyer seller buys sells

/-! ### The last transaction -/

/-- **The current price is that of the last transaction** if and only if all rows have it that
are not earlier than this transaction nor than a row from before the first. -/
theorem currentPrice_iff (trades : Trades env action d ts d') (ordered : InTime ts)
    (last : ts.getLast? = some t) :
    (∀ latest, d'.getActionCurrentPrice { env with latest := latest } action = t.price) ↔
      ∀ r ∈ d.priceRows action ++ ts, ¬r.Earlier t →
        (∀ r' ∈ d.priceRows action, ¬r.Earlier r') → r.price = t.price := by
  have noted : t ∈ ts := List.mem_of_getLast? last
  have some : d'.priceRows action ≠ [] :=
    List.ne_nil_of_mem (trades.mem_priceRows.mpr (.inr noted))
  rw [getActionCurrentPrice_iff some]
  refine forall_congr' fun r => ?_
  have latest : r.LatestIn (d'.priceRows action) ↔ r ∈ d.priceRows action ++ ts ∧ ¬r.Earlier t ∧
      ∀ r' ∈ d.priceRows action, ¬r.Earlier r' := by
    simp only [PriceRow.LatestIn, trades.mem_priceRows, List.mem_append, or_imp, forall_and]
    refine and_congr_right fun _ => ?_
    constructor
    · rintro ⟨before, after⟩
      exact ⟨after t noted, before⟩
    · rintro ⟨notEarlier, before⟩
      exact ⟨before, fun r' mem =>
        PriceRow.not_earlier_trans notEarlier (ordered.last last mem)⟩
  rw [latest]
  exact ⟨fun all mem notEarlier before => all ⟨mem, notEarlier, before⟩,
    fun all h => all h.1 h.2.1 h.2.2⟩

end

/-- The first 10 of `twoPrices`, at 10. -/
def firstTrade (env : Env) : Sweep × Settlement :=
  settlePair env 1 (limitRow 3 1 .buy 15 12) (limitRow 1 2 .sell 10 10) [] [2]
    (twoPrices.sweep [3] [1, 2])

/-- The other 5, at 11. -/
def secondTrade (env : Env) : Sweep × Settlement :=
  settlePair env 1 { limitRow 6 1 .buy 5 12 with orderTimeDaily := 3 } (limitRow 2 2 .sell 10 11)
    [] [] (firstTrade env).1

theorem trades_twoPrices {env : Env} (booked : (firstTrade env).2.Booked env)
    (booked' : (secondTrade env).2.Booked env) :
    Trades env 1 twoPrices.db
      [⟨1, (firstTrade env).2.price, (env.now 0).1, (env.now 0).2⟩,
        ⟨1, (secondTrade env).2.price, (env.now 1).1, (env.now 1).2⟩] (secondTrade env).1.db :=
  .settle _ _ _ _ _ (.settle _ _ _ _ _ .start booked) booked'

/-- One millisecond after the other, the last price is the current one. -/
theorem currentPrice_iff_twoPrices :
    (secondTrade countingEnv).1.db.getActionCurrentPrice { countingEnv with latest := .first } 1
      = 11 :=
  (currentPrice_iff (trades_twoPrices (by decide +kernel) (by decide +kernel)) (by decide +kernel)
    rfl).mpr (by decide +kernel) .first

/-- A clock that stands. -/
def frozenEnv : Env := { countingEnv with now := fun _ => (1, 1) }

/-- In the same millisecond, the first price may be. -/
theorem same_millisecond : ¬∀ (env : Env) (action : ID) (d d' : Database) (ts : List PriceRow)
    (t : PriceRow) (latest : LatestRow), Trades env action d ts d' → InTime ts →
      ts.getLast? = some t →
      d'.getActionCurrentPrice { env with latest := latest } action = t.price := by
  intro claim
  have booked : (firstTrade frozenEnv).2.Booked frozenEnv := by decide +kernel
  have booked' : (secondTrade frozenEnv).2.Booked frozenEnv := by decide +kernel
  have price := claim frozenEnv 1 _ _ _ _ .first (trades_twoPrices booked booked')
    (by decide +kernel) rfl
  exact absurd price (by decide +kernel)

end StockMarket.Sql
