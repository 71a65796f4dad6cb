import Mathlib.Algebra.BigOperators.Ring.List
import Mathlib.Data.List.Sort
import StockMarket.Double
import StockMarket.Sql.Dates
import StockMarket.Sql.Limits
import StockMarket.Sql.Texts

/-!
What positions are worth.

`get_portfolio_info` and `get_market_value` join every position with the price rows of its
action at the latest time, which nested maxima find (`some_latestTime_iff`). A position counts
once if there is one such row. Two transactions in one millisecond at different prices leave
two, and then the position is listed and valued twice (`listed_twice`). `valued_iff` says that
this, a quantity that `std::stoi` cannot read, and a price whose text reads back as another one
is all that goes wrong.

Amounts are added and multiplied by the operations of some `Amounts`: those of doubles in the
server, with the `SUM` of SQLite.
-/

namespace StockMarket.Sql

open Client Database

/-! ### The queries -/

/-- A row of the query of `get_portfolio_info`, with the action in the place of its name. -/
structure PortfolioLine where
  action : ID
  quantity : Int
  price : ℚ
  dateTime : ID
  dailyTime : ID
  deriving DecidableEq

/-- The row as its text says. -/
def PortfolioLine.read (text : ℚ → ℚ) (line : PortfolioLine) : PortfolioLine :=
  { line with price := text line.price }

/-- What `get_portfolio_info` prints. -/
structure PortfolioInfo (V : Type) where
  value : V
  balance : ℚ
  lines : List PortfolioLine
  deriving DecidableEq

/-- How amounts are computed: what a quantity is worth at a price, the additions of C++, and
the `SUM` of SQLite. -/
structure Amounts (V : Type) where
  zero : V
  times : Int → ℚ → V
  add : V → V → V
  sum : List V → V

namespace Amounts

/-- Nothing is rounded. -/
def exact : Amounts ℚ where
  zero := 0
  times quantity price := quantity * price
  add := (· + ·)
  sum := List.sum

/-- Doubles. -/
def doubles (sum : List Double → Double) : Amounts Double where
  zero := 0
  times quantity price := (quantity : Double) * Double.finite price
  add := (· + ·)
  sum := sum

/-- What nothing is worth is nothing, and adds nothing to a sum. -/
structure Lawful {V : Type} (amounts : Amounts V) : Prop where
  times_zero : ∀ price, amounts.times 0 price = amounts.zero
  sum_zero : ∀ vs ws, amounts.sum (vs ++ amounts.zero :: ws) = amounts.sum (vs ++ ws)

theorem lawful_doubles {sum : List Double → Double}
    (zero : ∀ vs ws, sum (vs ++ 0 :: ws) = sum (vs ++ ws)) : (doubles sum).Lawful := by
  refine ⟨fun price => ?_, zero⟩
  have none : ((0 : Int) : Double) = Double.finite 0 := by decide +kernel
  have nothing : Double.ofRat 0 = Double.finite 0 := by decide +kernel
  simp only [doubles, none, Double.mul_finite, zero_mul, nothing]
  rfl

end Amounts

namespace Database

variable (client action : ID) (d : Database)

/-- `SELECT MAX(date_time)` over the prices of an action. -/
def maxDateTime : Option ID := ((d.priceRows action).map PriceRow.dateTime).max?

/-- `SELECT MAX(daily_time)` over its prices of one date. -/
def maxDailyTime (date : ID) : Option ID :=
  (((d.priceRows action).filter fun p => p.dateTime = date).map PriceRow.dailyTime).max?

/-- The subquery for the latest time. -/
def latestTime : Option (ID × ID) :=
  (((d.priceRows action).filter fun p => some p.dateTime = d.maxDateTime action ∧
    some p.dailyTime = d.maxDailyTime action p.dateTime).map
      fun p => (p.dateTime, p.dailyTime)).head?

/-- The price rows that an action is joined with. A comparison with the time of no row is NULL,
so there is none. -/
def latestRows : List PriceRow :=
  (d.priceRows action).filter fun p => some (p.dateTime, p.dailyTime) = d.latestTime action

/-- The rows of a client in `client_portfolio`. -/
def holdings : List PortfolioRow := d.clientPortfolio.select fun cp => cp.clientId = client

/-- The rows of the query of `get_portfolio_info`. -/
def portfolioLines : List PortfolioLine :=
  ((d.holdings client).flatMap fun cp =>
    (d.actions.select fun a => a.actionId = cp.actionId).flatMap fun a =>
      (d.latestRows cp.actionId).map fun p =>
        ⟨a.actionId, cp.quantity, p.price, p.dateTime, p.dailyTime⟩).insertionSort
    fun line line' => line.action ≤ line'.action

/-- `Client::get_balance`. -/
def getBalance : ℚ :=
  executeSqlQueryDouble ((d.clients.select fun c => c.clientId = client).map ClientRow.balance)

/-- These rows as their texts say. -/
def readLines (text : ℚ → ℚ) : List PortfolioLine :=
  (d.portfolioLines client).map (PortfolioLine.read text)

/-- `Client::get_portfolio_info`, which reads the quantities with `std::stoi`. -/
def getPortfolioInfoText {V : Type} (text : ℚ → ℚ) (amounts : Amounts V) :
    Except StdException (PortfolioInfo V) :=
  if ∀ line ∈ d.readLines client text, -2 ^ 31 ≤ line.quantity ∧ line.quantity < 2 ^ 31 then
    .ok
      { value := ((d.readLines client text).map fun line =>
          amounts.times line.quantity line.price).foldl amounts.add amounts.zero
        balance := d.getBalance client
        lines := d.readLines client text }
  else .error .outOfRange

/-- Without texts and rounding. -/
def getPortfolioInfo : Except StdException (PortfolioInfo ℚ) :=
  d.getPortfolioInfoText client id .exact

/-- `Market::get_market_value`, which is 0 for the NULL of no rows. -/
def getMarketValue {V : Type} (amounts : Amounts V) : V :=
  amounts.sum (d.actions.rows.flatMap fun a => (d.latestRows a.actionId).map fun p =>
    amounts.times a.quantity p.price)

end Database

/-- The positions of a client, in the order of the actions. -/
def Database.positions (client : ID) (d : Database) : List PortfolioRow :=
  (d.holdings client).insertionSort fun cp cp' => cp.actionId ≤ cp'.actionId

/-- What the two should say: the portfolio of a client lists each action of his once and is
worth the sum of their quantities at the current prices, added in the order of the actions, and
so is the market. -/
structure Database.Valued {V : Type} (text : ℚ → ℚ) (amounts : Amounts V) (env : Env)
    (d : Database) : Prop where
  portfolio : ∀ client, ∃ info, d.getPortfolioInfoText client text amounts = .ok info ∧
    (info.lines.map PortfolioLine.action).Perm ((d.holdings client).map PortfolioRow.actionId) ∧
    info.value = ((d.positions client).map fun cp =>
      amounts.times cp.quantity (d.getActionCurrentPrice env cp.actionId)).foldl
        amounts.add amounts.zero
  market : d.getMarketValue amounts
    = amounts.sum (d.actions.rows.map fun a =>
        amounts.times a.quantity (d.getActionCurrentPrice env a.actionId))

/-! ### The latest rows -/

section

variable {env : Env} {d : Database} {action : ID} {r r' : PriceRow}

/-- There is a latest row, if there are rows. -/
theorem exists_latest (some : d.priceRows action ≠ []) :
    ∃ r : PriceRow, r.LatestIn (d.priceRows action) := by
  cases found : firstLatest (d.priceRows action) with
  | none => exact absurd (firstLatest_none found) some
  | some r => exact ⟨r, firstLatest_spec found⟩

/-- The nested maxima are the time of a latest row. -/
theorem maxima_iff (mem : r ∈ d.priceRows action) :
    some r.dateTime = d.maxDateTime action ∧
      some r.dailyTime = d.maxDailyTime action r.dateTime ↔ r.LatestIn (d.priceRows action) := by
  have dates : some r.dateTime = d.maxDateTime action ↔
      ∀ r' ∈ d.priceRows action, r'.dateTime ≤ r.dateTime := by
    rw [eq_comm, maxDateTime, List.max?_eq_some_iff]
    simp only [List.forall_mem_map, and_iff_right_iff_imp]
    exact fun _ => List.mem_map_of_mem mem
  have dailies : some r.dailyTime = d.maxDailyTime action r.dateTime ↔
      ∀ r' ∈ d.priceRows action, r'.dateTime = r.dateTime → r'.dailyTime ≤ r.dailyTime := by
    rw [eq_comm, maxDailyTime, List.max?_eq_some_iff]
    simp only [List.forall_mem_map, List.mem_filter, decide_eq_true_eq, and_imp,
      and_iff_right_iff_imp]
    exact fun _ => List.mem_map_of_mem (List.mem_filter.mpr ⟨mem, by simp⟩)
  rw [dates, dailies, PriceRow.LatestIn, ← forall₂_and]
  constructor
  · refine fun all => ⟨mem, fun r' mem' earlier => ?_⟩
    have := all r' mem'
    grind [PriceRow.Earlier]
  · rintro ⟨-, last⟩ r' mem'
    have := last r' mem'
    grind [PriceRow.Earlier]

/-- The subquery finds the time of the latest rows. -/
theorem some_latestTime_iff (mem : r ∈ d.priceRows action) :
    some (r.dateTime, r.dailyTime) = d.latestTime action ↔ r.LatestIn (d.priceRows action) := by
  have rows : (d.priceRows action).filter (fun p => some p.dateTime = d.maxDateTime action ∧
      some p.dailyTime = d.maxDailyTime action p.dateTime)
        = (d.priceRows action).filter fun p => p.LatestIn (d.priceRows action) :=
    List.filter_congr fun p mem => decide_eq_decide.mpr (maxima_iff mem)
  rw [latestTime, rows]
  cases latest : (d.priceRows action).filter fun p => p.LatestIn (d.priceRows action) with
  | nil =>
      obtain ⟨r', last⟩ := exists_latest (List.ne_nil_of_mem mem)
      have := List.filter_eq_nil_iff.mp latest r' last.1
      exact absurd (decide_eq_true last) this
  | cons r' rest =>
      have mem' : r' ∈ (d.priceRows action).filter fun p => p.LatestIn (d.priceRows action) :=
        latest ▸ List.mem_cons_self
      obtain ⟨noted, last⟩ := (List.mem_filter.mp mem').2 |> of_decide_eq_true
      simp only [List.map_cons, List.head?_cons, Option.some.injEq, Prod.mk.injEq]
      constructor
      · rintro ⟨date, daily⟩
        refine ⟨mem, fun r'' mem'' earlier => last r'' mem'' ?_⟩
        rwa [PriceRow.Earlier, ← date, ← daily]
      · rintro ⟨-, last'⟩
        have := last r mem
        have := last' r' noted
        grind [PriceRow.Earlier]

theorem mem_latestRows : r ∈ d.latestRows action ↔ r.LatestIn (d.priceRows action) := by
  rw [latestRows, List.mem_filter, decide_eq_true_eq]
  exact ⟨fun ⟨mem, latest⟩ => (some_latestTime_iff mem).mp latest,
    fun latest => ⟨latest.1, (some_latestTime_iff latest.1).mpr latest⟩⟩

/-- The price of the only latest row is the current one. -/
theorem currentPrice_of_latestRows (only : d.latestRows action = [r]) :
    d.getActionCurrentPrice env action = r.price := by
  have mem : r ∈ d.latestRows action := only ▸ List.mem_cons_self
  have some : d.priceRows action ≠ [] := List.ne_nil_of_mem (mem_latestRows.mp mem).1
  obtain ⟨r', latest, price⟩ := exists_latestIn env some
  rw [← mem_latestRows, only, List.mem_singleton] at latest
  rw [price, latest]

end

/-! ### Each position once -/

/-- A position of a client counts once: its action exists and has one latest price row, and its
quantity can be read. -/
structure Database.CountsOnce (d : Database) (cp : PortfolioRow) : Prop where
  known : (d.actions.find cp.actionId).isSome
  single : (d.latestRows cp.actionId).length = 1
  fits : -2 ^ 31 ≤ cp.quantity ∧ cp.quantity < 2 ^ 31

section

variable {env : Env} {d : Database} {client : ID} {cp : PortfolioRow}

/-- Repeated elements are each there once only if none is repeated. -/
theorem flatMap_replicate_perm_iff {α κ : Type} [DecidableEq κ] {key : α → κ} {n : α → ℕ}
    {as : List α} (distinct : (as.map key).Nodup) :
    (as.flatMap fun a => List.replicate (n a) (key a)).Perm (as.map key) ↔ ∀ a ∈ as, n a = 1 := by
  constructor
  · intro same a mem
    have once : (as.map key).count (key a) = 1 :=
      List.count_eq_one_of_mem distinct (List.mem_map_of_mem mem)
    have count : ((as.flatMap fun a => List.replicate (n a) (key a)).count (key a)) = n a := by
      clear same once
      induction as with
      | nil => cases mem
      | cons b as ih =>
          obtain ⟨fresh, distinct⟩ := List.nodup_cons.mp distinct
          rw [List.flatMap_cons, List.count_append, List.count_replicate]
          rcases List.mem_cons.mp mem with rfl | mem
          · have none : (as.flatMap fun a => List.replicate (n a) (key a)).count (key a) = 0 := by
              refine List.count_eq_zero.mpr fun here => fresh ?_
              obtain ⟨b, mem, here⟩ := List.mem_flatMap.mp here
              exact (List.eq_of_mem_replicate here) ▸ List.mem_map_of_mem mem
            simp [none]
          · have other : key b ≠ key a := fun eq => fresh (eq ▸ List.mem_map_of_mem mem)
            simp [other, ih distinct mem]
    rw [← count, same.count_eq, once]
  · intro once
    have single : (as.flatMap fun a => List.replicate (n a) (key a))
        = as.flatMap fun a => [key a] :=
      List.flatMap_congr fun a mem => by rw [once a mem]; rfl
    rw [single, ← List.map_eq_flatMap]

/-- What the query joins a position with. -/
def Database.joined (d : Database) (cp : PortfolioRow) : List PortfolioLine :=
  if (d.actions.find cp.actionId).isSome then
    (d.latestRows cp.actionId).map fun p =>
      ⟨cp.actionId, cp.quantity, p.price, p.dateTime, p.dailyTime⟩
  else []

theorem portfolioLines_perm (client : ID) (d : Database) :
    (d.portfolioLines client).Perm ((d.holdings client).flatMap d.joined) := by
  refine (List.perm_insertionSort _ _).trans (.of_eq (List.flatMap_congr fun cp _ => ?_))
  rw [Relation.select_key, Database.joined]
  cases found : d.actions.find cp.actionId with
  | none => rfl
  | some a =>
      have key : a.actionId = cp.actionId := (Relation.find_some_iff.mp found).2
      simp [key]

theorem mem_portfolioLines {line : PortfolioLine} : line ∈ d.portfolioLines client ↔
    ∃ cp ∈ d.holdings client, line ∈ d.joined cp := by
  rw [(portfolioLines_perm client d).mem_iff, List.mem_flatMap]

theorem quantity_of_mem_joined {line : PortfolioLine} (mem : line ∈ d.joined cp) :
    line.quantity = cp.quantity := by
  unfold Database.joined at mem
  split at mem
  · obtain ⟨p, -, rfl⟩ := List.mem_map.mp mem
    rfl
  · cases mem

theorem length_joined_eq_one_iff : (d.joined cp).length = 1 ↔
    (d.actions.find cp.actionId).isSome ∧ (d.latestRows cp.actionId).length = 1 := by
  unfold Database.joined
  split
  · rename_i known
    simp [known]
  · rename_i unknown
    simp [unknown]

theorem nodup_holdings (client : ID) (d : Database) :
    ((d.holdings client).map PortfolioRow.actionId).Nodup := by
  have keys : ((d.holdings client).map PortfolioRow.key).Nodup :=
    d.clientPortfolio.unique.sublist (List.filter_sublist.map _)
  have own : (d.holdings client).map PortfolioRow.key
      = ((d.holdings client).map PortfolioRow.actionId).map (Prod.mk client) := by
    rw [List.map_map]
    refine List.map_congr_left fun cp mem => ?_
    have here : cp.clientId = client := of_decide_eq_true (List.mem_filter.mp mem).2
    rw [PortfolioRow.key, here]
    rfl
  rw [own] at keys
  exact keys.of_map _

/-- **Each action is listed once** if and only if it exists and has one latest row. -/
theorem listed_once_iff : ((d.portfolioLines client).map PortfolioLine.action).Perm
      ((d.holdings client).map PortfolioRow.actionId) ↔
    ∀ cp ∈ d.holdings client, (d.joined cp).length = 1 := by
  have lines : ((d.portfolioLines client).map PortfolioLine.action).Perm
      ((d.holdings client).flatMap fun cp =>
        List.replicate (d.joined cp).length cp.actionId) := by
    refine ((portfolioLines_perm client d).map _).trans (.of_eq ?_)
    rw [List.map_flatMap]
    refine List.flatMap_congr fun cp _ => List.eq_replicate_iff.mpr ⟨by simp, ?_⟩
    unfold Database.joined
    split <;> simp
  rw [← flatMap_replicate_perm_iff (nodup_holdings client d)]
  exact ⟨lines.symm.trans, lines.trans⟩

/-- The row of a position that counts once. -/
def Database.lineOf (d : Database) (cp : PortfolioRow) : PortfolioLine where
  action := cp.actionId
  quantity := cp.quantity
  price := ((d.latestRows cp.actionId).head?.map PriceRow.price).getD 0
  dateTime := ((d.latestRows cp.actionId).head?.map PriceRow.dateTime).getD 0
  dailyTime := ((d.latestRows cp.actionId).head?.map PriceRow.dailyTime).getD 0

/-- The query joins it with one price row, the current price. -/
theorem joined_eq_lineOf (once : d.CountsOnce cp) : d.joined cp = [d.lineOf cp] := by
  obtain ⟨r, only⟩ := List.length_eq_one_iff.mp once.single
  rw [Database.joined, if_pos once.known, Database.lineOf, only]
  rfl

theorem price_lineOf (env : Env) (once : d.CountsOnce cp) :
    (d.lineOf cp).price = d.getActionCurrentPrice env cp.actionId := by
  obtain ⟨r, only⟩ := List.length_eq_one_iff.mp once.single
  rw [Database.lineOf, only, currentPrice_of_latestRows only]
  rfl

/-- If all positions count once, they are the rows of the query. -/
theorem portfolioLines_eq (once : ∀ cp ∈ d.holdings client, d.CountsOnce cp) :
    d.portfolioLines client = (d.positions client).map d.lineOf := by
  have joined : ((d.holdings client).flatMap fun cp =>
      (d.actions.select fun a => a.actionId = cp.actionId).flatMap fun a =>
        (d.latestRows cp.actionId).map fun p =>
          ⟨a.actionId, cp.quantity, p.price, p.dateTime, p.dailyTime⟩)
      = (d.holdings client).map d.lineOf := by
    rw [List.map_eq_flatMap]
    refine List.flatMap_congr fun cp mem => ?_
    rw [Relation.select_key, ← joined_eq_lineOf (once cp mem), Database.joined]
    cases found : d.actions.find cp.actionId with
    | none => rfl
    | some a =>
        have key : a.actionId = cp.actionId := (Relation.find_some_iff.mp found).2
        simp [key]
  rw [Database.portfolioLines, joined, Database.positions]
  exact (List.map_insertionSort (fun cp cp' : PortfolioRow => cp.actionId ≤ cp'.actionId)
    (fun line line' : PortfolioLine => line.action ≤ line'.action) d.lineOf _
    fun _ _ _ _ => Iff.rfl).symm

variable {V : Type} {text : ℚ → ℚ} {amounts : Amounts V}

/-- A portfolio is listed and read only if each position counts once. -/
theorem countsOnce_of_read {info : PortfolioInfo V}
    (read : d.getPortfolioInfoText client text amounts = .ok info)
    (listed : (info.lines.map PortfolioLine.action).Perm
      ((d.holdings client).map PortfolioRow.actionId)) :
    ∀ cp ∈ d.holdings client, d.CountsOnce cp := by
  intro cp mem
  unfold Database.getPortfolioInfoText at read
  split at read
  · rename_i fits
    obtain rfl := Except.ok.inj read
    simp only [Database.readLines, List.map_map] at listed fits
    have one := listed_once_iff.mp listed cp mem
    obtain ⟨known, single⟩ := length_joined_eq_one_iff.mp one
    obtain ⟨line, only⟩ := List.length_eq_one_iff.mp one
    have here : line ∈ d.joined cp := only ▸ List.mem_cons_self
    have range := fits _ (List.mem_map_of_mem (mem_portfolioLines.mpr ⟨cp, mem, here⟩))
    rw [PortfolioLine.read, quantity_of_mem_joined here] at range
    exact ⟨known, single, range⟩
  · cases read

/-- **The portfolio of a client** is right if each of his positions counts once and the prices
read back. -/
theorem portfolio_of_once (env : Env) (once : ∀ cp ∈ d.holdings client, d.CountsOnce cp)
    (readBack : ∀ cp ∈ d.holdings client, ∀ r ∈ d.latestRows cp.actionId,
      text r.price = r.price) :
    ∃ info, d.getPortfolioInfoText client text amounts = .ok info ∧
      (info.lines.map PortfolioLine.action).Perm ((d.holdings client).map PortfolioRow.actionId) ∧
      info.value = ((d.positions client).map fun cp =>
        amounts.times cp.quantity (d.getActionCurrentPrice env cp.actionId)).foldl
          amounts.add amounts.zero := by
  have held : ∀ cp ∈ d.positions client, cp ∈ d.holdings client :=
    fun cp mem => (List.perm_insertionSort _ _).mem_iff.mp mem
  have same : d.readLines client text = (d.positions client).map d.lineOf := by
    rw [Database.readLines, portfolioLines_eq once, List.map_map]
    refine List.map_congr_left fun cp mem => ?_
    obtain ⟨r, only⟩ := List.length_eq_one_iff.mp (once cp (held cp mem)).single
    have back := readBack cp (held cp mem) r (only ▸ List.mem_cons_self)
    simp only [Function.comp_apply, PortfolioLine.read, Database.lineOf, only]
    exact congrArg (PortfolioLine.mk _ _ · _ _) back
  have fits : ∀ line ∈ d.readLines client text,
      -2 ^ 31 ≤ line.quantity ∧ line.quantity < 2 ^ 31 := by
    rw [same]
    exact List.forall_mem_map.mpr fun cp mem => (once cp (held cp mem)).fits
  refine ⟨_, if_pos fits, ?_, ?_⟩
  · rw [Database.readLines, List.map_map]
    exact listed_once_iff.mpr fun cp mem =>
      length_joined_eq_one_iff.mpr ⟨(once cp mem).known, (once cp mem).single⟩
  · simp only [same, List.map_map]
    refine congrArg (List.foldl _ _) (List.map_congr_left fun cp mem => ?_)
    rw [Function.comp_apply, price_lineOf env (once cp (held cp mem))]
    rfl

end

/-! ### The market -/

section

variable {env : Env} {d : Database}

/-- What adds nothing can be left out. -/
theorem Amounts.Lawful.sum_zeros {V : Type} {amounts : Amounts V} (lawful : amounts.Lawful)
    (vs ws : List V) : ∀ {zeros : List V}, (∀ v ∈ zeros, v = amounts.zero) →
      amounts.sum (vs ++ (zeros ++ ws)) = amounts.sum (vs ++ ws)
  | [], _ => rfl
  | v :: zeros, all => by
      obtain ⟨first, later⟩ := List.forall_mem_cons.mp all
      rw [first, List.cons_append, lawful.sum_zero]
      exact lawful.sum_zeros vs ws later

/-- A sum in which each element adds its own amount, or nothing. -/
theorem Amounts.Lawful.sum_flatMap {V α : Type} {amounts : Amounts V} (lawful : amounts.Lawful)
    {f : α → List V} {g : α → V} : ∀ {as : List α} (vs : List V),
      (∀ a ∈ as, f a = [g a] ∨ g a = amounts.zero ∧ ∀ v ∈ f a, v = amounts.zero) →
      amounts.sum (vs ++ as.flatMap f) = amounts.sum (vs ++ as.map g)
  | [], _, _ => rfl
  | a :: as, vs, parts => by
      obtain ⟨first, later⟩ := List.forall_mem_cons.mp parts
      rw [List.flatMap_cons, List.map_cons]
      rcases first with single | ⟨none, zeros⟩
      · have rest := lawful.sum_flatMap (vs ++ [g a]) later
        rw [single]
        simpa using rest
      · rw [lawful.sum_zeros vs _ zeros, none, lawful.sum_zero]
        exact lawful.sum_flatMap vs later

/-- **The market value** is right if every action that there is something of has one latest
price row. -/
theorem marketValue_of_once {V : Type} {amounts : Amounts V} (lawful : amounts.Lawful) (env : Env)
    (once : ∀ a ∈ d.actions.rows, a.quantity = 0 ∨ (d.latestRows a.actionId).length = 1) :
    d.getMarketValue amounts = amounts.sum (d.actions.rows.map fun a =>
      amounts.times a.quantity (d.getActionCurrentPrice env a.actionId)) := by
  refine lawful.sum_flatMap [] fun a mem => ?_
  rcases once a mem with nothing | single
  · refine .inr ⟨by rw [nothing, lawful.times_zero], fun v here => ?_⟩
    obtain ⟨p, -, rfl⟩ := List.mem_map.mp here
    rw [nothing, lawful.times_zero]
  · obtain ⟨r, only⟩ := List.length_eq_one_iff.mp single
    rw [only, currentPrice_of_latestRows only]
    exact .inl rfl

/-- Sums of which no part is less are equal only if all parts are. -/
theorem eq_of_sum_eq {α : Type} {f g : α → ℚ} {as : List α} (le : ∀ a ∈ as, f a ≤ g a)
    (same : (as.map f).sum = (as.map g).sum) : ∀ a ∈ as, f a = g a := by
  induction as with
  | nil => exact fun _ mem => absurd mem List.not_mem_nil
  | cons a as ih =>
      obtain ⟨first, later⟩ := List.forall_mem_cons.mp le
      simp only [List.map_cons, List.sum_cons] at same
      have rest := List.sum_le_sum later
      refine List.forall_mem_cons.mpr ⟨by linarith, ih later (by linarith)⟩

/-- One of some positive prices is their sum only if it is the only one. -/
theorem price_eq_sum_iff {r : PriceRow} {rows : List PriceRow} (mem : r ∈ rows)
    (positive : ∀ r ∈ rows, 0 < r.price) :
    r.price ≤ (rows.map PriceRow.price).sum ∧
      (r.price = (rows.map PriceRow.price).sum ↔ rows.length = 1) := by
  obtain ⟨front, back, rfl⟩ := List.append_of_mem mem
  have others : ∀ r' ∈ front ++ back, 0 < r'.price := fun r' mem' => positive r' (by
    rcases List.mem_append.mp mem' with here | here <;> simp [here])
  have sum : ((front ++ r :: back).map PriceRow.price).sum
      = r.price + ((front ++ back).map PriceRow.price).sum := by
    simp only [List.map_append, List.map_cons, List.sum_append, List.sum_cons]
    ring
  have length : (front ++ r :: back).length = (front ++ back).length + 1 := by
    simp only [List.length_append, List.length_cons]
    omega
  rw [sum, length, left_eq_add, Nat.add_eq_right]
  cases rest : front ++ back with
  | nil => simp
  | cons r' rows =>
      rw [rest] at others
      obtain ⟨first, later⟩ := List.forall_mem_cons.mp others
      have nonneg : 0 ≤ (rows.map PriceRow.price).sum :=
        List.sum_nonneg (List.forall_mem_map.mpr fun r mem => (later r mem).le)
      have more : 0 < ((r' :: rows).map PriceRow.price).sum := by
        rw [List.map_cons, List.sum_cons]
        linarith
      exact ⟨by linarith, iff_of_false more.ne' (by simp)⟩

/-- What an action adds to the market value. -/
theorem value_latestRows (env : Env) {a : ActionRow} (nonneg : 0 ≤ a.quantity)
    (priced : d.priceRows a.actionId ≠ []) (positive : ∀ r ∈ d.prices, 0 < r.price) :
    (a.quantity : ℚ) * d.getActionCurrentPrice env a.actionId
        ≤ ((d.latestRows a.actionId).map fun p => (a.quantity : ℚ) * p.price).sum ∧
      ((a.quantity : ℚ) * d.getActionCurrentPrice env a.actionId
        = ((d.latestRows a.actionId).map fun p => (a.quantity : ℚ) * p.price).sum ↔
        a.quantity = 0 ∨ (d.latestRows a.actionId).length = 1) := by
  obtain ⟨r, latest, price⟩ := exists_latestIn env priced
  obtain ⟨less, same⟩ := price_eq_sum_iff (mem_latestRows.mpr latest) fun r mem =>
    positive r (mem_priceRows.mp (mem_latestRows.mp mem).1).1
  have cast : (0 : ℚ) ≤ a.quantity := Int.cast_nonneg nonneg
  rw [List.sum_map_mul_left, price]
  refine ⟨mul_le_mul_of_nonneg_left less cast, ?_⟩
  rw [mul_eq_mul_left_iff, same, Int.cast_eq_zero]
  exact Or.comm

/-- Where nothing is rounded, it is right only then. -/
theorem once_of_marketValue (env : Env) (quoted : d.Quoted)
    (stock : ∀ a ∈ d.actions.rows, 0 ≤ a.quantity)
    (same : d.getMarketValue .exact = Amounts.exact.sum (d.actions.rows.map fun a =>
      Amounts.exact.times a.quantity (d.getActionCurrentPrice env a.actionId))) :
    ∀ a ∈ d.actions.rows, a.quantity = 0 ∨ (d.latestRows a.actionId).length = 1 := by
  have value : d.getMarketValue .exact = (d.actions.rows.map fun a =>
      ((d.latestRows a.actionId).map fun p => (a.quantity : ℚ) * p.price).sum).sum := by
    rw [getMarketValue, List.flatMap_def]
    exact List.sum_flatten.trans (by rw [List.map_map]; rfl)
  have part := fun a (mem : a ∈ d.actions.rows) =>
    value_latestRows env (stock a mem) (quoted.listed a mem) quoted.positive
  rw [value, eq_comm] at same
  exact fun a mem => (part a mem).2.mp (eq_of_sum_eq (fun a mem => (part a mem).1) same a mem)

theorem forall_holdings {P : PortfolioRow → Prop} :
    (∀ client, ∀ cp ∈ d.holdings client, P cp) ↔ ∀ cp ∈ d.clientPortfolio.rows, P cp := by
  simp only [holdings, Relation.select, List.mem_filter, decide_eq_true_eq, and_imp]
  exact ⟨fun all cp mem => all _ cp mem rfl, fun all _ cp mem _ => all cp mem⟩

/-- The prices of what is held read back. -/
def Database.ReadsBack (text : ℚ → ℚ) (d : Database) : Prop :=
  ∀ cp ∈ d.clientPortfolio.rows, ∀ r ∈ d.latestRows cp.actionId, text r.price = r.price

/-- **Positions are valued once**, however amounts are rounded, if there is one latest price row
of each action that somebody holds or that the market has something of, every quantity that is
held is an `int`, and the prices of what is held read back. They are only if the positions that
somebody holds count once, and without rounding, where prices are positive, only if the market's
do, too. -/
theorem valued_iff {V : Type} {amounts : Amounts V} (lawful : amounts.Lawful) (text : ℚ → ℚ)
    (env : Env) (d : Database) :
    ((∀ cp ∈ d.clientPortfolio.rows, d.CountsOnce cp) →
        (∀ a ∈ d.actions.rows, a.quantity = 0 ∨ (d.latestRows a.actionId).length = 1) →
        d.ReadsBack text → d.Valued text amounts env) ∧
      (d.Valued text amounts env → ∀ cp ∈ d.clientPortfolio.rows, d.CountsOnce cp) ∧
      (d.Quoted → (∀ a ∈ d.actions.rows, 0 ≤ a.quantity) → d.Valued text .exact env →
        ∀ a ∈ d.actions.rows, a.quantity = 0 ∨ (d.latestRows a.actionId).length = 1) := by
  refine ⟨fun held listed readBack => ⟨fun client => ?_, ?_⟩, fun valued => ?_,
    fun quoted stock valued => once_of_marketValue env quoted stock valued.market⟩
  · exact portfolio_of_once env (forall_holdings.mpr held client) fun cp mem =>
      readBack cp (List.mem_filter.mp mem).1
  · exact marketValue_of_once lawful env listed
  · refine forall_holdings.mp fun client => ?_
    obtain ⟨info, read, listed, -⟩ := valued.portfolio client
    exact countsOnce_of_read read listed

end

/-! ### Two prices in one millisecond -/

theorem run_fixing {price : ℚ} (run : Relation.ReflTransGen (Server.Step countingEnv .stored)
      { market := { db := Database.demo 0 1 } } (demoTaker price)) :
    Relation.ReflTransGen (Server.Step countingEnv .stored)
      { market := { db := Database.demo 0 1 } }
      { demoTaker price with
        market := ((demoTaker price).market.processFixing countingEnv .stored).1 } :=
  run.tail .fixing

/-- A `SUM` that adds one value after the other, without the zeros. -/
def plainSum (vs : List Double) : Double :=
  (vs.filter fun v => v ≠ 0).foldl (· + ·) 0

theorem lawful_plainSum : (Amounts.doubles plainSum).Lawful := by
  refine Amounts.lawful_doubles fun vs ws => ?_
  rw [plainSum, plainSum, List.filter_append, List.filter_append, List.filter_cons_of_neg (by simp)]

/-- A trade at the price of `init` in its millisecond leaves one row. -/
theorem valued_iff_demo :
    ((demoTaker 10).market.processFixing countingEnv .stored).1.db.Valued fifteenDigits
      (.doubles plainSum) countingEnv := by
  refine (valued_iff lawful_plainSum fifteenDigits countingEnv _).1 ?_ (by decide +kernel) ?_
  · have once : ∀ cp ∈ ((demoTaker 10).market.processFixing countingEnv
          .stored).1.db.clientPortfolio.rows,
        (((demoTaker 10).market.processFixing countingEnv .stored).1.db.actions.find
            cp.actionId).isSome ∧
          (((demoTaker 10).market.processFixing countingEnv .stored).1.db.latestRows
            cp.actionId).length = 1 ∧ -2 ^ 31 ≤ cp.quantity ∧ cp.quantity < 2 ^ 31 := by
      decide +kernel
    intro cp mem
    exact ⟨(once cp mem).1, (once cp mem).2.1, (once cp mem).2.2⟩
  · unfold Database.ReadsBack
    decide +kernel

/-- One at 11 leaves two, and the buyer's position is listed and valued twice. -/
theorem listed_twice : ¬∀ (env : Env) (order : IterationOrder ID (List ID)) (d : Database)
    (s : Server), d.Initial → d.Quoted → (∀ a ∈ d.actions.rows, 0 ≤ a.quantity) →
      Relation.ReflTransGen (Server.Step env order) { market := { db := d } } s →
      s.market.db.Valued fifteenDigits (.doubles plainSum) env := by
  intro claim
  have pos : (0 : ℚ) < 11 := by decide +kernel
  have run := run_fixing (run_demoTaker pos)
  have valued := claim countingEnv .stored _ _ (Database.initial_demo 0 1) Server.quoted_demo
    (by decide +kernel) run
  obtain ⟨info, read, listed, -⟩ := valued.portfolio 1
  have twice : ((demoTaker 11).market.processFixing countingEnv .stored).1.db.getPortfolioInfoText 1
      fifteenDigits (.doubles plainSum)
        = .ok ⟨.finite 105, 945, [⟨1, 5, 10, 1, 0⟩, ⟨1, 5, 11, 1, 0⟩]⟩ := by
    decide +kernel
  rw [twice] at read
  obtain rfl := Except.ok.inj read
  have once : ((demoTaker 11).market.processFixing countingEnv .stored).1.db.holdings 1
      = [⟨1, 1, 5⟩] := by
    decide +kernel
  rw [once] at listed
  exact absurd listed.length_eq (by decide)

end StockMarket.Sql
