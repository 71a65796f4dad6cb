import StockMarket.Sql.DateEncoding
import StockMarket.Sql.Valuation

/-!
The times that prices are shown with.

Three displays print the time of a price with `two_times_to_string`: the history of an action,
the market and the portfolio of a client. The queries of the first and the third select the
date before the time of day, that of the market selects them the other way round, and the
columns are passed on by their position. The history passes them as the function takes them,
the other two interchanged. So all three show the latest price of an action with one time only
if its date and its time of day are the same number (`displays_agree_iff`).
-/

namespace StockMarket.Sql

open Database

/-! ### The displays -/

/-- The time of `r` is not after that of `r'`. -/
def PriceRow.NotAfter (r r' : PriceRow) : Prop := ¬r'.Earlier r

instance : DecidableRel PriceRow.NotAfter := fun r r' => by
  unfold PriceRow.NotAfter
  infer_instance

/-- What `get_action_info` prints: each price with the text of its time. -/
structure ActionInfo where
  quantity : Int
  prices : List (ℚ × String)
  deriving DecidableEq

/-- An entry of `get_actions_info`, with the action in the place of its name. -/
structure MarketLine where
  action : ID
  quantity : Int
  price : ℚ
  time : String
  deriving DecidableEq

/-- The time in an entry of `get_portfolio_info`, of its columns 4 and 3. -/
def PortfolioLine.time (line : PortfolioLine) : String :=
  twoTimesToString line.dailyTime line.dateTime

/-- An entry of `get_action_info`. The NULLs of no price are made empty texts, which
`std::stoll` cannot read. -/
def historyEntry : Option PriceRow → Except StdException (ℚ × String)
  | none => .error .invalidArgument
  | some p => .ok (p.price, twoTimesToString p.dateTime p.dailyTime)

namespace Database

variable (action : ID) (d : Database)

/-- `a LEFT JOIN prices p … ORDER BY p.date_time ASC, p.daily_time ASC`, where `none` stands for
the NULLs of an action without prices. -/
def actionHistory (a : ActionRow) : List (Option PriceRow) :=
  match (d.priceRows a.actionId).insertionSort PriceRow.NotAfter with
  | [] => [none]
  | p :: ps => (p :: ps).map some

/-- `Action::get_action_info`, which is empty if there is no such action. -/
def getActionInfo : Except StdException (Option ActionInfo) :=
  match d.actions.find action with
  | none => .ok none
  | some a => do
    let prices ← (d.actionHistory a).mapM historyEntry
    return some ⟨a.quantity, prices⟩

/-- The rows of the query of `get_actions_info`. -/
def actionsInfoRows : List (ID × Int × ℚ × ID × ID) :=
  d.actions.rows.flatMap fun a => (d.latestRows a.actionId).map fun p =>
    (a.actionId, a.quantity, p.price, p.dailyTime, p.dateTime)

/-- `Market::get_actions_info`. -/
def getActionsInfo : List MarketLine :=
  d.actionsInfoRows.map fun (action, quantity, price, column3, column4) =>
    ⟨action, quantity, price, twoTimesToString column3 column4⟩

end Database

/-- The three displays show this time for the price of an action that has no later one. -/
structure Database.ShownAt (d : Database) (action : ID) (time : String) : Prop where
  history : ∃ info price, d.getActionInfo action = .ok (some info) ∧
    info.prices.getLast? = some (price, time)
  market : (∃ line ∈ d.getActionsInfo, line.action = action) ∧
    ∀ line ∈ d.getActionsInfo, line.action = action → line.time = time
  portfolio : ∀ client info, d.getPortfolioInfo client = .ok info →
    ∀ line ∈ info.lines, line.action = action → line.time = time

/-! ### The history -/

theorem PriceRow.notAfter_total : Std.Total PriceRow.NotAfter :=
  ⟨fun r r' => by grind [PriceRow.NotAfter, PriceRow.Earlier]⟩

theorem PriceRow.notAfter_trans : IsTrans PriceRow PriceRow.NotAfter :=
  ⟨fun _ _ _ before before' => PriceRow.not_earlier_trans before' before⟩

section

variable {d : Database} {r r' : PriceRow} {rows : List PriceRow} {a : ActionRow} {time : String}

/-- Two latest rows have the same time. -/
theorem time_of_latestIn (latest : r.LatestIn rows) (latest' : r'.LatestIn rows) :
    r'.dateTime = r.dateTime ∧ r'.dailyTime = r.dailyTime := by
  have later := latest.2 r' latest'.1
  have later' := latest'.2 r latest.1
  grind [PriceRow.Earlier]

/-- The rows in the order of their times end with a latest row. -/
theorem getLast_insertionSort (some : rows ≠ []) :
    ∃ r : PriceRow, (rows.insertionSort PriceRow.NotAfter).getLast? = .some r ∧
      r.LatestIn rows := by
  have total := PriceRow.notAfter_total
  have trans := PriceRow.notAfter_trans
  have sorted := List.pairwise_insertionSort PriceRow.NotAfter rows
  have mem : ∀ {r}, r ∈ rows.insertionSort PriceRow.NotAfter ↔ r ∈ rows :=
    List.mem_insertionSort _
  rcases List.eq_nil_or_concat (rows.insertionSort PriceRow.NotAfter) with nil | ⟨front, r, split⟩
  · obtain ⟨r, here⟩ := List.exists_mem_of_ne_nil rows some
    rw [← mem, nil] at here
    cases here
  · rw [List.concat_eq_append] at split
    rw [split] at sorted mem ⊢
    have last := (List.pairwise_append.mp sorted).2.2
    refine ⟨r, List.getLast?_append_of_ne_nil _ (by simp), mem.mp (by simp), fun r' here => ?_⟩
    rcases List.mem_append.mp (mem.mpr here) with before | same
    · exact last r' before r List.mem_cons_self
    · rw [List.mem_singleton.mp same]
      simp [PriceRow.Earlier]

theorem mapM_historyEntry (rows : List PriceRow) : (rows.map some).mapM historyEntry
    = .ok (rows.map fun p => (p.price, twoTimesToString p.dateTime p.dailyTime)) := by
  induction rows with
  | nil => rfl
  | cons p rows ih =>
      rw [List.map_cons, List.mapM_cons, ih]
      rfl

/-- **The history** shows the latest price last, with its time. -/
theorem history_shows (known : d.actions.find a.actionId = some a)
    (latest : r.LatestIn (d.priceRows a.actionId)) :
    ∃ info price, d.getActionInfo a.actionId = .ok (some info) ∧
      info.prices.getLast? = some (price, twoTimesToString r.dateTime r.dailyTime) := by
  obtain ⟨r', last, latest'⟩ := getLast_insertionSort (List.ne_nil_of_mem latest.1)
  obtain ⟨date, daily⟩ := time_of_latestIn latest latest'
  have history : d.actionHistory a
      = ((d.priceRows a.actionId).insertionSort PriceRow.NotAfter).map some := by
    unfold actionHistory
    cases sorted : (d.priceRows a.actionId).insertionSort PriceRow.NotAfter with
    | nil =>
        rw [sorted] at last
        cases last
    | cons p ps => rfl
  refine ⟨⟨a.quantity, ((d.priceRows a.actionId).insertionSort PriceRow.NotAfter).map fun p =>
    (p.price, twoTimesToString p.dateTime p.dailyTime)⟩, r'.price, ?_, ?_⟩
  · rw [Database.getActionInfo, known]
    simp only [history, mapM_historyEntry]
    rfl
  · rw [List.getLast?_map, last, Option.map_some, date, daily]

/-! ### The market and the portfolios -/

theorem mem_getActionsInfo {line : MarketLine} : line ∈ d.getActionsInfo ↔
    ∃ a ∈ d.actions.rows, ∃ r ∈ d.latestRows a.actionId,
      ⟨a.actionId, a.quantity, r.price, twoTimesToString r.dailyTime r.dateTime⟩ = line := by
  simp only [Database.getActionsInfo, actionsInfoRows, List.map_flatMap, List.map_map,
    List.mem_flatMap, List.mem_map, Function.comp_apply]

/-- **The market** shows the latest price with its times interchanged. -/
theorem market_shows (known : a ∈ d.actions.rows) (latest : r.LatestIn (d.priceRows a.actionId)) :
    (∃ line ∈ d.getActionsInfo, line.action = a.actionId) ∧
      ∀ line ∈ d.getActionsInfo, line.action = a.actionId →
        line.time = twoTimesToString r.dailyTime r.dateTime := by
  constructor
  · exact ⟨_, mem_getActionsInfo.mpr ⟨a, known, r, mem_latestRows.mpr latest, rfl⟩, rfl⟩
  · intro line mem action
    obtain ⟨a', -, r', latest', rfl⟩ := mem_getActionsInfo.mp mem
    have same : a'.actionId = a.actionId := action
    rw [mem_latestRows, same] at latest'
    obtain ⟨date, daily⟩ := time_of_latestIn latest latest'
    simp only [date, daily]

/-- **The portfolios** show it so too. -/
theorem portfolio_shows {action client : ID} {info : PortfolioInfo ℚ}
    (latest : r.LatestIn (d.priceRows action)) (read : d.getPortfolioInfo client = .ok info) :
    ∀ line ∈ info.lines, line.action = action →
      line.time = twoTimesToString r.dailyTime r.dateTime := by
  intro line mem same
  unfold Database.getPortfolioInfo Database.getPortfolioInfoText at read
  split at read
  · obtain rfl := Except.ok.inj read
    obtain ⟨line, here, rfl⟩ := List.mem_map.mp mem
    obtain ⟨cp, -, here⟩ := mem_portfolioLines.mp here
    unfold joined at here
    split at here
    · obtain ⟨r', latest', rfl⟩ := List.mem_map.mp here
      have same : cp.actionId = action := same
      rw [mem_latestRows, same] at latest'
      obtain ⟨date, daily⟩ := time_of_latestIn latest latest'
      rw [← date, ← daily]
      rfl
    · cases here
  · cases read

/-- Both numbers of a time are values of an `int`, as all numbers of the clock and the loader
are. -/
structure PriceRow.OfClock (r : PriceRow) : Prop where
  date : FitsInt32 r.dateTime
  daily : FitsInt32 r.dailyTime

/-- **All displays show the time of the latest price** if and only if its date and its time of
day are the same number. -/
theorem displays_agree_iff (known : a ∈ d.actions.rows)
    (latest : r.LatestIn (d.priceRows a.actionId)) (clock : r.OfClock) :
    d.ShownAt a.actionId (twoTimesToString r.dateTime r.dailyTime) ↔
      r.dateTime = r.dailyTime := by
  obtain ⟨⟨line, mem, action⟩, times⟩ := market_shows known latest
  constructor
  · intro shown
    have same := (shown.market.2 line mem action).symm.trans (times line mem action)
    exact twoTimesToString_inj clock.date clock.daily same
  · intro same
    rw [← same] at times
    refine ⟨?_, ⟨⟨line, mem, action⟩, ?_⟩, ?_⟩
    · exact history_shows (Relation.find_some_iff.mpr ⟨known, rfl⟩) latest
    · rwa [← same]
    · intro client info read
      have shows := portfolio_shows latest read
      rwa [← same] at shows ⊢

end

/-! ### The prices of `init` -/

/-- The only price of the first action. -/
def demoPrice (daily date : ID) : PriceRow := ⟨1, 10, date, daily⟩

theorem latestIn_demoPrice (daily date : ID) :
    (demoPrice daily date).LatestIn ((Database.demo daily date).priceRows 1) := by
  have rows : (Database.demo daily date).priceRows 1 = [demoPrice daily date] := rfl
  rw [rows]
  exact ⟨List.mem_cons_self, by simp [PriceRow.Earlier]⟩

/-- Noted 46580 milliseconds after midnight on 2025-03-18, it is shown with one time. -/
theorem displays_agree_iff_demo :
    (Database.demo 46580 46580).ShownAt 1 (twoTimesToString 46580 46580) :=
  (displays_agree_iff (a := ⟨1, 20⟩) (by decide) (latestIn_demoPrice 46580 46580)
    ⟨by decide, by decide⟩).mpr rfl

/-- Noted at ten o'clock, it is not. -/
theorem displays_interchanged : ¬∀ (d : Database) (a : ActionRow) (r : PriceRow),
    a ∈ d.actions.rows → r.LatestIn (d.priceRows a.actionId) → r.OfClock →
    d.ShownAt a.actionId (twoTimesToString r.dateTime r.dailyTime) := by
  intro claim
  have shown := claim (Database.demo 36000000 46580) ⟨1, 20⟩ (demoPrice 36000000 46580)
    (by decide) (latestIn_demoPrice 36000000 46580) ⟨by decide, by decide⟩
  have listed : (⟨1, 20, 10, "98674-03-10 00:00:46.580"⟩ : MarketLine)
      ∈ (Database.demo 36000000 46580).getActionsInfo := by
    decide +kernel
  have time : "98674-03-10 00:00:46.580" = twoTimesToString 46580 36000000 :=
    shown.market.2 _ listed rfl
  exact absurd time (by decide +kernel)

end StockMarket.Sql
