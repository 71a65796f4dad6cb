import Mathlib.Tactic.Linarith
import StockMarket.Engine.Books
import StockMarket.Market.Report

/-!
The rows of `symbols.csv` against the other files of a report.

`symbols.csv` is computed from snapshots and from the recorded trades, `order_book_final.csv` and
`resting_orders.csv` from the resting orders. Once the threads have finished, the files agree
(`symbols_agree`): a row's best prices and depths are those of the other two files, its low and
high are those of its trades in `trades.csv`, and its average price lies between them.
-/

namespace StockMarket

open Atomic MatchingEngine

/-! ### Low, high and average -/

namespace SymbolStats

variable {P : Type} [LinearOrder P]

theorem lowered_min (price : P) (prices : List P) :
    some (lowered price prices.min?) = (prices ++ [price]).min? := by
  cases prices with
  | nil => rfl
  | cons p prices =>
      rw [List.cons_append, List.min?_cons', List.min?_cons', List.foldl_append]
      exact congrArg some ((min_def_lt _ _).symm.trans (min_comm _ _))

theorem raised_max (price : P) (prices : List P) :
    some (raised price prices.max?) = (prices ++ [price]).max? := by
  cases prices with
  | nil => rfl
  | cons p prices =>
      rw [List.cons_append, List.max?_cons', List.max?_cons', List.foldl_append]
      exact congrArg some (max_def_lt _ _).symm

end SymbolStats

/-- The bounds of some trades, one after the other. -/
theorem foldl_bounds (rows : List (TradeRow ℚ)) :
    let s := rows.foldl (fun s row => SymbolStats.add (· + ·) row.trade s) default
    let prices := rows.map fun row => row.trade.price
    s.low = prices.min? ∧ s.high = prices.max? := by
  induction rows using List.reverseRecOn with
  | nil => exact ⟨rfl, rfl⟩
  | append_singleton rows row ih =>
      obtain ⟨low, high⟩ := ih
      intro s prices
      have split : prices = (rows.map fun row => row.trade.price) ++ [row.trade.price] :=
        List.map_append
      rw [split, ← SymbolStats.lowered_min, ← SymbolStats.raised_max, ← low, ← high]
      simp only [s, List.foldl_append]
      exact ⟨rfl, rfl⟩

/-- An average lies between the bounds of what it is taken of. -/
theorem average_between {α : Type} (weight value : α → ℚ) {items : List α}
    (pos : ∀ a ∈ items, 0 < weight a) (some : items ≠ []) {low high : ℚ}
    (bounds : ∀ a ∈ items, low ≤ value a ∧ value a ≤ high) :
    let average := (items.map fun a => weight a * value a).sum / (items.map weight).sum
    low ≤ average ∧ average ≤ high := by
  have total : 0 < (items.map weight).sum := by
    refine List.sum_pos _ (fun w mem => ?_) fun none => some (List.map_eq_nil_iff.mp none)
    obtain ⟨a, ha, rfl⟩ := List.mem_map.mp mem
    exact pos a ha
  constructor
  · rw [le_div_iff₀ total, ← List.sum_map_mul_left]
    refine List.sum_le_sum fun a ha => ?_
    rw [mul_comm]
    exact mul_le_mul_of_nonneg_left (bounds a ha).1 (pos a ha).le
  · rw [div_le_iff₀ total, ← List.sum_map_mul_left]
    refine List.sum_le_sum fun a ha => ?_
    rw [mul_comm high]
    exact mul_le_mul_of_nonneg_left (bounds a ha).2 (pos a ha).le

/-! ### The files of a report -/

/-- The trades of a symbol in `trades.csv`. -/
def Report.tradesOf (report : Report ℚ) (symbol : Symbol) : List (Trade ℚ) :=
  (report.trades.map TradeRow.trade).filter fun t => t.symbol = symbol

/-- The levels of a side of a symbol in `order_book_final.csv`. -/
def Report.levelsOf (report : Report ℚ) (symbol : Symbol) (s : Side) : List (BookRow ℚ) :=
  (report.orderBookFinal.filter fun level => level.symbol = symbol).filter fun level =>
    level.side = s

/-- The orders of a side of a symbol in `resting_orders.csv`. -/
def Report.ordersOf (report : Report ℚ) (symbol : Symbol) (s : Side) : List (Order ℚ) :=
  (report.restingOrders.filter fun o => o.symbol = symbol).filter fun o => o.side = s

/-- The best price of a side. -/
def SymbolRow.best (row : SymbolRow ℚ) : Side → Option ℚ
  | .buy => row.bestBid
  | .sell => row.bestAsk

/-- The depth of a side. -/
def SymbolRow.depth (row : SymbolRow ℚ) : Side → Int
  | .buy => row.bidDepth
  | .sell => row.askDepth

/-- A row of `symbols.csv` agrees with the rows of the other files. -/
structure SymbolRow.Agrees (report : Report ℚ) (row : SymbolRow ℚ) : Prop where
  low : row.low = ((report.tradesOf row.symbol).map Trade.price).min?
  high : row.high = ((report.tradesOf row.symbol).map Trade.price).max?
  average : ∀ vwap, row.vwap = some vwap → ∃ low high, row.low = some low ∧ row.high = some high ∧
    low ≤ vwap ∧ vwap ≤ high
  best : ∀ s, row.best s = (report.levelsOf row.symbol s).head?.map BookRow.price
  levels : ∀ s, row.depth s = ((report.levelsOf row.symbol s).map BookRow.quantity).sum
  orders : ∀ s, row.depth s = totalQuantity (report.ordersOf row.symbol s)
  spread : ∀ spread, row.spread = some spread → 0 < spread
  imbalance : row.imbalance ≤ 1 ∧ -1 ≤ row.imbalance

/-! ### A book in the files -/

section

variable {P : Type} [LinearOrder P] {b : OrderBook P}

omit [LinearOrder P] in
theorem OrderBook.Sided.filter_own (sided : b.Sided) :
    ∀ s, (b.restingOrders.filter fun o => o.side = s) = restingIn (b.levels s)
  | .buy => sided.filter_side.1
  | .sell => by
      refine Eq.trans (List.filter_congr fun o _ => ?_) sided.filter_side.2
      cases o.side <;> rfl

/-- The rows of a side are its levels. -/
theorem BookInvariant.filter_rows (inv : BookInvariant b) (s : Side) :
    ((orderBookFinal (· + ·) b.symbol b.restingOrders).filter fun row => row.side = s)
      = (b.levels s).map (Level.row (· + ·) b.symbol s) := by
  have own (s : Side) (ls : List (Level P)) :
      ((ls.map (Level.row (· + ·) b.symbol s)).filter fun row => row.side = s)
        = ls.map (Level.row (· + ·) b.symbol s) := by
    refine List.filter_eq_self.mpr fun row mem => ?_
    obtain ⟨l, -, rfl⟩ := List.mem_map.mp mem
    exact decide_eq_true rfl
  have other (s s' : Side) (ne : s ≠ s') (ls : List (Level P)) :
      ((ls.map (Level.row (· + ·) b.symbol s)).filter fun row => row.side = s') = [] := by
    refine List.filter_eq_nil_iff.mpr fun row mem => ?_
    obtain ⟨l, -, rfl⟩ := List.mem_map.mp mem
    exact fun same => ne (of_decide_eq_true same)
  rw [orderBookFinal_restingOrders inv.wellFormed inv.ownSide, List.filter_append]
  cases s with
  | buy => rw [own, other .sell .buy (by decide), List.append_nil, OrderBook.levels]
  | sell => rw [own, other .buy .sell (by decide), List.nil_append, OrderBook.levels]

/-- There are no more levels than orders. -/
theorem LevelsWF.length_le {s : Side} {ls : List (Level P)} (wf : LevelsWF s ls) :
    ls.length ≤ (restingIn ls).length := by
  have nonempty := wf.nonempty
  clear wf
  induction ls with
  | nil => exact Nat.le_refl 0
  | cons l ls ih =>
      obtain ⟨first, others⟩ := List.forall_mem_cons.mp nonempty
      have one := List.length_pos_iff.mpr first
      have rest := ih others
      rw [restingIn_cons, List.length_append, List.length_cons]
      omega

/-- A snapshot of all levels. -/
theorem BookInvariant.snapshot_all (inv : BookInvariant b) {depth : Nat}
    (fits : b.restingOrders.length ≤ depth) : b.snapshot (· + ·) depth
      = ⟨b.bids.map (Level.shown (· + ·)), b.asks.map (Level.shown (· + ·))⟩ := by
  have bids : b.bids.length ≤ (restingIn b.bids).length := (inv.wellFormed .buy).length_le
  have asks : b.asks.length ≤ (restingIn b.asks).length := (inv.wellFormed .sell).length_le
  rw [OrderBook.restingOrders, List.length_append] at fits
  rw [OrderBook.snapshot_eq, List.take_of_length_le (by omega), List.take_of_length_le (by omega)]

omit [LinearOrder P] in
theorem depthOf_shown (ls : List (Level P)) :
    BookSnapshot.depthOf (· + ·) (ls.map (Level.shown (· + ·))) = totalQuantity (restingIn ls) := by
  rw [BookSnapshot.depthOf, foldl_add, Int.zero_add, sum_shown]

end

/-! ### The report of a finished run -/

section

variable {setup : List (SetupCall ℚ)} {x : Recorded ℚ} {last : ReportTick ℚ} {report : Report ℚ}

/-- The other files on a symbol of the report. -/
theorem Ended.files (ended : Ended setup x) (inv : ∀ s, BookInvariant (x.engine.bookFor s))
    (written : Written last x report) {symbol : Symbol} (mem : symbol ∈ last.listed x.engine)
    (s : Side) :
    report.levelsOf symbol s = ((x.engine.bookFor symbol).levels s).map
    (Level.row (· + ·) symbol s) ∧
      report.ordersOf symbol s = restingIn ((x.engine.bookFor symbol).levels s) := by
  have nodup : (last.listed x.engine).Nodup :=
    (ended.perm_listed last).nodup_iff.mpr (AList.keys_nodup _)
  have known : symbol ∈ x.engine.books := (ended.steady.symbols symbol).mpr
    (AList.mem_keys.mpr ((ended.perm_listed last).subset mem))
  have book := ended.engine.book symbol
  have resting : x.engine.restingOrders symbol = (x.engine.bookFor symbol).restingOrders :=
    if_pos (decide_eq_true known)
  constructor
  · have rows := Table.filter_flatMap BookRow.symbol
      (fun s => orderBookFinal (· + ·) s (x.engine.restingOrders s))
        (fun s row here => ?_) nodup mem
    · rw [Report.levelsOf, written.books, rows, resting]
      have sides := (inv symbol).filter_rows s
      rwa [book.symbol] at sides
    · rcases List.mem_append.mp here with side | side <;>
        · obtain ⟨e, -, rfl⟩ := List.mem_map.mp side
          rfl
  · have orders := Table.filter_flatMap Order.symbol x.engine.restingOrders (fun s o here => ?_)
      nodup mem
    · rw [Report.ordersOf, written.orders, orders, resting]
      exact OrderBook.Sided.filter_own (inv symbol).ownSide s
    · rw [restingOrders] at here
      split at here
      · obtain ⟨t, side⟩ := mem_restingOrders.mp here
        exact ((ended.engine.book s).own t o side).2.1
      · cases here

/-- The snapshot of a symbol of the report shows all levels. -/
theorem Ended.snapshot (ended : Ended setup x) (inv : ∀ s, BookInvariant (x.engine.bookFor s))
    (fits : ∀ s, (x.engine.restingOrders s).length ≤ Report.unlimited) {symbol : Symbol}
    (mem : symbol ∈ last.listed x.engine) :
    x.engine.snapshot (· + ·) symbol Report.unlimited
      = ⟨(x.engine.bookFor symbol).bids.map (Level.shown (· + ·)),
        (x.engine.bookFor symbol).asks.map (Level.shown (· + ·))⟩ := by
  have known : x.engine.symbolExists symbol = true := decide_eq_true
    ((ended.steady.symbols symbol).mpr (AList.mem_keys.mpr ((ended.perm_listed last).subset mem)))
  have short := fits symbol
  rw [restingOrders, if_pos known] at short
  rw [MatchingEngine.snapshot, if_pos known]
  exact (inv symbol).snapshot_all short

/-- An imbalance is a part of the whole. -/
theorem imbalance_between {bid ask : Int} (hbid : 0 ≤ bid) (hask : 0 ≤ ask) :
    let imbalance : ℚ :=
      if 0 < ((bid + ask : Int) : ℚ) then ((bid : ℚ) - (ask : ℚ)) / ((bid + ask : Int) : ℚ) else 0
    imbalance ≤ 1 ∧ -1 ≤ imbalance := by
  intro imbalance
  have bid' : (0 : ℚ) ≤ bid := Int.cast_nonneg hbid
  have ask' : (0 : ℚ) ≤ ask := Int.cast_nonneg hask
  by_cases some : 0 < ((bid + ask : Int) : ℚ)
  · have value : imbalance = ((bid : ℚ) - ask) / ((bid + ask : Int) : ℚ) := if_pos some
    rw [value, le_div_iff₀ some, div_le_iff₀ some, Int.cast_add]
    constructor <;> linarith
  · have value : imbalance = 0 := if_neg some
    rw [value]
    constructor <;> linarith

/-- Low, high and average of a symbol's row. -/
theorem statsOf_between (rows : List (TradeRow ℚ)) (pos : ∀ row ∈ rows, 0 < row.trade.quantity)
    (symbol : Symbol) :
    let s := ((Report.statsOf (· + ·) rows).lookup symbol).getD default
    let prices := ((rows.map TradeRow.trade).filter fun t => t.symbol = symbol).map Trade.price
    (if 0 < s.trades then s.low else none) = prices.min? ∧
      (if 0 < s.trades then s.high else none) = prices.max? ∧
      (0 < s.trades → ∃ low high, prices.min? = some low ∧ prices.max? = some high ∧
        low ≤ s.notional / (s.volume : ℚ) ∧ s.notional / (s.volume : ℚ) ≤ high) := by
  intro s prices
  let own := rows.filter fun row => row.trade.symbol = symbol
  have same : prices = own.map fun row => row.trade.price := by
    simp only [prices, own, List.filter_map, List.map_map]
    rfl
  have fold : s = own.foldl (fun s row => SymbolStats.add (· + ·) row.trade s) default :=
    Table.lookup_foldl_update (fun row : TradeRow ℚ => row.trade.symbol) default
      (fun row => SymbolStats.add (· + ·) row.trade) symbol rows ∅
  have sums : s.trades = own.length ∧ s.volume = (own.map fun row => row.trade.quantity).sum ∧
      s.notional = (own.map fun row => (row.trade.quantity : ℚ) * row.trade.price).sum :=
    lookup_statsOf rows symbol
  obtain ⟨number, volume, notional⟩ := sums
  obtain ⟨low, high⟩ := foldl_bounds own
  rw [← fold, ← same] at low high
  have none_iff : ¬ 0 < s.trades → prices = [] := by
    intro zero
    have empty : own.length = 0 := number.symm.trans (Nat.eq_zero_of_not_pos zero)
    rw [same, List.eq_nil_of_length_eq_zero empty, List.map_nil]
  refine ⟨?_, ?_, ?_⟩
  · split
    · exact low
    · rename_i zero
      rw [none_iff zero, List.min?_nil]
  · split
    · exact high
    · rename_i zero
      rw [none_iff zero, List.max?_nil]
  · intro some
    have items : own ≠ [] := by
      intro empty
      rw [number, empty] at some
      exact absurd some (Nat.lt_irrefl 0)
    have priced : prices ≠ [] := by
      rw [same]
      exact fun empty => items (List.map_eq_nil_iff.mp empty)
    obtain ⟨l, hl⟩ := Option.ne_none_iff_exists'.mp (mt List.min?_eq_none_iff.mp priced)
    obtain ⟨h, hh⟩ := Option.ne_none_iff_exists'.mp (mt List.max?_eq_none_iff.mp priced)
    refine ⟨l, h, hl, hh, ?_⟩
    have bounds : ∀ row ∈ own, l ≤ row.trade.price ∧ row.trade.price ≤ h := by
      intro row mem
      have price : row.trade.price ∈ prices := same ▸ List.mem_map_of_mem mem
      exact ⟨(List.le_min?_iff hl).mp le_rfl _ price, (List.max?_le_iff hh).mp le_rfl _ price⟩
    have weights : ∀ row ∈ own, (0 : ℚ) < (row.trade.quantity : ℚ) :=
      fun row mem => Int.cast_pos.mpr (pos row (List.mem_of_mem_filter mem))
    have between := average_between (fun row : TradeRow ℚ => (row.trade.quantity : ℚ))
      (fun row => row.trade.price) weights items bounds
    have total : (((own.map fun row => row.trade.quantity).sum : Int) : ℚ)
        = (own.map fun row => (row.trade.quantity : ℚ)).sum := by
      rw [Int.cast_list_sum, List.map_map]
      rfl
    rw [notional, volume, total]
    exact between

/-- **A row agrees with the other files.** -/
theorem Ended.agrees (ended : Ended setup x) (inv : ∀ s, BookInvariant (x.engine.bookFor s))
    (written : Written last x report)
    (fits : ∀ s, (x.engine.restingOrders s).length ≤ Report.unlimited) {row : SymbolRow ℚ}
    (mem : row ∈ report.symbols) : row.Agrees report := by
  rw [written.symbols] at mem
  obtain ⟨symbol, listed, rfl⟩ := List.mem_map.mp mem
  have files := ended.files inv written listed
  have traded : ∀ row ∈ (x.last last).trades, 0 < row.trade.quantity := fun row mem =>
    ended.positive row.trade ((ended.trades last).subset (List.mem_map_of_mem mem))
  obtain ⟨low, high, average⟩ := statsOf_between (x.last last).trades traded symbol
  have trades : (report.trades.map TradeRow.trade).filter (fun t => t.symbol = symbol)
      = ((x.last last).trades.map TradeRow.trade).filter fun t => t.symbol = symbol := by
    rw [written.trades]
  have nonneg (s : Side) : 0 ≤ totalQuantity (restingIn ((x.engine.bookFor symbol).levels s)) :=
    totalQuantity_nonneg fun o mem =>
      (ended.engine.book symbol).positive o (mem_restingOrders.mpr ⟨s, mem⟩)
  rw [ended.snapshot inv fits listed]
  generalize ((Report.statsOf (· + ·) (x.last last).trades).lookup symbol).getD default = stats
    at low high average ⊢
  rw [← trades] at low high average
  constructor
  case low => exact low
  case high => exact high
  case average =>
    intro vwap shown
    by_cases some : 0 < stats.trades
    · change (if 0 < stats.trades then _ else none) = _ at shown
      obtain ⟨l, h, hl, hh, between⟩ := average some
      rw [if_pos some] at shown
      obtain rfl := Option.some.inj shown
      exact ⟨l, h, low.trans hl, high.trans hh, between⟩
    · change (if 0 < stats.trades then _ else none) = _ at shown
      rw [if_neg some] at shown
      cases shown
  case best =>
    intro s
    change _ = (report.levelsOf symbol s).head?.map BookRow.price
    rw [(files s).1, List.head?_map, Option.map_map]
    cases s <;>
      · change ((List.map _ _).head?.map _) = _
        rw [List.head?_map, Option.map_map]
        rfl
  case levels =>
    intro s
    change _ = ((report.levelsOf symbol s).map BookRow.quantity).sum
    rw [(files s).1, List.map_map]
    cases s <;> exact (depthOf_shown _).trans (by rw [← sum_shown, List.map_map]; rfl)
  case orders =>
    intro s
    change _ = totalQuantity (report.ordersOf symbol s)
    rw [(files s).2]
    cases s <;> exact depthOf_shown _
  case spread =>
    intro spread shown
    obtain ⟨ask, hask, shown⟩ := Option.bind_eq_some_iff.mp shown
    obtain ⟨bid, hbid, rfl⟩ := Option.map_eq_some_iff.mp shown
    rw [List.head?_map, Option.map_map] at hask hbid
    exact sub_pos.mpr ((inv symbol).best_lt hbid hask)
  case imbalance =>
    exact @imbalance_between (BookSnapshot.depthOf _ _) (BookSnapshot.depthOf _ _)
      (depthOf_shown _ ▸ nonneg .buy) (depthOf_shown _ ▸ nonneg .sell)

/-- **The files of a report agree.** Threads trade under any schedule while the recorder watches;
once they have finished, the report is written. In each row of `symbols.csv`, best prices and
depths of both sides are those of the symbol's rows in `order_book_final.csv` and
`resting_orders.csv`, low and high are those of its rows in `trades.csv` with the average price
between them, the spread is positive, and the imbalance is between -1 and 1. No book has more
orders than a vector can hold. -/
theorem symbols_agree (setup : List (SetupCall ℚ)) (bookDepth : Nat) (tick : SampleTick ℚ)
    (calls : List (List (EngineCall ℚ))) (events : Nat) (ticks : List (SampleTick ℚ))
    (last : ReportTick ℚ) {x : Recorded ℚ} {ps : List (Prog (Recorded ℚ) Unit)}
    (run : Interleaves (Recorded.started setup bookDepth tick,
      Recorded.threads (· + ·) calls events ticks) (x, ps)) (finished : Finished ps)
    (fits : ∀ s, (x.engine.restingOrders s).length ≤ Report.unlimited) :
    let report := ((Recorded.writeReport (· + ·) last).exec x).1
    ∀ row ∈ report.symbols, row.Agrees report := by
  intro report row mem
  obtain ⟨-, qs, alone, -⟩ := recording_of_interleaves run
  have inv : ∀ s, BookInvariant (x.engine.bookFor s) := BookInvariant.of_interleaves alone
  exact (Ended.of_interleaves run finished).agrees inv (written last x) fits mem

end

/-- One offer is taken; the other one and a lower bid are left. -/
theorem symbols_agree_twoOffers : ∃ x ps,
    Interleaves (Recorded.started buyerAndSeller 10 (sampleAt 0),
      Recorded.threads (· + ·) [twoOffers, buysUpTo 92, buysUpTo 80] 2 []) (x, ps) ∧ Finished ps ∧
      let report := ((Recorded.writeReport (· + ·) (reportAt 2000000)).exec x).1
      (report.symbols.map fun row => (row.bestBid, row.bestAsk, row.low, row.vwap))
        = [(some 80, some 95, some 90, some 90)] ∧
      ∀ row ∈ report.symbols, row.Agrees report := by
  obtain ⟨ps, run, finished⟩ := interleaves_execAll
    (Recorded.threads (· + ·) [twoOffers, buysUpTo 92, buysUpTo 80] 2 [])
    (Recorded.started buyerAndSeller 10 (sampleAt 0))
  refine ⟨_, ps, run, finished, by decide +kernel, ?_⟩
  refine symbols_agree _ _ _ _ _ _ (reportAt 2000000) run finished fun s => ?_
  rw [restingOrders]
  split
  · rename_i known
    have only : (execAll (Recorded.threads (· + ·) [twoOffers, buysUpTo 92, buysUpTo 80] 2 [])
      (Recorded.started buyerAndSeller 10 (sampleAt 0))).engine.books.keys = ["AAPL"] := by
        decide +kernel
    have here := AList.mem_keys.mp (of_decide_eq_true known)
    rw [only] at here
    rw [List.mem_singleton.mp here]
    decide +kernel
  · exact Nat.zero_le _

end StockMarket
