import StockMarket.Engine.Events
import StockMarket.Engine.Metrics
import StockMarket.Engine.Participants
import StockMarket.Market.Candles
import StockMarket.MarketRecorder

/-!
What the report of a run can be trusted for.

The recorder watches an engine that any number of threads use; the bus hands it the events some
time after they were published, and its sampler reads prices, portfolios and books at different
moments. Cash is exact here.

`Recording` is what holds of engine and recorder at every moment: the samples taken so far add up
(`Sampled`), and the recorder has noted exactly the events that were delivered to it (`Told`).
So every sample shows all clients, with all the cash there is (`samples_addUp`), and the final
report reconciles with what was traded (`report_reconciles`) and counted (`summary_exact`).
-/

namespace StockMarket

open Atomic MatchingEngine

/-! ### Net worth -/

/-- What shares are worth at some prices. -/
def worth (prices : Table Symbol ℚ) (shares : Symbol → ℤ) : ℚ :=
  (prices.entries.map fun e => (shares e.1 : ℚ) * e.2).sum

theorem worth_zero (prices : Table Symbol ℚ) : worth prices 0 = 0 := by
  simp [worth]

theorem worth_add (prices : Table Symbol ℚ) (shares shares' : Symbol → ℤ) :
    worth prices (shares + shares') = worth prices shares + worth prices shares' := by
  simp only [worth, ← List.sum_map_add]
  refine congrArg List.sum (List.map_congr_left fun e _ => ?_)
  rw [Pi.add_apply, Int.cast_add, add_mul]

/-- Each symbol of a list that has a price, with its price. -/
theorem worth_eq_sum (prices : Table Symbol ℚ) (shares : Symbol → ℤ) {symbols : List Symbol}
    (listed : symbols.Perm prices.keys) :
    worth prices shares = (symbols.map fun s => (shares s : ℚ) * (prices.lookup s).getD 0).sum := by
  rw [(listed.map _).sum_eq, AList.keys, List.keys, List.map_map]
  refine congrArg List.sum (List.map_congr_left fun e mem => ?_)
  have found : prices.lookup e.1 = some e.2 := Table.mem_entries_iff.mp mem
  rw [Function.comp_apply, found, Option.getD_some]

/-- Net worth is cash and the worth of the shares, in whatever order they are visited. -/
theorem netWorth_eq (order : IterationOrder Symbol Int) (prices : Table Symbol ℚ)
    (p : Portfolio ℚ) : p.netWorth order prices = p.cash + worth prices p.holding := by
  have fold : ∀ (es : List (Sigma fun _ : Symbol => Int)) (total : ℚ),
      es.foldl (fun total e =>
          (prices.lookup e.1).elim total fun price => total + (e.2 : ℚ) * price) total
        = total + (es.map fun e => (prices.lookup e.1).elim 0 fun price =>
            (e.2 : ℚ) * price).sum := by
    intro es
    induction es with
    | nil => exact fun total => (add_zero total).symm
    | cons e es ih =>
        intro total
        rw [List.foldl_cons, ih, List.map_cons, List.sum_cons]
        cases prices.lookup e.1 with
        | none => exact congrArg _ (zero_add _).symm
        | some price => exact add_assoc _ _ _
  have swap := Table.sum_dlookup_swap (fun (q : Int) (price : ℚ) => (q : ℚ) * price)
    prices.nodupKeys p.holdings.nodupKeys
  rw [Portfolio.netWorth, fold, ((order.perm p.holdings).map _).sum_eq]
  refine congrArg _ (swap.trans (congrArg List.sum (List.map_congr_left fun e _ => ?_)))
  change (p.holdings.lookup e.1).elim 0 _ = (p.holding e.1 : ℚ) * e.2
  unfold Portfolio.holding
  cases p.holdings.lookup e.1 <;> simp

theorem sum_map_sub {α : Type} (f g : α → ℚ) (as : List α) :
    (as.map fun a => f a - g a).sum = (as.map f).sum - (as.map g).sum := by
  refine eq_sub_of_add_eq ?_
  rw [← List.sum_map_add]
  exact congrArg List.sum (List.map_congr_left fun a _ => sub_add_cancel _ _)

/-- The cash of all owners. -/
theorem sum_fst {α : Type} (owned : α → Assets) (owners : List α) :
    (owners.map fun a => (owned a).1).sum = (owners.map owned).sum.1 := by
  have fst := map_list_sum (AddMonoidHom.fst ℚ (Symbol → ℤ)) (owners.map owned)
  rw [List.map_map] at fst
  exact fst.symm

/-- All owners together. -/
theorem sum_worth {α : Type} (prices : Table Symbol ℚ) (owned : α → Assets) : ∀ owners : List α,
    (owners.map fun a => (owned a).1 + worth prices (owned a).2).sum
      = (owners.map owned).sum.1 + worth prices (owners.map owned).sum.2
  | [] => (worth_zero prices).symm.trans (zero_add _).symm
  | a :: owners => by
      have rest := sum_worth prices owned owners
      rw [List.map_cons, List.sum_cons, List.map_cons, List.sum_cons, rest, Prod.fst_add,
        Prod.snd_add, worth_add]
      exact add_add_add_comm _ _ _ _

/-! ### What stays -/

/-- What trading cannot change. -/
structure Steady (setup : List (SetupCall ℚ)) (e : MatchingEngine ℚ) : Prop where
  accounts : ∀ c, c ∈ e.portfolios ↔ c ∈ (setUp setup).portfolios
  symbols : ∀ s, s ∈ e.books ↔ s ∈ (setUp setup).books
  prices : ∀ s, s ∈ e.lastPrices ↔ s ∈ (setUp setup).books
  total : e.totalAssets = givenOut (injections setup)

/-- The table has just the keys of the list, each once. -/
theorem perm_keys {K V W : Type} [DecidableEq K] {t : Table K V} {u : Table K W}
    (same : ∀ k, k ∈ t ↔ k ∈ u) : t.keys.Perm u.keys :=
  (List.perm_ext_iff_of_nodup t.keys_nodup u.keys_nodup).mpr same

theorem Steady.of_interleaves {setup : List (SetupCall ℚ)} {calls : List (List (EngineCall ℚ))}
    {e : MatchingEngine ℚ} {ps : List (Prog (MatchingEngine ℚ) Unit)}
    (run : Interleaves (setUp setup, calls.map threadProgram) (e, ps)) :
    Steady setup e ∧ Closed (Rules.of (setUp setup)) e := by
  have start : Closed (Rules.of (setUp setup)) (setUp setup) :=
    closed_setUp setup (fun _ => Iff.rfl) fun _ => Iff.rfl
  have allowed : ∀ thread ∈ calls, ∀ call ∈ thread, (Rules.of (setUp setup)).Call call := by
    intro thread _ call _
    cases call with
    | submitOrder now clock request => exact Rules.admits_of (setUp setup) request
    | _ => trivial
  obtain ⟨-, closed⟩ := start.of_interleaves allowed run
  have owe : ∀ p ∈ calls.map threadProgram, OwesAssets p 0 := by
    intro p mem
    obtain ⟨thread, -, rfl⟩ := List.mem_map.mp mem
    exact assetsLedger.threadProgram thread
  have kept := (interleaves_conserve run owe).1
  exact ⟨⟨closed.accounts, closed.symbols, closed.prices, kept.trans (setUp_gives setup).2.1⟩,
    closed⟩

/-! ### Events -/

/-- The recorder has noted these events. -/
structure Told (events : List (Event ℚ)) (r : MarketRecorder ℚ) : Prop where
  trades : r.trades.map TradeRow.trade = events.filterMap Event.trade?
  rejected : (((r.rejectionsByReason.map Prod.snd).sum : ℕ) : ℤ)
    = (events.map Event.counts).sum.2.1
  queued : (r.queuedEvents : ℤ) = (events.map Event.counts).sum.2.2.1
  expired : (r.expiredEvents : ℤ) = (events.map Event.counts).sum.2.2.2.1

theorem sum_upsert_one {K : Type} [LinearOrder K] (k : K) : ∀ m : List (K × Nat),
    ((upsert k 0 (· + 1) m).map Prod.snd).sum = (m.map Prod.snd).sum + 1
  | [] => rfl
  | e :: m => by
      have rest := sum_upsert_one k m
      rw [upsert]
      split
      · rw [List.map_cons, List.sum_cons, rest, List.map_cons, List.sum_cons, add_assoc]
      · split
        · rw [List.map_cons, List.sum_cons, zero_add, add_comm]
        · simp only [List.map_cons, List.sum_cons]
          omega

theorem Told.onEvent {events : List (Event ℚ)} {r : MarketRecorder ℚ} (told : Told events r)
    (event : Event ℚ) : Told (events ++ [event]) (r.onEvent event) := by
  have counts : ((events ++ [event]).map Event.counts).sum
      = (events.map Event.counts).sum + event.counts := by simp
  have trades : (events ++ [event]).filterMap Event.trade?
      = events.filterMap Event.trade? ++ event.trade?.toList := by
    cases event <;> simp [Event.trade?]
  constructor
  · rw [trades, ← told.trades]
    cases event <;> simp [MarketRecorder.onEvent, Event.trade?]
  · rw [counts, Prod.snd_add, Prod.fst_add, ← told.rejected]
    cases event <;> simp [MarketRecorder.onEvent, Event.counts, sum_upsert_one]
  · rw [counts, Prod.snd_add, Prod.snd_add, Prod.fst_add, ← told.queued]
    cases event <;> simp [MarketRecorder.onEvent, Event.counts]
  · rw [counts, Prod.snd_add, Prod.snd_add, Prod.snd_add, Prod.fst_add, ← told.expired]
    cases event <;> simp [MarketRecorder.onEvent, Event.counts]

theorem Told.onEvents {r : MarketRecorder ℚ} : ∀ (later : List (Event ℚ)) {events : List (Event ℚ)},
    Told events r → Told (events ++ later) (later.foldl MarketRecorder.onEvent r)
  | [], _, told => by
      rw [List.append_nil]
      exact told
  | event :: later, events, told => by
      have rest := Told.onEvents later (told.onEvent event)
      rwa [List.append_assoc] at rest

/-! ### Samples -/

section

variable (setup : List (SetupCall ℚ))

/-- How many shares of a symbol there are. -/
def sharesIssued (symbol : Symbol) : ℤ :=
  (givenOut (injections setup)).2 symbol

/-- How much cash there is. -/
def cashIssued : ℚ :=
  (givenOut (injections setup)).1

/-- One sample shows each symbol and each client once, all cash, and all shares at the prices that
it shows. -/
structure Sampled (prices : List (PriceSample ℚ)) (portfolios : List (PortfolioSample ℚ)) :
    Prop where
  symbols : (prices.map PriceSample.symbol).Perm (setUp setup).books.keys
  clients : (portfolios.map PortfolioSample.client).Perm (setUp setup).portfolios.keys
  cash : (portfolios.map PortfolioSample.cash).sum = cashIssued setup
  netWorth : (portfolios.map PortfolioSample.netWorth).sum = cashIssued setup
    + (prices.map fun row => (sharesIssued setup row.symbol : ℚ) * row.lastPrice).sum

variable {setup}

/-- What a sample reads: prices and portfolios at two moments, and books at any others. -/
theorem Steady.sampled {e e' : MatchingEngine ℚ} (priced : Steady setup e) (owned : Steady setup e')
    {symbols : List Symbol} (listed : symbols.Perm (setUp setup).books.keys)
    {snaps : List (BookSnapshot ℚ)} (each : snaps.length = symbols.length)
    (clients : IterationOrder ClientId (Portfolio ℚ))
    (holdings : IterationOrder Symbol Int) (t : ℚ) :
    Sampled setup
      (List.zipWith (MarketRecorder.priceSample (· + ·) t e.lastPrices) symbols snaps)
      ((clients.walk e'.portfolios).map fun entry =>
        MarketRecorder.portfolioSample holdings t e.lastPrices entry.1 entry.2) := by
  have rows {β : Type} (f : PriceSample ℚ → β) (g : Symbol → β)
      (same : ∀ s snap, f (MarketRecorder.priceSample (· + ·) t e.lastPrices s snap) = g s) :
      (List.zipWith (MarketRecorder.priceSample (· + ·) t e.lastPrices) symbols snaps).map f
        = symbols.map g := by
    rw [List.map_zipWith]
    refine List.ext_getElem (by simp [each]) fun i _ _ => ?_
    rw [List.getElem_zipWith, List.getElem_map, same]
  have visited := clients.perm e'.portfolios
  have values : ((clients.walk e'.portfolios).map fun entry => entry.2).Perm
      (Table.values e'.portfolios) := visited.map _
  have total : ((Table.values e'.portfolios).map Portfolio.assets).sum
      = givenOut (injections setup) := by
    rw [Table.values, List.map_map]
    exact owned.total
  constructor
  · rw [rows PriceSample.symbol id fun _ _ => rfl, List.map_id]
    exact listed
  · rw [List.map_map]
    exact (visited.map Sigma.fst).trans (perm_keys owned.accounts)
  · have cash := sum_fst Portfolio.assets (Table.values e'.portfolios)
    rw [total] at cash
    refine Eq.trans ?_ ((values.map fun p => p.assets.1).sum_eq.trans cash)
    rw [List.map_map, List.map_map]
    rfl
  · have worths := sum_worth e.lastPrices Portfolio.assets (Table.values e'.portfolios)
    have shown := worth_eq_sum e.lastPrices (sharesIssued setup)
      (listed.trans (perm_keys priced.prices).symm)
    rw [total] at worths
    rw [rows (fun row => (sharesIssued setup row.symbol : ℚ) * row.lastPrice)
      (fun s => (sharesIssued setup s : ℚ) * (e.lastPrices.lookup s).getD 0) fun _ _ => rfl, ← shown]
    refine Eq.trans ?_ ((values.map fun p =>
      p.assets.1 + worth e.lastPrices p.assets.2).sum_eq.trans
      worths)
    rw [List.map_map, List.map_map]
    refine congrArg List.sum (List.map_congr_left fun entry _ => ?_)
    exact netWorth_eq holdings e.lastPrices entry.2

/-! ### The recorder's state -/

/-- Whom a sample shows for the first time. -/
def seenAfter (rows : List (PortfolioSample ℚ)) (seen : Table ClientId (FirstSeen ℚ)) :
    Table ClientId (FirstSeen ℚ) :=
  rows.foldl (fun seen row =>
    Table.tryEmplace row.client ⟨row.elapsedMs, row.cash, row.netWorth⟩ seen) seen

theorem addSample_eq (prices : List (PriceSample ℚ)) : ∀ (rows : List (PortfolioSample ℚ))
    (r : MarketRecorder ℚ), r.addSample prices rows = { r with
      priceSamples := r.priceSamples ++ prices
      portfolioSamples := r.portfolioSamples ++ rows
      firstSeen := seenAfter rows r.firstSeen } := by
  have rest : ∀ (rows : List (PortfolioSample ℚ)) (r : MarketRecorder ℚ),
      rows.foldl MarketRecorder.addPortfolio r = { r with
        portfolioSamples := r.portfolioSamples ++ rows
        firstSeen := seenAfter rows r.firstSeen } := by
    intro rows
    induction rows with
    | nil => simp [seenAfter]
    | cons row rows ih =>
        intro r
        rw [List.foldl_cons, ih]
        simp [MarketRecorder.addPortfolio, seenAfter]
  exact fun rows r => rest rows _

/-- Who was seen before stays as first seen. -/
theorem seenAfter_of_seen {c : ClientId} {first : FirstSeen ℚ} : ∀ (rows : List (PortfolioSample ℚ))
    {seen : Table ClientId (FirstSeen ℚ)}, seen.lookup c = some first →
      (seenAfter rows seen).lookup c = some first
  | [], _, known => known
  | row :: rows, seen, known => by
      refine seenAfter_of_seen rows ?_
      by_cases own : c = row.client
      · subst own
        rw [Table.lookup_tryEmplace_self, known, Option.getD_some]
      · rw [Table.lookup_tryEmplace_ne own, known]

/-- Who is seen for the first time is seen as the row says. -/
theorem seenAfter_of_mem {row : PortfolioSample ℚ} : ∀ (rows : List (PortfolioSample ℚ))
    {seen : Table ClientId (FirstSeen ℚ)}, (rows.map PortfolioSample.client).Nodup → row ∈ rows →
      seen.lookup row.client = none →
      (seenAfter rows seen).lookup row.client = some ⟨row.elapsedMs, row.cash, row.netWorth⟩
  | row' :: rows, seen, nodup, mem, fresh => by
      obtain ⟨alone, nodup⟩ := List.nodup_cons.mp nodup
      rcases List.mem_cons.mp mem with rfl | later
      · refine seenAfter_of_seen rows ?_
        rw [Table.lookup_tryEmplace_self, fresh, Option.getD_none]
      · refine seenAfter_of_mem rows nodup later ?_
        have other : row.client ≠ row'.client := fun same =>
          alone (same ▸ List.mem_map_of_mem later)
        rw [Table.lookup_tryEmplace_ne other, fresh]

variable (setup)

/-- What holds of an engine and the recorder that was started on it after the setting up. -/
structure Recording (x : Recorded ℚ) : Prop where
  samples : ∃ samples : List (List (PriceSample ℚ) × List (PortfolioSample ℚ)),
    x.recorder.priceSamples = (samples.map Prod.fst).flatten ∧
      x.recorder.portfolioSamples = (samples.map Prod.snd).flatten ∧
      ∀ sample ∈ samples, Sampled setup sample.1 sample.2
  delivered : x.delivered ≤ x.engine.published.length
  told : Told (x.engine.published.take x.delivered) x.recorder
  initialPrices : x.recorder.initialPrices = (setUp setup).lastPrices
  firstSeen : ∀ c p, (setUp setup).portfolios.lookup c = some p → ∃ t,
    x.recorder.firstSeen.lookup c
      = some ⟨t, p.cash, p.cash + worth (setUp setup).lastPrices p.holding⟩

variable {setup}

namespace Recording

variable {x : Recorded ℚ}

theorem sampled (recording : Recording setup x) {prices : List (PriceSample ℚ)}
    {rows : List (PortfolioSample ℚ)} (sample : Sampled setup prices rows) :
    Recording setup (x.record (MarketRecorder.addSample prices rows)) := by
  obtain ⟨samples, shown, owned, each⟩ := recording.samples
  have after : (x.record (MarketRecorder.addSample prices rows)).recorder = _ :=
    addSample_eq prices rows x.recorder
  refine ⟨⟨samples ++ [(prices, rows)], ?_, ?_, ?_⟩, recording.delivered, ?_, ?_,
    fun c p known => ?_⟩
  · rw [after, shown]
    simp
  · rw [after, owned]
    simp
  · intro sample' mem
    rcases List.mem_append.mp mem with old | new
    · exact each sample' old
    · rw [List.mem_singleton.mp new]
      exact sample
  · rw [after]
    exact { recording.told with }
  · rw [after]
    exact recording.initialPrices
  · obtain ⟨t, seen⟩ := recording.firstSeen c p known
    rw [after]
    exact ⟨t, seenAfter_of_seen _ seen⟩

/-- The engine goes on. -/
theorem withEngine (recording : Recording setup x) {e : MatchingEngine ℚ}
    (appended : Appended x.engine e) : Recording setup (x.withEngine e) where
  samples := recording.samples
  delivered := recording.delivered.trans appended.length_le
  told := by
    obtain ⟨later, more⟩ := appended
    change Told (e.published.take x.delivered) x.recorder
    rw [← more, List.take_append_of_le_length recording.delivered]
    exact recording.told
  initialPrices := recording.initialPrices
  firstSeen := recording.firstSeen

/-- No event changes the samples, nor what was before. -/
theorem onEvents_same : ∀ (events : List (Event ℚ)) (r : MarketRecorder ℚ),
    (events.foldl MarketRecorder.onEvent r).priceSamples = r.priceSamples ∧
      (events.foldl MarketRecorder.onEvent r).portfolioSamples = r.portfolioSamples ∧
      (events.foldl MarketRecorder.onEvent r).initialPrices = r.initialPrices ∧
      (events.foldl MarketRecorder.onEvent r).firstSeen = r.firstSeen
  | [], _ => ⟨rfl, rfl, rfl, rfl⟩
  | event :: events, r => by
      obtain ⟨prices, portfolios, initial, seen⟩ := onEvents_same events (r.onEvent event)
      cases event <;> exact ⟨prices, portfolios, initial, seen⟩

/-- Some events are delivered. -/
theorem delivers (recording : Recording setup x) (events : List (Event ℚ)) {n : Nat}
    (below : n ≤ x.engine.published.length)
    (next : x.engine.published.take n = x.engine.published.take x.delivered ++ events) :
    Recording setup { x with
      recorder := events.foldl MarketRecorder.onEvent x.recorder
      delivered := n } := by
  obtain ⟨prices, portfolios, initial, seen⟩ := onEvents_same events x.recorder
  refine ⟨?_, below, ?_, ?_, ?_⟩
  · rw [prices, portfolios]
    exact recording.samples
  · rw [next]
    exact recording.told.onEvents events
  · rw [initial]
    exact recording.initialPrices
  · rw [seen]
    exact recording.firstSeen

theorem deliver (recording : Recording setup x) : Recording setup x.deliver := by
  unfold Recorded.deliver
  cases next : x.engine.published[x.delivered]? with
  | none => exact recording
  | some event =>
      obtain ⟨below, here⟩ := List.getElem?_eq_some_iff.mp next
      refine recording.delivers [event] below ?_
      rw [← here, List.take_concat_get' _ _ below]

theorem flush (recording : Recording setup x) : Recording setup x.flush := by
  refine recording.delivers _ le_rfl ?_
  rw [List.take_length, List.take_append_drop]

end Recording

/-! ### Starting -/

/-- What a sample adds when it is taken alone. -/
theorem exec_takeSample (tick : SampleTick ℚ) (x : Recorded ℚ) :
    ((Recorded.takeSample (· + ·) tick).exec x).2 =
      let symbols := (tick.symbols.walk x.engine.books).map fun e => e.1
      let t := x.recorder.elapsedMs tick.now
      x.record (MarketRecorder.addSample
        (List.zipWith (MarketRecorder.priceSample (· + ·) t x.engine.lastPrices) symbols
          (symbols.map fun s => x.engine.snapshot (· + ·) s x.recorder.bookDepth))
        ((tick.clients.walk x.engine.portfolios).map fun e =>
          MarketRecorder.portfolioSample tick.holdings t x.engine.lastPrices e.1 e.2)) := by
  simp only [Recorded.takeSample, Prog.exec_bind, Prog.exec_read, Prog.exec_readEach,
    Prog.exec_modify]

/-- The symbols that a sample goes through. -/
theorem Steady.listed {e : MatchingEngine ℚ} (steady : Steady setup e)
    (order : IterationOrder Symbol (OrderBook ℚ)) :
    ((order.walk e.books).map fun entry => entry.1).Perm (setUp setup).books.keys :=
  ((order.perm e.books).map Sigma.fst).trans (perm_keys steady.symbols)

theorem Recording.takeSample {x : Recorded ℚ} (recording : Recording setup x)
    (steady : Steady setup x.engine) (tick : SampleTick ℚ) :
    Recording setup ((Recorded.takeSample (· + ·) tick).exec x).2 := by
  rw [exec_takeSample]
  exact recording.sampled (steady.sampled steady (steady.listed tick.symbols) (by simp) _ _ _)

variable (setup)

/-- The engine after the setting up, with a recorder that has just started. -/
def Recorded.started (bookDepth : Nat) (tick : SampleTick ℚ) : Recorded ℚ :=
  ((Recorded.start (· + ·) tick).exec { engine := setUp setup, recorder := { bookDepth } }).2

variable {setup}

theorem Steady.setUp : Steady setup (setUp setup) := by
  have nobody : Interleaves (StockMarket.setUp setup,
      ([] : List (List (EngineCall ℚ))).map threadProgram) (StockMarket.setUp setup, []) := .refl
  exact (Steady.of_interleaves nobody).1

/-- The first sample. -/
theorem Recording.first {bookDepth : Nat} {startTime : Int} {prices : List (PriceSample ℚ)}
    {rows : List (PortfolioSample ℚ)} (sample : Sampled setup prices rows)
    (own : ∀ c p, (StockMarket.setUp setup).portfolios.lookup c = some p → ∃ t,
      ⟨t, c, p.cash, p.cash + worth (StockMarket.setUp setup).lastPrices p.holding⟩ ∈ rows) :
    Recording setup {
      engine := StockMarket.setUp setup
      recorder := MarketRecorder.addSample prices rows
        { bookDepth, startTime, initialPrices := (StockMarket.setUp setup).lastPrices } } := by
  rw [addSample_eq]
  refine ⟨⟨[(prices, rows)], by simp, by simp, ?_⟩, Nat.zero_le _, ⟨rfl, rfl, rfl, rfl⟩, rfl, ?_⟩
  · intro sample' mem
    rw [List.mem_singleton.mp mem]
    exact sample
  · intro c p known
    obtain ⟨t, mem⟩ := own c p known
    have nodup : (rows.map PortfolioSample.client).Nodup :=
      sample.clients.nodup_iff.mpr (AList.keys_nodup _)
    exact ⟨t, seenAfter_of_mem rows nodup mem rfl⟩

variable (setup) in
/-- Before the first call. -/
theorem Recording.started (bookDepth : Nat) (tick : SampleTick ℚ) :
    (Recorded.started setup bookDepth tick).engine = StockMarket.setUp setup ∧
      Recording setup (Recorded.started setup bookDepth tick) := by
  have begun : Recorded.started setup bookDepth tick = ((Recorded.takeSample (· + ·) tick).exec
      { engine := StockMarket.setUp setup
        recorder := {
          bookDepth
          startTime := tick.now
          initialPrices := (StockMarket.setUp setup).lastPrices } }).2 := by
    simp only [Recorded.started, Recorded.start, Prog.exec_bind, Prog.exec_read, Prog.exec_modify]
    rfl
  rw [begun, exec_takeSample]
  refine ⟨rfl, Recording.first (Steady.setUp.sampled .setUp (Steady.setUp.listed tick.symbols)
    (by simp) tick.clients tick.holdings _) ?_⟩
  intro c p known
  have visited : ⟨c, p⟩ ∈ tick.clients.walk (StockMarket.setUp setup).portfolios :=
    tick.clients.mem_walk.mpr known
  rw [← netWorth_eq tick.holdings]
  exact ⟨_, List.mem_map.mpr ⟨_, visited, rfl⟩⟩

/-! ### Threads -/

/-- The engine of a recorded system takes a step of its own. -/
def EngineStep (x x' : Recorded ℚ) : Prop :=
  ∃ e, Appended x.engine e ∧ x' = x.withEngine e

/-- The thread keeps what is recorded in order. -/
abbrev Records (setup : List (SetupCall ℚ)) {α : Type} (p : Prog (Recorded ℚ) α) : Prop :=
  Respects (fun x => Steady setup x.engine) (fun (_ : Unit) x => Recording setup x)
    (fun _ => True) p

theorem records_threadProgram (calls : List (EngineCall ℚ)) :
    Records setup ((threadProgram calls).zoom Recorded.engine Recorded.withEngine) := by
  have steps : Guarantees EngineStep
      ((threadProgram calls).zoom Recorded.engine Recorded.withEngine) :=
    (audited_threadProgram calls).1.zoom fun _ e appended => ⟨e, appended, rfl⟩
  refine steps.respects ?_
  rintro _ x _ - ⟨e, appended, rfl⟩ recording
  exact recording.withEngine appended

theorem records_delivering : ∀ n : Nat, Records setup (Recorded.delivering n)
  | 0 => trivial
  | n + 1 => by
      have one : Records setup (.modify Recorded.deliver) :=
        Respects.step fun _ _ _ recording => ⟨recording.deliver, trivial⟩
      exact one.bind fun _ _ => records_delivering n

theorem records_read {α : Type} (f : Recorded ℚ → α) (told : α → Prop)
    (tells : ∀ x, Steady setup x.engine → told (f x)) :
    Respects (fun x => Steady setup x.engine) (fun (_ : Unit) x => Recording setup x) told
      (Prog.read f) :=
  Respects.step fun x _ steady recording => ⟨recording, tells x steady⟩

/-- A sample reads prices, portfolios and books at different moments. -/
theorem records_takeSample (tick : SampleTick ℚ) :
    Records setup (Recorded.takeSample (· + ·) tick) := by
  refine (records_read Recorded.recorder (fun _ => True) fun _ _ => trivial).bind
    fun r _ => ?_
  refine (records_read (·.engine.lastPrices) (fun prices => ∃ e : MatchingEngine ℚ,
    Steady setup e ∧ prices = e.lastPrices) fun x steady => ⟨_, steady, rfl⟩).bind ?_
  rintro _ ⟨e, priced, rfl⟩
  refine (records_read (·.engine.portfolios) (fun portfolios => ∃ e : MatchingEngine ℚ,
    Steady setup e ∧ portfolios = e.portfolios) fun x steady => ⟨_, steady, rfl⟩).bind ?_
  rintro _ ⟨e', owned, rfl⟩
  refine (records_read _ (fun symbols => symbols.Perm (StockMarket.setUp setup).books.keys)
    fun x steady => steady.listed tick.symbols).bind fun symbols listed => ?_
  refine (Respects.readEach (fun _ _ => True) (fun _ _ _ => trivial) symbols).bind
    fun snaps each => ?_
  refine Respects.step fun x _ _ recording => ⟨?_, trivial⟩
  exact recording.sampled (priced.sampled owned listed each.length_eq.symm _ _ _)

theorem records_samplerLoop : ∀ ticks : List (SampleTick ℚ),
    Records setup (Recorded.samplerLoop (· + ·) ticks)
  | [] => trivial
  | tick :: ticks => (records_takeSample tick).bind fun _ _ => records_samplerLoop ticks

/-! ### Runs -/

omit setup in
theorem watches_takeSample (plus : Int → Int → Int) (tick : SampleTick ℚ) :
    Watches Recorded.engine (Recorded.takeSample plus tick) := by
  have looks {α : Type} (f : Recorded ℚ → α) : Watches Recorded.engine (Prog.read f) :=
    .step fun _ => rfl
  refine (looks _).bind fun r => (looks _).bind fun prices => (looks _).bind fun portfolios => ?_
  refine (looks _).bind fun symbols => ?_
  have snaps := Watches.readEach Recorded.engine (fun symbol (x : Recorded ℚ) =>
    x.engine.snapshot plus symbol r.bookDepth) symbols
  exact snaps.bind fun _ => .step fun _ => rfl

omit setup in
theorem watches_samplerLoop (plus : Int → Int → Int) : ∀ ticks : List (SampleTick ℚ),
    Watches Recorded.engine (Recorded.samplerLoop plus ticks)
  | [] => trivial
  | tick :: ticks => (watches_takeSample plus tick).bind fun _ => watches_samplerLoop plus ticks

omit setup in
theorem watches_delivering : ∀ n : Nat,
    Watches Recorded.engine (Recorded.delivering n : Prog (Recorded ℚ) Unit)
  | 0 => trivial
  | n + 1 => by
      have one : Watches Recorded.engine
          (Prog.modify Recorded.deliver : Prog (Recorded ℚ) Unit) := by
        refine .step fun x => ?_
        change x.deliver.engine = x.engine
        unfold Recorded.deliver
        split <;> rfl
      exact one.bind fun _ => watches_delivering n

/-- What the recorder sees is a run of the engine without a recorder, and what it records is in
order. -/
theorem recording_of_interleaves {bookDepth : Nat} {tick : SampleTick ℚ}
    {calls : List (List (EngineCall ℚ))} {events : Nat} {ticks : List (SampleTick ℚ)}
    {x : Recorded ℚ} {ps : List (Prog (Recorded ℚ) Unit)}
    (run : Interleaves (Recorded.started setup bookDepth tick,
      Recorded.threads (· + ·) calls events ticks) (x, ps)) :
    Recording setup x ∧ ∃ qs,
      Interleaves (StockMarket.setUp setup, calls.map threadProgram) (x.engine, qs) ∧
        (Finished ps → Finished qs) := by
  obtain ⟨same, started⟩ := Recording.started setup bookDepth tick
  have watch : ∀ w ∈ [Recorded.delivering events, Recorded.samplerLoop (· + ·) ticks],
      Watches Recorded.engine w :=
    List.forall_mem_cons.mpr ⟨watches_delivering events,
      List.forall_mem_singleton.mpr (watches_samplerLoop _ ticks)⟩
  have alone : ∀ c, Interleaves (Recorded.started setup bookDepth tick,
      Recorded.threads (· + ·) calls events ticks) c → ∃ qs,
        Interleaves (StockMarket.setUp setup, calls.map threadProgram) (c.1.engine, qs) ∧
          (Finished c.2 → Finished qs) := by
    rintro ⟨y, rest⟩ run
    obtain ⟨qs, ws, rfl, part, -⟩ := run.part (fun _ _ => rfl) watch
    rw [same] at part
    exact ⟨qs, part, fun finished => finished.of_zoom⟩
  have always : ∀ c, Interleaves (Recorded.started setup bookDepth tick,
      Recorded.threads (· + ·) calls events ticks) c → Steady setup c.1.engine := by
    intro c run
    obtain ⟨qs, part, -⟩ := alone c run
    exact (Steady.of_interleaves part).1
  have records : ∀ p ∈ Recorded.threads (· + ·) calls events ticks, Records setup p := by
    intro p mem
    rcases List.mem_append.mp mem with engine | recorder
    · obtain ⟨_, thread, rfl⟩ := List.mem_map.mp engine
      obtain ⟨calls, -, rfl⟩ := List.mem_map.mp thread
      exact records_threadProgram calls
    · rcases List.mem_cons.mp recorder with rfl | sampler
      · exact records_delivering events
      · rw [List.mem_singleton.mp sampler]
        exact records_samplerLoop ticks
  exact ⟨(interleaves_respects (k := ()) always started records run).1, alone _ run⟩

end

/-! ### Sums over the rows of a report -/

theorem lookup_countBy {α K : Type} [DecidableEq K] (key : α → K) (items : List α) (k : K) :
    ((countBy key items).lookup k).getD 0 = (items.filter fun a => key a = k).length := by
  have count : ∀ (own : List α) (n : Nat), own.foldl (fun n _ => n + 1) n = n + own.length := by
    intro own
    induction own with
    | nil => exact fun n => rfl
    | cons a own ih =>
        intro n
        rw [List.foldl_cons, ih, List.length_cons, Nat.add_right_comm, Nat.add_assoc]
  exact (Table.lookup_foldl_update key 0 (fun _ => (· + 1)) k items ∅).trans
    ((count _ 0).trans (Nat.zero_add _))

/-- All items are counted once, at their keys. -/
theorem sum_countBy {α K : Type} [DecidableEq K] (key : α → K) (items : List α) {keys : List K}
    (nodup : keys.Nodup) (known : ∀ a ∈ items, key a ∈ keys) :
    (keys.map fun k => ((countBy key items).lookup k).getD 0).sum = items.length := by
  have fibers := Table.sum_fibers key (fun _ => 1) nodup known
  simp only [List.map_const', List.sum_replicate, smul_eq_mul, mul_one] at fibers
  simpa only [lookup_countBy] using fibers

/-- The statistics of some trades, one after the other. -/
theorem foldl_stats (rows : List (TradeRow ℚ)) : ∀ s : SymbolStats ℚ,
    let s' := rows.foldl (fun s row => SymbolStats.add (· + ·) row.trade s) s
    s'.trades = s.trades + rows.length ∧
      s'.volume = s.volume + (rows.map fun row => row.trade.quantity).sum ∧
      s'.notional = s.notional + (rows.map fun row =>
      (row.trade.quantity : ℚ) * row.trade.price).sum := by
  induction rows with
  | nil => exact fun s => ⟨rfl, (Int.add_zero _).symm, (add_zero _).symm⟩
  | cons row rows ih =>
      intro s
      obtain ⟨trades, volume, notional⟩ := ih (SymbolStats.add (· + ·) row.trade s)
      refine ⟨trades.trans ?_, volume.trans ?_, notional.trans ?_⟩
      · rw [SymbolStats.add, List.length_cons, Nat.add_right_comm, Nat.add_assoc]
      · rw [List.map_cons, List.sum_cons, ← Int.add_assoc]
        rfl
      · rw [List.map_cons, List.sum_cons, ← add_assoc]
        rfl

/-- The statistics of a symbol are those of its own trades. -/
theorem lookup_statsOf (rows : List (TradeRow ℚ)) (symbol : Symbol) :
    let s := ((Report.statsOf (· + ·) rows).lookup symbol).getD default
    let own := rows.filter fun row => row.trade.symbol = symbol
    s.trades = own.length ∧ s.volume = (own.map fun row => row.trade.quantity).sum ∧
      s.notional = (own.map fun row => (row.trade.quantity : ℚ) * row.trade.price).sum := by
  intro s own
  have fold : s = own.foldl (fun s row => SymbolStats.add (· + ·) row.trade s) default :=
    Table.lookup_foldl_update (fun row : TradeRow ℚ => row.trade.symbol) default
      (fun row => SymbolStats.add (· + ·) row.trade) symbol rows ∅
  obtain ⟨trades, volume, notional⟩ := foldl_stats own default
  rw [fold]
  exact ⟨trades.trans (Nat.zero_add _), volume.trans (Int.zero_add _), notional.trans (zero_add _)⟩

/-! ### The report -/

/-- The recorder when the report is written. -/
def Recorded.last (tick : ReportTick ℚ) (x : Recorded ℚ) : MarketRecorder ℚ :=
  ((Recorded.takeSample (· + ·) tick.sample).exec x.flush).2.recorder

/-- The symbols in the order of the report. -/
def ReportTick.listed (tick : ReportTick ℚ) (e : MatchingEngine ℚ) : List Symbol :=
  ((tick.symbols.walk e.books).map fun entry => entry.1).insertionSort (· ≤ ·)

/-- The waiting orders in the order of the report. -/
def MatchingEngine.waitingById (e : MatchingEngine ℚ) : List (Order ℚ) :=
  e.waitingOrders.insertionSort fun o o' => o.id ≤ o'.id

/-- The rows of `symbols.csv`. -/
def Recorded.symbolRows (tick : ReportTick ℚ) (x : Recorded ℚ) : List (SymbolRow ℚ) :=
  (tick.listed x.engine).map fun s =>
    Report.symbolRow (· + ·) (x.last tick).initialPrices x.engine.lastPrices
      (((Report.statsOf (· + ·) (x.last tick).trades).lookup s).getD default) s
      (x.engine.snapshot (· + ·) s Report.unlimited) (x.engine.restingOrders s).length
      (((countBy Order.symbol x.engine.waitingById).lookup s).getD 0)

/-- The rows of `portfolios_final.csv`. -/
def Recorded.portfolioRows (tick : ReportTick ℚ) (x : Recorded ℚ) : List (PortfolioRow ℚ) :=
  (x.engine.portfolios.keys.insertionSort (· ≤ ·)).map
    (Report.portfolioRow tick.holdings x.engine.lastPrices (x.last tick).firstSeen
      (countBy (fun row => row.trade.buyer) (x.last tick).trades)
      (countBy (fun row => row.trade.seller) (x.last tick).trades) x.engine.portfolios)

theorem zipWith_map_self {α β γ : Type} (f : α → β → γ) (g : α → β) : ∀ as : List α,
    List.zipWith f as (as.map g) = as.map fun a => f a (g a)
  | [] => rfl
  | a :: as => congrArg (f a (g a) :: ·) (zipWith_map_self f g as)

theorem map_zip_zip {α β γ δ : Type} (f : α → β) (g : α → γ) (h : α × β × γ → δ) : ∀ as : List α,
    (as.zip ((as.map f).zip (as.map g))).map h = as.map fun a => h (a, f a, g a)
  | [] => rfl
  | a :: as => congrArg (h (a, f a, g a) :: ·) (map_zip_zip f g h as)

/-- What the report says, as a function of the last state. -/
structure Written (tick : ReportTick ℚ) (x : Recorded ℚ) (report : Report ℚ) : Prop where
  trades : report.trades = (x.last tick).trades
  books : report.orderBookFinal
    = (tick.listed x.engine).flatMap fun s => orderBookFinal (· + ·) s (x.engine.restingOrders s)
  orders : report.restingOrders = (tick.listed x.engine).flatMap x.engine.restingOrders
  symbols : report.symbols = x.symbolRows tick
  portfolios : report.portfoliosFinal = x.portfolioRows tick
  count : report.summary.trades = (x.last tick).trades.length
  volume : report.summary.volume = ((x.last tick).trades.map fun row => row.trade.quantity).sum
  notional : report.summary.notional
    = ((x.last tick).trades.map fun row => (row.trade.quantity : ℚ) * row.trade.price).sum
  rejected : report.summary.ordersRejected
    = ((x.last tick).rejectionsByReason.map Prod.snd).sum
  queued : report.summary.ordersQueued = (x.last tick).queuedEvents
  expired : report.summary.ordersExpired = (x.last tick).expiredEvents
  resting : report.summary.restingOrdersFinal
    = ((tick.listed x.engine).map fun s => (x.engine.restingOrders s).length).sum
  waiting : report.summary.waitingOrdersFinal = x.engine.waitingById.length
  cashInitial : report.summary.totalCashInitial
    = ((x.portfolioRows tick).map PortfolioRow.initialCash).sum
  cashFinal : report.summary.totalCashFinal
    = ((x.portfolioRows tick).map PortfolioRow.finalCash).sum

theorem written (tick : ReportTick ℚ) (x : Recorded ℚ) :
    Written tick x ((Recorded.writeReport (· + ·) tick).exec x).1 := by
  set y := ((Recorded.takeSample (· + ·) tick.sample).exec x.flush).2 with sampled
  have engine : y.engine = x.engine := by
    rw [sampled, exec_takeSample]
    rfl
  have recorder : y.recorder = x.last tick := rfl
  simp only [Recorded.writeReport, Prog.exec_bind, Prog.exec_read, Prog.exec_readEach,
    Prog.exec_modify, ← sampled, Prog.exec_pure, engine, recorder]
  constructor
  case books => exact congrArg List.flatten (zipWith_map_self _ _ _)
  case symbols => exact map_zip_zip _ _ _ _
  case resting =>
    rw [List.length_flatten, List.map_map]
    rfl
  case volume => exact List.sum_eq_foldl.symm
  case notional => exact List.sum_eq_foldl.symm
  case cashInitial => exact List.sum_eq_foldl.symm
  case cashFinal => exact List.sum_eq_foldl.symm
  all_goals rfl

/-! ### The report of a finished run -/

section

variable {setup : List (SetupCall ℚ)}

/-- What the recorder knows when the report is written. -/
theorem Recording.last {x : Recorded ℚ} (recording : Recording setup x)
    (steady : Steady setup x.engine) (tick : ReportTick ℚ) :
    Told x.engine.published (x.last tick) ∧
      (x.last tick).initialPrices = (setUp setup).lastPrices ∧
      ∀ c p, (setUp setup).portfolios.lookup c = some p → ∃ t, (x.last tick).firstSeen.lookup c
        = some ⟨t, p.cash, p.cash + worth (setUp setup).lastPrices p.holding⟩ := by
  have after := recording.flush.takeSample steady tick.sample
  obtain ⟨-, -, told, initial, seen⟩ := after
  refine ⟨?_, initial, seen⟩
  rw [exec_takeSample] at told
  change Told (x.engine.published.take x.engine.published.length) _ at told
  rw [List.take_length, ← exec_takeSample] at told
  exact told

/-- All clients together own what there is. -/
theorem sum_assetsOf (e : MatchingEngine ℚ) :
    (e.portfolios.keys.map e.assetsOf).sum = e.totalAssets := by
  rw [AList.keys, List.keys, List.map_map, totalAssets, Table.sumBy]
  refine congrArg List.sum (List.map_congr_left fun entry mem => ?_)
  have found : e.portfolios.lookup entry.1 = some entry.2 := Table.mem_entries_iff.mp mem
  rw [Function.comp_apply, assetsOf, portfolioSnapshot, found, Option.getD_some]

/-- What a trade does to the cash of a client. -/
theorem fst_change (t : Trade ℚ) (client : ClientId) : (t.change client).1
    = (if t.seller = client then (t.quantity : ℚ) * t.price else 0)
      - if t.buyer = client then (t.quantity : ℚ) * t.price else 0 := by
  have paid : t.purchase.1 = -((t.quantity : ℚ) * t.price) := by
    simp [Trade.purchase, sharesOf, cashOf]
  rw [Trade.change, Prod.fst_sub, apply_ite Prod.fst, apply_ite Prod.fst, paid]
  simp only [Prod.fst_zero, eq_comm (a := client)]
  split_ifs <;> simp

theorem notional_filter (p : Trade ℚ → Prop) [DecidablePred p] (ts : List (Trade ℚ)) :
    notional (ts.filter fun t => p t)
      = (ts.map fun t => if p t then (t.quantity : ℚ) * t.price else 0).sum := by
  rw [notional, List.sum_map_ite, List.map_const', List.sum_replicate, nsmul_zero, add_zero]

/-- What some trades did to the cash of a client. -/
theorem sum_change_fst (client : ClientId) (ts : List (Trade ℚ)) :
    (ts.map fun t : Trade ℚ => t.change client).sum.1
      = notional (ts.filter fun t => t.seller = client)
        - notional (ts.filter fun t => t.buyer = client) := by
  rw [notional_filter (fun t => t.seller = client), notional_filter (fun t => t.buyer = client),
    ← sum_map_sub, ← sum_fst]
  exact congrArg List.sum (List.map_congr_left fun t _ => fst_change t client)

/-- A sum over the rows of all clients. -/
theorem sum_portfolioRows (x : Recorded ℚ) (tick : ReportTick ℚ) {M : Type} [AddCommMonoid M]
    (f : PortfolioRow ℚ → M) (g : ClientId → M)
    (same : ∀ c ∈ x.engine.portfolios, f (Report.portfolioRow tick.holdings x.engine.lastPrices
      (x.last tick).firstSeen (countBy (fun row => row.trade.buyer) (x.last tick).trades)
      (countBy (fun row => row.trade.seller) (x.last tick).trades) x.engine.portfolios c) = g c) :
    ((x.portfolioRows tick).map f).sum = (x.engine.portfolios.keys.map g).sum := by
  rw [Recorded.portfolioRows, List.map_map, ((List.perm_insertionSort _ _).map _).sum_eq]
  exact congrArg List.sum (List.map_congr_left fun c mem => same c (AList.mem_keys.mp mem))

/-- What a finished run leaves for the report. -/
structure Ended (setup : List (SetupCall ℚ)) (x : Recorded ℚ) : Prop where
  recording : Recording setup x
  steady : Steady setup x.engine
  closed : Closed (Rules.of (setUp setup)) x.engine
  engine : EngineInvariant x.engine []
  traded : x.engine.publishedTrades.Perm x.engine.emitted
  positive : ∀ t ∈ x.engine.emitted, 0 < t.quantity
  counted : x.engine.metrics.counts = (x.engine.published.map Event.counts).sum
  settled : ∀ c, x.engine.assetsOf c
    = (setUp setup).assetsOf c + (x.engine.emitted.map fun t => t.change c).sum

theorem metrics_setUp {P : Type} [Zero P] (setup : List (SetupCall P)) :
    (setUp setup).metrics = {} := by
  refine List.foldlRecOn (motive := fun e => e.metrics = {})
    setup SetupCall.apply (b := {}) rfl ?_
  intro e none call _
  cases call <;> exact none

theorem Ended.of_interleaves {bookDepth : Nat} {tick : SampleTick ℚ}
    {calls : List (List (EngineCall ℚ))} {events : Nat} {ticks : List (SampleTick ℚ)}
    {x : Recorded ℚ} {ps : List (Prog (Recorded ℚ) Unit)}
    (run : Interleaves (Recorded.started setup bookDepth tick,
      Recorded.threads (· + ·) calls events ticks) (x, ps)) (finished : Finished ps) :
    Ended setup x := by
  obtain ⟨recording, qs, alone, done⟩ := recording_of_interleaves run
  obtain ⟨steady, closed⟩ := Steady.of_interleaves alone
  obtain ⟨engine, positive⟩ := trading_of_finished alone (done finished)
  refine ⟨recording, steady, closed, engine, publishedTrades_perm alone (done finished), positive,
    ?_, ?_⟩
  · refine counts_of_finished alone (done finished) ?_
    rw [metrics_setUp, published_setUp]
    rfl
  · intro c
    have owe : ∀ p ∈ calls.map threadProgram, OwesAssets p 0 := by
      intro p mem
      obtain ⟨thread, -, rfl⟩ := List.mem_map.mp mem
      exact assetsLedger.threadProgram thread
    have mine := congrFun ((interleaves_conserve alone owe).2 (done finished)) c
    unfold unexplained at mine
    rw [(setUp_gives setup).2.2, List.map_nil, List.sum_nil, sub_zero] at mine
    exact sub_eq_iff_eq_add.mp mine

/-- What events tell about trades. -/
theorem trades_of_counts : ∀ events : List (Event ℚ), (events.map Event.counts).sum.2.2.2.2
    = (tradeCounts (events.filterMap Event.trade?)).2.2.2.2
  | [] => rfl
  | event :: events => by
      have rest := trades_of_counts events
      rw [List.map_cons, List.sum_cons, Prod.snd_add, Prod.snd_add, Prod.snd_add,
      Prod.snd_add, rest]
      cases event with
      | trade t =>
          change _ = (tradeCounts (t :: events.filterMap Event.trade?)).2.2.2.2
          rw [tradeCounts_cons]
          rfl
      | _ => exact zero_add _

namespace Ended

variable {x : Recorded ℚ}

/-- The trades of the report are those that were made. -/
theorem trades (ended : Ended setup x) (tick : ReportTick ℚ) :
    ((x.last tick).trades.map TradeRow.trade).Perm x.engine.emitted :=
  (ended.recording.last ended.steady tick).1.trades ▸ ended.traded

/-- A client's row in terms of what the client owns before and after. -/
theorem portfolioRow (ended : Ended setup x) (tick : ReportTick ℚ) {c : ClientId}
    (known : c ∈ x.engine.portfolios) (buys sells : Table ClientId Nat) :
    let row := Report.portfolioRow tick.holdings x.engine.lastPrices
      (x.last tick).firstSeen buys sells x.engine.portfolios c
    let before := (setUp setup).assetsOf c
    let after := x.engine.assetsOf c
    row.initialCash = before.1 ∧ row.finalCash = after.1 ∧
      row.pnl = after.1 + worth x.engine.lastPrices after.2
        - (before.1 + worth (setUp setup).lastPrices before.2) := by
  intro row before after
  obtain ⟨-, -, seen⟩ := ended.recording.last ended.steady tick
  obtain ⟨p, hp⟩ := Option.isSome_iff_exists.mp
    (AList.lookup_isSome.mpr ((ended.steady.accounts c).mp known))
  obtain ⟨t, first⟩ := seen c p hp
  have owned : before = p.assets := by
    change ((setUp setup).portfolioSnapshot c).assets = _
    rw [portfolioSnapshot, hp, Option.getD_some]
  have shown : row.initialCash = p.cash ∧
      row.initialNetWorth = p.cash + worth (setUp setup).lastPrices p.holding := by
    constructor
    · change (((x.last tick).firstSeen.lookup c).getD _).cash = _
      rw [first, Option.getD_some]
    · change (((x.last tick).firstSeen.lookup c).getD _).netWorth = _
      rw [first, Option.getD_some]
  refine ⟨shown.1.trans (congrArg Prod.fst owned).symm, rfl, ?_⟩
  change _ - row.initialNetWorth = _
  rw [shown.2, netWorth_eq, owned]
  rfl

/-- The clients in the order of the report. -/
theorem perm_clients (ended : Ended setup x) :
    (x.engine.portfolios.keys.insertionSort (· ≤ ·)).Perm (setUp setup).portfolios.keys :=
  (List.perm_insertionSort _ _).trans (perm_keys ended.steady.accounts)

/-- The symbols in the order of the report. -/
theorem perm_listed (ended : Ended setup x) (tick : ReportTick ℚ) :
    (tick.listed x.engine).Perm (setUp setup).books.keys :=
  (List.perm_insertionSort _ _).trans (ended.steady.listed tick.symbols)

/-- All clients own before what they own together afterwards. -/
theorem sum_assets (ended : Ended setup x) :
    (x.engine.portfolios.keys.map x.engine.assetsOf).sum = givenOut (injections setup) ∧
      (x.engine.portfolios.keys.map (setUp setup).assetsOf).sum = givenOut (injections setup) := by
  constructor
  · rw [sum_assetsOf]
    exact ended.steady.total
  · rw [((perm_keys ended.steady.accounts).map _).sum_eq, sum_assetsOf]
    exact (setUp_gives setup).2.1

/-- The recorder knows from the events what the engine has counted. -/
theorem counts (ended : Ended setup x) (tick : ReportTick ℚ) :
    (x.last tick).trades.length = x.engine.metrics.tradesExecuted ∧
      ((x.last tick).trades.map fun row => row.trade.quantity).sum = x.engine.metrics.volumeTraded ∧
      ((x.last tick).rejectionsByReason.map Prod.snd).sum = x.engine.metrics.ordersRejected ∧
      (x.last tick).queuedEvents = x.engine.metrics.ordersQueued ∧
      (x.last tick).expiredEvents = x.engine.metrics.ordersExpired := by
  obtain ⟨told, -, -⟩ := ended.recording.last ended.steady tick
  have counted := ended.counted
  have executed := (congrArg (fun c => c.2.2.2.2) counted).trans (trades_of_counts _)
  rw [← told.trades] at executed
  have number : (x.engine.metrics.tradesExecuted : ℤ)
      = ((x.last tick).trades.map TradeRow.trade).length := congrArg Prod.fst executed
  have volume := congrArg Prod.snd executed
  rw [List.length_map] at number
  have positive : surplus ((x.last tick).trades.map TradeRow.trade) = 0 :=
    surplus_of_pos fun t mem => ended.positive t ((ended.trades tick).subset mem)
  have quantity : ((x.last tick).trades.map fun row => row.trade.quantity).sum
      = tradedQuantity ((x.last tick).trades.map TradeRow.trade) := by
    rw [tradedQuantity, List.map_map]
    rfl
  unfold surplus at positive
  refine ⟨?_, ?_, ?_, ?_, ?_⟩
  · exact (Int.natCast_inj.mp number).symm
  · rw [quantity]
    exact (sub_eq_zero.mp positive).symm.trans volume.symm
  · exact Int.natCast_inj.mp (told.rejected.trans (congrArg (fun c => c.2.1) counted).symm)
  · exact Int.natCast_inj.mp (told.queued.trans (congrArg (fun c => c.2.2.1) counted).symm)
  · exact Int.natCast_inj.mp (told.expired.trans (congrArg (fun c => c.2.2.2.1) counted).symm)

/-- A trade of the report is of known clients, on a symbol of the report. -/
theorem between (ended : Ended setup x) (tick : ReportTick ℚ) {row : TradeRow ℚ}
    (mem : row ∈ (x.last tick).trades) : row.trade.symbol ∈ tick.listed x.engine ∧
      ∀ side, row.trade.party side ∈ x.engine.portfolios.keys := by
  have parties : (Rules.of (setUp setup)).Between row.trade :=
    ended.closed.trades _ ((ended.trades tick).subset (List.mem_map_of_mem mem))
  have symbols := (ended.perm_listed tick).symm
  have clients := (perm_keys ended.steady.accounts).symm
  exact ⟨symbols.subset (AList.mem_keys.mpr parties.listed), fun side =>
    clients.subset (AList.mem_keys.mpr (parties.members side))⟩

/-- A sum over the rows of all symbols that is one over the trades of each. -/
theorem sum_symbolRows (ended : Ended setup x) (tick : ReportTick ℚ) {M : Type} [AddCommMonoid M]
    (f : SymbolRow ℚ → M) (g : TradeRow ℚ → M)
    (stats : ∀ s, f (Report.symbolRow (· + ·) (x.last tick).initialPrices x.engine.lastPrices
        (((Report.statsOf (· + ·) (x.last tick).trades).lookup s).getD default) s
        (x.engine.snapshot (· + ·) s Report.unlimited) (x.engine.restingOrders s).length
        (((countBy Order.symbol x.engine.waitingById).lookup s).getD 0))
      = (((x.last tick).trades.filter fun row => row.trade.symbol = s).map g).sum) :
    ((x.symbolRows tick).map f).sum = ((x.last tick).trades.map g).sum := by
  have nodup : (tick.listed x.engine).Nodup :=
    (ended.perm_listed tick).nodup_iff.mpr (AList.keys_nodup _)
  rw [Recorded.symbolRows, List.map_map, ← Table.sum_fibers
    (fun row : TradeRow ℚ => row.trade.symbol) g nodup fun row mem => (ended.between tick mem).1]
  exact congrArg List.sum (List.map_congr_left fun s _ => stats s)

end Ended

end

/-- **The report reconciles.** Threads trade under any schedule while the recorder watches; once they
have finished, the report is written. Its trades are those that were made, each once. It has one
row for each client, whose cash has changed by what the client's rows in `trades.csv` say; the
totals of cash before and after are what was given out; and the profits and losses of all clients
together are what the price changes in `symbols.csv` make of all shares. -/
theorem report_reconciles (setup : List (SetupCall ℚ)) (bookDepth : Nat) (tick : SampleTick ℚ)
    (calls : List (List (EngineCall ℚ))) (events : Nat) (ticks : List (SampleTick ℚ))
    (last : ReportTick ℚ) {x : Recorded ℚ} {ps : List (Prog (Recorded ℚ) Unit)}
    (run : Interleaves (Recorded.started setup bookDepth tick,
      Recorded.threads (· + ·) calls events ticks) (x, ps)) (finished : Finished ps) :
    let report := ((Recorded.writeReport (· + ·) last).exec x).1
    let trades := report.trades.map TradeRow.trade
    trades.Perm x.engine.emitted ∧
      (report.portfoliosFinal.map PortfolioRow.client).Perm (setUp setup).portfolios.keys ∧
      (report.symbols.map SymbolRow.symbol).Perm (setUp setup).books.keys ∧
      (∀ row ∈ report.portfoliosFinal, row.finalCash - row.initialCash
        = notional (trades.filter fun t => t.seller = row.client)
          - notional (trades.filter fun t => t.buyer = row.client)) ∧
      report.summary.totalCashInitial = cashIssued setup ∧
      report.summary.totalCashFinal = cashIssued setup ∧
      (report.portfoliosFinal.map PortfolioRow.pnl).sum = (report.symbols.map fun row =>
        (sharesIssued setup row.symbol : ℚ) * (row.finalPrice - row.initialPrice)).sum := by
  intro report trades
  have ended := Ended.of_interleaves run finished
  have w : Written last x report := written last x
  have traded : trades.Perm x.engine.emitted := by
    change (report.trades.map TradeRow.trade).Perm _
    rw [w.trades]
    exact ended.trades last
  obtain ⟨after, before⟩ := ended.sum_assets
  refine ⟨traded, ?_, ?_, ?_, ?_, ?_, ?_⟩
  · rw [w.portfolios, Recorded.portfolioRows, List.map_map]
    exact (List.map_id _).symm ▸ ended.perm_clients
  · rw [w.symbols, Recorded.symbolRows, List.map_map]
    exact (List.map_id _).symm ▸ ended.perm_listed last
  · intro row mem
    rw [w.portfolios] at mem
    obtain ⟨c, known, rfl⟩ := List.mem_map.mp mem
    obtain ⟨initial, final, -⟩ := ended.portfolioRow last
      (AList.mem_keys.mp ((List.mem_insertionSort _).mp known)) _ _
    have mine := congrArg Prod.fst (ended.settled c)
    rw [Prod.fst_add, ((traded.symm.map _).sum_eq), sum_change_fst] at mine
    rw [initial, final, mine, add_sub_cancel_left]
    rfl
  · rw [w.cashInitial, sum_portfolioRows x last PortfolioRow.initialCash
      (fun c => ((setUp setup).assetsOf c).1) fun c known => (ended.portfolioRow last known _ _).1,
      sum_fst, before]
    rfl
  · rw [w.cashFinal, sum_portfolioRows x last PortfolioRow.finalCash
      (fun c => (x.engine.assetsOf c).1) fun c known => (ended.portfolioRow last known _ _).2.1,
      sum_fst, after]
    rfl
  · rw [w.portfolios, sum_portfolioRows x last PortfolioRow.pnl
      (fun c => (x.engine.assetsOf c).1 + worth x.engine.lastPrices (x.engine.assetsOf c).2
        - (((setUp setup).assetsOf c).1 + worth (setUp setup).lastPrices
          ((setUp setup).assetsOf c).2))
      fun c known => (ended.portfolioRow last known _ _).2.2, sum_map_sub, sum_worth,
        sum_worth, after,
      before, add_sub_add_left_eq_sub]
    have listed := ended.perm_listed last
    have final := worth_eq_sum x.engine.lastPrices (sharesIssued setup)
      (listed.trans (perm_keys ended.steady.prices).symm)
    have initial := worth_eq_sum (setUp setup).lastPrices (sharesIssued setup)
      (listed.trans (perm_keys Steady.setUp.prices).symm)
    rw [w.symbols, Recorded.symbolRows, List.map_map]
    refine (congrArg₂ (· - ·) final initial).trans ?_
    rw [← sum_map_sub]
    refine congrArg List.sum (List.map_congr_left fun s _ => ?_)
    rw [← mul_sub, ← (ended.recording.last ended.steady last).2.1]
    rfl

/-- **The summary is exact.** Once the threads have finished, the summary has the numbers that the
engine counted, though the recorder knows them from events only; and the rows of clients and of
symbols add up to it. -/
theorem summary_exact (setup : List (SetupCall ℚ)) (bookDepth : Nat) (tick : SampleTick ℚ)
    (calls : List (List (EngineCall ℚ))) (events : Nat) (ticks : List (SampleTick ℚ))
    (last : ReportTick ℚ) {x : Recorded ℚ} {ps : List (Prog (Recorded ℚ) Unit)}
    (run : Interleaves (Recorded.started setup bookDepth tick,
      Recorded.threads (· + ·) calls events ticks) (x, ps)) (finished : Finished ps) :
    let report := ((Recorded.writeReport (· + ·) last).exec x).1
    let summary := report.summary
    summary.trades = x.engine.metrics.tradesExecuted ∧
      summary.volume = x.engine.metrics.volumeTraded ∧
      summary.ordersRejected = x.engine.metrics.ordersRejected ∧
      summary.ordersQueued = x.engine.metrics.ordersQueued ∧
      summary.ordersExpired = x.engine.metrics.ordersExpired ∧
      (report.portfoliosFinal.map PortfolioRow.tradesAsBuyer).sum = summary.trades ∧
      (report.portfoliosFinal.map PortfolioRow.tradesAsSeller).sum = summary.trades ∧
      (report.symbols.map SymbolRow.trades).sum = summary.trades ∧
      (report.symbols.map SymbolRow.volume).sum = summary.volume ∧
      (report.symbols.map SymbolRow.notional).sum = summary.notional ∧
      (report.symbols.map SymbolRow.restingOrders).sum = summary.restingOrdersFinal ∧
      (report.symbols.map SymbolRow.waitingOrders).sum = summary.waitingOrdersFinal := by
  intro report summary
  have ended := Ended.of_interleaves run finished
  have w : Written last x report := written last x
  obtain ⟨number, volume, rejected, queued, expired⟩ := ended.counts last
  have one (rows : List (TradeRow ℚ)) : (rows.map fun _ => 1).sum = rows.length := by simp
  refine ⟨w.count.trans number, w.volume.trans volume, w.rejected.trans rejected,
    w.queued.trans queued, w.expired.trans expired, ?_, ?_, ?_, ?_, ?_, ?_, ?_⟩
  · rw [w.portfolios, sum_portfolioRows x last PortfolioRow.tradesAsBuyer _ fun _ _ => rfl, w.count]
    exact sum_countBy _ _ (AList.keys_nodup _) fun row mem => (ended.between last mem).2 .buy
  · rw [w.portfolios, sum_portfolioRows x last PortfolioRow.tradesAsSeller _ fun _ _ => rfl, w.count]
    exact sum_countBy _ _ (AList.keys_nodup _) fun row mem => (ended.between last mem).2 .sell
  · rw [w.symbols, w.count, ← one]
    refine ended.sum_symbolRows last SymbolRow.trades _ fun s => ?_
    exact (lookup_statsOf _ s).1.trans (one _).symm
  · rw [w.symbols, w.volume]
    exact ended.sum_symbolRows last SymbolRow.volume _ fun s => (lookup_statsOf _ s).2.1
  · rw [w.symbols, w.notional]
    exact ended.sum_symbolRows last SymbolRow.notional _ fun s => (lookup_statsOf _ s).2.2
  · rw [w.symbols, w.resting, Recorded.symbolRows, List.map_map]
    rfl
  · have listed := ended.perm_listed last
    have nodup : (last.listed x.engine).Nodup := listed.nodup_iff.mpr (AList.keys_nodup _)
    rw [w.symbols, w.waiting, Recorded.symbolRows, List.map_map]
    refine sum_countBy Order.symbol x.engine.waitingById nodup fun o mem => ?_
    obtain ⟨-, known⟩ := ended.engine.arriving o ((List.mem_insertionSort _).mp mem)
    exact listed.symm.subset (AList.mem_keys.mpr ((ended.steady.symbols _).mp known))

/-! ### A small run -/

/-- A sample at a time. -/
def sampleAt (now : Int) : SampleTick ℚ :=
  ⟨now, .stored, .stored, .stored⟩

/-- A report at a time. -/
def reportAt (now : Int) : ReportTick ℚ :=
  ⟨sampleAt now, .stored, .stored, now⟩

/-- Two clients trade; the second of the four events is delivered before the recorder's sample. -/
theorem exists_recordedRun : ∃ x ps,
    Interleaves (Recorded.started buyerAndSeller 10 (sampleAt 0),
      Recorded.threads (· + ·) crossingThreads 2 [sampleAt 1000000]) (x, ps) ∧ Finished ps ∧
      x.recorder.portfolioSamples.map PortfolioSample.cash = [0, 1000, 500, 500] ∧
      (((Recorded.writeReport (· + ·) (reportAt 2000000)).exec x).1.portfoliosFinal.map
        fun row => (row.client, row.finalCash - row.initialCash)) = [(1, -500), (2, 500)] ∧
      ((Recorded.writeReport (· + ·) (reportAt 2000000)).exec x).1.summary.trades = 1 := by
  obtain ⟨ps, run, finished⟩ := interleaves_execAll
    (Recorded.threads (· + ·) crossingThreads 2 [sampleAt 1000000])
    (Recorded.started buyerAndSeller 10 (sampleAt 0))
  refine ⟨_, ps, run, finished, ?_, ?_, ?_⟩
  all_goals decide +kernel

theorem report_reconciles_recordedRun : ∃ x ps,
    Interleaves (Recorded.started buyerAndSeller 10 (sampleAt 0),
      Recorded.threads (· + ·) crossingThreads 2 [sampleAt 1000000]) (x, ps) ∧ Finished ps ∧
      let report := ((Recorded.writeReport (· + ·) (reportAt 2000000)).exec x).1
      (report.portfoliosFinal.map fun row => (row.client, row.finalCash - row.initialCash))
        = [(1, -500), (2, 500)] ∧
      (report.trades.map TradeRow.trade).Perm x.engine.emitted ∧
      report.summary.totalCashFinal = cashIssued buyerAndSeller := by
  obtain ⟨x, ps, run, finished, -, changed, -⟩ := exists_recordedRun
  obtain ⟨traded, -, -, -, -, total, -⟩ :=
    report_reconciles _ _ _ _ _ _ (reportAt 2000000) run finished
  exact ⟨x, ps, run, finished, changed, traded, total⟩

theorem summary_exact_recordedRun : ∃ x ps,
    Interleaves (Recorded.started buyerAndSeller 10 (sampleAt 0),
      Recorded.threads (· + ·) crossingThreads 2 [sampleAt 1000000]) (x, ps) ∧ Finished ps ∧
      let report := ((Recorded.writeReport (· + ·) (reportAt 2000000)).exec x).1
      report.summary.trades = 1 ∧ report.summary.trades = x.engine.metrics.tradesExecuted ∧
        (report.portfoliosFinal.map PortfolioRow.tradesAsBuyer).sum = report.summary.trades := by
  obtain ⟨x, ps, run, finished, -, -, one⟩ := exists_recordedRun
  obtain ⟨number, -, -, -, -, bought, -⟩ :=
    summary_exact _ _ _ _ _ _ (reportAt 2000000) run finished
  exact ⟨x, ps, run, finished, one, number, bought⟩

end StockMarket
