import Mathlib.Algebra.BigOperators.Ring.Finset
import Mathlib.Algebra.Order.BigOperators.Group.List
import Mathlib.Algebra.Order.Field.Basic
import Mathlib.Algebra.Order.Ring.Cast
import Mathlib.Algebra.Order.Ring.Rat
import Mathlib.Data.Set.Finite.Lemmas
import Mathlib.Data.Set.Finite.List
import StockMarket.Engine.Settlement
import StockMarket.Lib.Int64
import StockMarket.Lib.Runs
import StockMarket.MarketData

/-!
Volumes and the average price do not depend on the order of delivery.

What `MarketData` keeps for a symbol is a fold over the trades of the symbol
(`stateOf_onTradesWith`). Its candles are those of the runs of trades in one bucket
(`candles_cover`), each with the volume, the highest and the lowest price of its run. So the
volumes add up to the total volume in whatever order the trades come and however many
candles a bucket gets, and every price lies between the bounds of some candle, which bounds
the average as well (`volumeRight_exact`). With the 64 bits of a quantity all this holds as
long as the sum of the quantities fits (`volumeRight_iff`).
-/

namespace StockMarket

open MarketData

variable {P : Type}

/-! ### Delivered trades -/

namespace MarketData

section

variable [Zero P]

/-- What is known of a symbol. -/
def stateOf (m : MarketData P) (symbol : Symbol) : SymbolState P :=
  (m.state.lookup symbol).getD default

theorem totalVolume_eq (m : MarketData P) (s : Symbol) :
    m.totalVolume s = (m.stateOf s).totalVolume := by
  unfold totalVolume stateOf
  cases m.state.lookup s <;> rfl

theorem candles_eq (m : MarketData P) (s : Symbol) : m.candles s = (m.stateOf s).candles := by
  unfold candles stateOf
  cases m.state.lookup s <;> rfl

theorem vwap_eq [Div P] [IntCast P] (m : MarketData P) (s : Symbol) :
    m.vwap s = if (m.stateOf s).totalVolume = 0 then 0
      else (m.stateOf s).cumulativeNotional / ((m.stateOf s).totalVolume : P) := by
  unfold vwap stateOf
  cases m.state.lookup s <;> rfl

end

variable [Zero P] [Add P] [Mul P] [IntCast P] [LT P] [DecidableLT P]

/-- `MarketData` after some trades. -/
def onTradesWith (plus : Int → Int → Int) (m : MarketData P) (ts : List (Trade P)) :
    MarketData P :=
  ts.foldl (onTradeWith plus) m

/-- With the exact addition. -/
def onTrades (m : MarketData P) (ts : List (Trade P)) : MarketData P :=
  m.onTradesWith (· + ·) ts

/-- A trade changes what is known of its symbol, and of no other. -/
theorem stateOf_onTradeWith (plus : Int → Int → Int) (m : MarketData P) (t : Trade P)
    (s : Symbol) : (m.onTradeWith plus t).stateOf s
      = if t.symbol = s then notedWith plus m.bucketSize t (m.stateOf s) else m.stateOf s := by
  unfold stateOf onTradeWith
  split_ifs with own
  · subst own
    rw [Table.lookup_update, Option.getD_some]
  · rw [Table.lookup_update_ne (Ne.symm own)]

theorem stateOf_onTradesWith (plus : Int → Int → Int) (ts : List (Trade P)) (s : Symbol) :
    ∀ m : MarketData P, (m.onTradesWith plus ts).stateOf s
      = (tradesOf s ts).foldl (fun state t => notedWith plus m.bucketSize t state)
          (m.stateOf s) := by
  induction ts with
  | nil => exact fun _ => rfl
  | cons t ts ih =>
      intro m
      have rest := ih (m.onTradeWith plus t)
      rw [stateOf_onTradeWith] at rest
      refine rest.trans ?_
      by_cases own : t.symbol = s
      · rw [if_pos own, tradesOf, tradesOf, List.filter_cons_of_pos (by simpa using own)]
        rfl
      · rw [if_neg own, tradesOf, tradesOf, List.filter_cons_of_neg (by simpa using own)]
        rfl

theorem stateOf_onTrades (ts : List (Trade P)) (s : Symbol) (m : MarketData P) :
    (m.onTrades ts).stateOf s
      = (tradesOf s ts).foldl (fun state t => noted m.bucketSize t state) (m.stateOf s) :=
  stateOf_onTradesWith (· + ·) ts s m

omit [Zero P] in
/-- The total volume is the quantity of all trades of the symbol. -/
theorem totalVolume_foldl (bucketSize : Int) (ts : List (Trade P)) : ∀ state : SymbolState P,
    (ts.foldl (fun state t => noted bucketSize t state) state).totalVolume
      = state.totalVolume + tradedQuantity ts := by
  induction ts with
  | nil => exact fun state => (Int.add_zero _).symm
  | cons t ts ih =>
      intro state
      rw [List.foldl_cons, ih, tradedQuantity_cons, ← Int.add_assoc]
      rfl

end MarketData

/-! ### Candles and runs -/

/-- The prices of some trades. -/
def prices (ts : List (Trade P)) : Set P :=
  {p | ∃ t ∈ ts, t.price = p}

theorem prices_concat (ts : List (Trade P)) (t : Trade P) :
    prices (ts ++ [t]) = insert t.price (prices ts) := by
  ext p
  simp [prices, or_and_right, exists_or, or_comm, eq_comm]

/-- The candle has the bucket, the prices and the volume of the trades. -/
structure Candle.Covers [LE P] (bucketSize : Int) (ts : List (Trade P)) (c : Candle P) : Prop where
  bucket : ∀ t ∈ ts, bucketStartOf bucketSize t.timestamp = c.bucketStart
  opening : ts.head?.map Trade.price = some c.opening
  high : IsGreatest (prices ts) c.high
  low : IsLeast (prices ts) c.low
  close : ts.getLast?.map Trade.price = some c.close
  volume : c.volume = tradedQuantity ts

namespace Candle.Covers

variable [LinearOrder P] {bucketSize : Int} {ts : List (Trade P)} {c : Candle P}

theorem single (bucketSize : Int) (t : Trade P) :
    Covers bucketSize [t] (opened (bucketStartOf bucketSize t.timestamp) t) where
  bucket := by simp [opened]
  opening := rfl
  high := by simp [opened, prices]
  low := by simp [opened, prices]
  close := rfl
  volume := (Int.add_zero _).symm

theorem concat (covers : Covers bucketSize ts c) {t : Trade P}
    (same : bucketStartOf bucketSize t.timestamp = c.bucketStart) :
    Covers bucketSize (ts ++ [t]) (c.extended t) where
  bucket := by
    intro u mem
    rcases List.mem_append.mp mem with mem | mem
    · exact covers.bucket u mem
    · rw [List.mem_singleton.mp mem, same]
      rfl
  opening := by
    cases ts with
    | nil => exact absurd covers.opening (by simp)
    | cons u us => exact covers.opening
  high := by
    have greatest := covers.high.insert t.price
    rwa [← prices_concat, max_comm, max_def_lt] at greatest
  low := by
    have least := covers.low.insert t.price
    rwa [← prices_concat, min_def_lt] at least
  close := by simp [extended, extendedWith]
  volume := by
    rw [tradedQuantity_append, ← covers.volume, tradedQuantity_cons]
    simp [extended, extendedWith, tradedQuantity]

end Candle.Covers

section

variable [LinearOrder P] [Zero P] [Add P] [Mul P] [IntCast P] (bucketSize : Int)

/-- The bucket of a trade. -/
def Trade.bucket (t : Trade P) : Int :=
  bucketStartOf bucketSize t.timestamp

omit [Zero P] [Add P] [Mul P] [IntCast P] in
theorem add_eq_addRun (cs : List (Candle P)) (t : Trade P) :
    Candle.add (t.bucket bucketSize) t cs
      = addRun (Trade.bucket bucketSize) Candle.bucketStart
          (fun t => Candle.opened (t.bucket bucketSize) t) Candle.extended cs t := by
  unfold Candle.add Candle.addWith addRun
  cases cs.getLast? <;> rfl

omit [Zero P] in
theorem candles_foldl (ts : List (Trade P)) : ∀ state : SymbolState P,
    (ts.foldl (fun state t => noted bucketSize t state) state).candles
      = ts.foldl (addRun (Trade.bucket bucketSize) Candle.bucketStart
          (fun t => Candle.opened (t.bucket bucketSize) t) Candle.extended) state.candles := by
  induction ts with
  | nil => exact fun _ => rfl
  | cons t ts ih =>
      intro state
      rw [List.foldl_cons, List.foldl_cons, ih, ← add_eq_addRun]
      rfl

/-- **The candles of a symbol are those of the runs of its trades in one bucket.** -/
theorem candles_cover (s : Symbol) (ts : List (Trade P)) :
    List.Forall₂ (Candle.Covers bucketSize) (runs (Trade.bucket bucketSize) (tradesOf s ts))
      ((onTrades { bucketSize } ts).candles s) := by
  rw [candles_eq, stateOf_onTrades, candles_foldl]
  refine forall₂_runs (fun _ _ covers => covers.bucket) (Candle.Covers.single bucketSize) ?_ _
  exact fun _ _ _ covers same => covers.concat same

end

/-- The volumes of the candles of some trades. -/
theorem sum_volumes [LE P] {bucketSize : Int} {rs : List (List (Trade P))} {cs : List (Candle P)}
    (cover : List.Forall₂ (Candle.Covers bucketSize) rs cs) :
    (cs.map Candle.volume).sum = tradedQuantity rs.flatten := by
  induction cover with
  | nil => rfl
  | cons covers _ ih =>
      rw [List.map_cons, List.sum_cons, ih, covers.volume, List.flatten_cons, tradedQuantity_append]

/-- The price of a trade is within the bounds of a candle. -/
theorem exists_candle_around [LE P] {bucketSize : Int} {rs : List (List (Trade P))}
    {cs : List (Candle P)} (cover : List.Forall₂ (Candle.Covers bucketSize) rs cs) {t : Trade P}
    (mem : t ∈ rs.flatten) : ∃ c ∈ cs, c.low ≤ t.price ∧ t.price ≤ c.high := by
  induction cover with
  | nil => exact absurd mem (by simp)
  | @cons r c rs cs covers _ ih =>
      rw [List.flatten_cons, List.mem_append] at mem
      rcases mem with own | later
      · exact ⟨c, List.mem_cons_self, covers.low.2 ⟨t, own, rfl⟩, covers.high.2 ⟨t, own, rfl⟩⟩
      · obtain ⟨c', mem, bounds⟩ := ih later
        exact ⟨c', List.mem_cons_of_mem _ mem, bounds⟩

/-! ### The average price -/

theorem notional_foldl (bucketSize : Int) (ts : List (Trade ℚ)) : ∀ state : SymbolState ℚ,
    (ts.foldl (fun state t => noted bucketSize t state) state).cumulativeNotional
      = state.cumulativeNotional + notional ts := by
  induction ts with
  | nil => exact fun state => (add_zero _).symm
  | cons t ts ih =>
      intro state
      rw [List.foldl_cons, ih, notional, notional, List.map_cons, List.sum_cons, ← add_assoc]
      rfl

/-- What the same trades would have cost at one price. -/
theorem sum_at_price (ts : List (Trade ℚ)) (p : ℚ) :
    (ts.map fun t => (t.quantity : ℚ) * p).sum = p * tradedQuantity ts := by
  rw [List.sum_map_mul_right, mul_comm, tradedQuantity, Int.cast_list_sum, List.map_map]
  rfl

theorem notional_mono {ts : List (Trade ℚ)} {f g : Trade ℚ → ℚ}
    (pos : ∀ t ∈ ts, 0 < t.quantity) (le : ∀ t ∈ ts, f t ≤ g t) :
    (ts.map fun t => (t.quantity : ℚ) * f t).sum ≤
    (ts.map fun t => (t.quantity : ℚ) * g t).sum := by
  refine List.sum_le_sum fun t mem => ?_
  have weight : (0 : ℚ) ≤ t.quantity := Int.cast_nonneg (pos t mem).le
  exact mul_le_mul_of_nonneg_left (le t mem) weight

theorem tradedQuantity_nonneg {ts : List (Trade P)} (pos : ∀ t ∈ ts, 0 ≤ t.quantity) :
    0 ≤ tradedQuantity ts :=
  List.sum_nonneg (List.forall_mem_map.mpr pos)

theorem tradedQuantity_pos : ∀ {ts : List (Trade P)}, ts ≠ [] → (∀ t ∈ ts, 0 < t.quantity) →
    0 < tradedQuantity ts
  | [], traded, _ => absurd rfl traded
  | t :: ts, _, pos => by
      have first := pos t List.mem_cons_self
      have rest := tradedQuantity_nonneg fun u mem => (pos u (List.mem_cons_of_mem t mem)).le
      rw [tradedQuantity_cons]
      omega

section

variable (bucketSize : Int) (s : Symbol) (ts : List (Trade ℚ))

theorem totalVolume_onTrades :
    (onTrades { bucketSize } ts).totalVolume s = tradedQuantity (tradesOf s ts) := by
  rw [totalVolume_eq, stateOf_onTrades, totalVolume_foldl]
  exact Int.zero_add _

theorem vwap_onTrades (bucketSize : Int) {s : Symbol} {ts : List (Trade ℚ)}
    (pos : 0 < tradedQuantity (tradesOf s ts)) :
    (onTrades { bucketSize } ts).vwap s
      = notional (tradesOf s ts) / tradedQuantity (tradesOf s ts) := by
  have volume := totalVolume_onTrades bucketSize s ts
  rw [totalVolume_eq] at volume
  rw [vwap_eq, volume, if_neg pos.ne', stateOf_onTrades, notional_foldl]
  exact congrArg (· / _) (zero_add _)

end

/-- The total volume is the quantity of all trades of the symbol and that of all candles, the
average price lies between the lowest low and the highest high, and another order of the
trades changes neither. -/
structure VolumeRight (plus : Int → Int → Int) (bucketSize : Int) (s : Symbol)
    (ts : List (Trade ℚ)) : Prop where
  total : (onTradesWith plus { bucketSize } ts).totalVolume s = tradedQuantity (tradesOf s ts)
  candles : (onTradesWith plus { bucketSize } ts).totalVolume s
    = (((onTradesWith plus { bucketSize } ts).candles s).map Candle.volume).sum
  low : ∃ lowest,
    IsLeast {p | ∃ c ∈ (onTradesWith plus { bucketSize } ts).candles s, c.low = p} lowest ∧
      lowest ≤ (onTradesWith plus { bucketSize } ts).vwap s
  high : ∃ highest,
    IsGreatest {p | ∃ c ∈ (onTradesWith plus { bucketSize } ts).candles s, c.high = p} highest ∧
      (onTradesWith plus { bucketSize } ts).vwap s ≤ highest
  anyOrder : ∀ ts', ts'.Perm ts →
    (onTradesWith plus { bucketSize } ts').totalVolume s
        = (onTradesWith plus { bucketSize } ts).totalVolume s ∧
      (onTradesWith plus { bucketSize } ts').vwap s = (onTradesWith plus { bucketSize } ts).vwap s

/-- **The statistics do not depend on the order of the trades**, if volumes are exact. -/
theorem volumeRight_exact (bucketSize : Int) (s : Symbol) (ts : List (Trade ℚ))
    (traded : tradesOf s ts ≠ []) (pos : ∀ t ∈ tradesOf s ts, 0 < t.quantity) :
    VolumeRight (· + ·) bucketSize s ts := by
  have cover := candles_cover bucketSize s ts
  have volume := tradedQuantity_pos traded pos
  have weight : (0 : ℚ) < tradedQuantity (tradesOf s ts) := Int.cast_pos.mpr volume
  have around : ∀ t ∈ tradesOf s ts, ∃ c ∈ (onTrades { bucketSize } ts).candles s,
      c.low ≤ t.price ∧ t.price ≤ c.high := fun t mem =>
    exists_candle_around cover (by rwa [flatten_runs])
  have candles : {c | c ∈ (onTrades { bucketSize } ts).candles s}.Nonempty := by
    obtain ⟨t, mem⟩ := List.exists_mem_of_ne_nil _ traded
    obtain ⟨c, hc, -⟩ := around t mem
    exact ⟨c, hc⟩
  refine ⟨totalVolume_onTrades bucketSize s ts, ?_, ?_, ?_, fun ts' same => ?_⟩
  · refine (totalVolume_onTrades bucketSize s ts).trans ?_
    exact ((sum_volumes cover).trans (by rw [flatten_runs])).symm
  · obtain ⟨c, hc, least⟩ := Set.exists_min_image _ Candle.low (List.finite_toSet _) candles
    refine ⟨c.low, ⟨⟨c, hc, rfl⟩, fun p ⟨c', hc', eq⟩ => eq ▸ least c' hc'⟩, ?_⟩
    refine le_of_le_of_eq ?_ (vwap_onTrades _ volume).symm
    rw [le_div_iff₀ weight, ← sum_at_price]
    refine notional_mono pos fun t mem => ?_
    obtain ⟨c', hc', below, -⟩ := around t mem
    exact (least c' hc').trans below
  · obtain ⟨c, hc, greatest⟩ := Set.exists_max_image _ Candle.high (List.finite_toSet _) candles
    refine ⟨c.high, ⟨⟨c, hc, rfl⟩, fun p ⟨c', hc', eq⟩ => eq ▸ greatest c' hc'⟩, ?_⟩
    refine le_of_eq_of_le (vwap_onTrades _ volume) ?_
    rw [div_le_iff₀ weight, ← sum_at_price]
    refine notional_mono pos fun t mem => ?_
    obtain ⟨c', hc', -, above⟩ := around t mem
    exact above.trans (greatest c' hc')
  · have own : (tradesOf s ts').Perm (tradesOf s ts) := same.filter _
    have quantity : tradedQuantity (tradesOf s ts') = tradedQuantity (tradesOf s ts) :=
      (own.map _).sum_eq
    have paid : notional (tradesOf s ts') = notional (tradesOf s ts) := (own.map _).sum_eq
    have total := totalVolume_onTrades bucketSize s ts'
    have average := vwap_onTrades bucketSize (quantity ▸ volume)
    rw [quantity] at total average
    rw [paid] at average
    exact ⟨total.trans (totalVolume_onTrades bucketSize s ts).symm,
      average.trans (vwap_onTrades _ volume).symm⟩

/-! ### Volumes of 64 bits -/

/-- A candle was there before, or is that of the trade, or one that the trade was added to. -/
theorem Candle.mem_addWith [LT P] [DecidableLT P] {plus : Int → Int → Int} {start : Int}
    {t : Trade P} {cs : List (Candle P)} {c : Candle P} (mem : c ∈ addWith plus start t cs) :
    c ∈ cs ∨ c.volume = t.quantity ∨ ∃ c' ∈ cs, c.volume = plus c'.volume t.quantity := by
  unfold addWith at mem
  have opens : c ∈ cs ++ [opened start t] → c ∈ cs ∨ c.volume = t.quantity := by
    intro mem
    refine (List.mem_append.mp mem).imp_right fun new => ?_
    rw [List.mem_singleton.mp new]
    rfl
  cases last : cs.getLast? with
  | none =>
      rw [last] at mem
      exact (opens mem).imp_right .inl
  | some c' =>
      rw [last] at mem
      dsimp only at mem
      split at mem
      · exact (opens mem).imp_right .inl
      · rcases List.mem_append.mp mem with old | new
        · exact .inl (List.dropLast_subset _ old)
        · refine .inr (.inr ⟨c', List.mem_of_getLast? last, ?_⟩)
          rw [List.mem_singleton.mp new]
          rfl

/-- The volumes of the candles are positive and no larger than the total volume. -/
def SymbolState.VolumesWithin (state : SymbolState P) : Prop :=
  0 ≤ state.totalVolume ∧ ∀ c ∈ state.candles, 0 ≤ c.volume ∧ c.volume ≤ state.totalVolume

section

variable [Add P] [Mul P] [IntCast P] [LT P] [DecidableLT P]

/-- A trade that still fits is noted exactly. -/
theorem notedWith_add64 (bucketSize : Int) {t : Trade P} {state : SymbolState P}
    (within : state.VolumesWithin) (pos : 0 < t.quantity)
    (fits : state.totalVolume + t.quantity < 2 ^ 63) :
    notedWith add64 bucketSize t state = noted bucketSize t state ∧
      (noted bucketSize t state).VolumesWithin := by
  obtain ⟨total, candles⟩ := within
  have exact : ∀ v, 0 ≤ v → v ≤ state.totalVolume → add64 v t.quantity = v + t.quantity := by
    intro v low high
    exact wrap64_eq_self_iff.mpr ⟨by omega, by omega⟩
  constructor
  · unfold noted notedWith Candle.addWith
    cases last : state.candles.getLast? with
    | none => simp only [exact _ total le_rfl]
    | some c =>
        obtain ⟨low, high⟩ := candles c (List.mem_of_getLast? last)
        simp only [exact _ total le_rfl, Candle.extendedWith, exact _ low high]
  · refine ⟨?_, fun c mem => ?_⟩
    · change 0 ≤ state.totalVolume + t.quantity
      omega
    · change 0 ≤ c.volume ∧ c.volume ≤ state.totalVolume + t.quantity
      rcases Candle.mem_addWith mem with old | new | ⟨c', old, volume⟩
      · have := candles c old
        omega
      · omega
      · have := candles c' old
        omega

/-- So are more trades, if what they add up to fits. -/
theorem foldl_notedWith_add64 (bucketSize : Int) : ∀ (ts : List (Trade P)) {state : SymbolState P},
    state.VolumesWithin → (∀ t ∈ ts, 0 < t.quantity) →
      state.totalVolume + tradedQuantity ts < 2 ^ 63 →
        ts.foldl (fun state t => notedWith add64 bucketSize t state) state
          = ts.foldl (fun state t => noted bucketSize t state) state
  | [], _, _, _, _ => rfl
  | t :: ts, state, within, pos, fits => by
      obtain ⟨first, later⟩ := List.forall_mem_cons.mp pos
      have rest := tradedQuantity_nonneg fun u mem => (later u mem).le
      rw [tradedQuantity_cons] at fits
      obtain ⟨exact, kept⟩ := notedWith_add64 bucketSize within first (by omega)
      rw [List.foldl_cons, List.foldl_cons, exact]
      refine foldl_notedWith_add64 bucketSize ts kept later ?_
      change state.totalVolume + t.quantity + _ < _
      omega

end

theorem totalVolume_add64 (bucketSize : Int) (s : Symbol) (ts : List (Trade ℚ)) :
    FitsInt64 ((onTradesWith add64 { bucketSize } ts).totalVolume s) := by
  rw [totalVolume_eq, stateOf_onTradesWith]
  induction tradesOf s ts using List.reverseRecOn with
  | nil => exact (by decide : FitsInt64 0)
  | append_singleton ts t _ =>
      rw [List.foldl_append]
      exact fitsInt64_wrap64 _

/-- **With quantities of 64 bits** the statistics are right if and only if the sum of the
quantities fits. -/
theorem volumeRight_iff (bucketSize : Int) (s : Symbol) (ts : List (Trade ℚ))
    (traded : tradesOf s ts ≠ []) (pos : ∀ t ∈ tradesOf s ts, 0 < t.quantity) :
    VolumeRight add64 bucketSize s ts ↔ tradedQuantity (tradesOf s ts) < 2 ^ 63 := by
  constructor
  · intro right
    rw [← right.total]
    exact (totalVolume_add64 bucketSize s ts).2
  · intro fits
    have same : ∀ ts' : List (Trade ℚ), ts'.Perm ts →
        (onTradesWith add64 { bucketSize } ts').stateOf s
          = (onTrades { bucketSize } ts').stateOf s := by
      intro ts' perm
      have own : (tradesOf s ts').Perm (tradesOf s ts) := perm.filter _
      have quantity : tradedQuantity (tradesOf s ts') = tradedQuantity (tradesOf s ts) :=
        (own.map _).sum_eq
      rw [stateOf_onTradesWith, stateOf_onTrades]
      refine foldl_notedWith_add64 bucketSize _ ⟨le_rfl, fun _ mem => nomatch mem⟩
        (fun t mem => pos t (own.mem_iff.mp mem)) ?_
      change 0 + _ < _
      omega
    have exact := volumeRight_exact bucketSize s ts traded pos
    have total : ∀ ts', ts'.Perm ts → (onTradesWith add64 { bucketSize } ts').totalVolume s
        = (onTrades { bucketSize } ts').totalVolume s := fun ts' perm => by
      rw [totalVolume_eq, totalVolume_eq, same ts' perm]
    have average : ∀ ts', ts'.Perm ts → (onTradesWith add64 { bucketSize } ts').vwap s
        = (onTrades { bucketSize } ts').vwap s := fun ts' perm => by
      rw [vwap_eq, vwap_eq, same ts' perm]
    have candles : (onTradesWith add64 { bucketSize } ts).candles s
        = (onTrades { bucketSize } ts).candles s := by
      rw [candles_eq, candles_eq, same ts (.refl _)]
    constructor
    · exact (total ts (.refl _)).trans exact.total
    · rw [total ts (.refl _), candles]
      exact exact.candles
    · rw [candles, average ts (.refl _)]
      exact exact.low
    · rw [candles, average ts (.refl _)]
      exact exact.high
    · intro ts' perm
      rw [total ts' perm, total ts (.refl _), average ts' perm, average ts (.refl _)]
      exact exact.anyOrder ts' perm

/-- Trades of two seconds, the first second's in two parts. -/
def threeTrades : List (Trade ℚ) :=
  [⟨1, 2, 1, 2, "AAPL", 4, 100, 0⟩, ⟨3, 4, 1, 2, "AAPL", 6, 105, 1500000000⟩,
    ⟨5, 6, 1, 2, "AAPL", 2, 90, 500000000⟩]

theorem volumeRight_threeTrades :
    VolumeRight add64 1000 "AAPL" threeTrades ∧
      ((onTradesWith add64 { bucketSize := 1000 } threeTrades).candles "AAPL").length = 3 :=
  ⟨(volumeRight_iff 1000 "AAPL" threeTrades (by decide) (by decide)).mpr (by decide),
    by decide +kernel⟩

/-- Two trades of the largest quantity and one of two shares. -/
def largeTrades : List (Trade ℚ) :=
  [⟨1, 2, 1, 2, "AAPL", 2 ^ 63 - 1, 100, 0⟩, ⟨3, 4, 1, 2, "AAPL", 2 ^ 63 - 1, 100, 0⟩,
    ⟨5, 6, 1, 2, "AAPL", 2, 100, 0⟩]

/-- The total volume wraps to nothing. -/
theorem volume_wraps : ¬∀ (bucketSize : Int) (s : Symbol) (ts : List (Trade ℚ)),
    tradesOf s ts ≠ [] → (∀ t ∈ tradesOf s ts, 0 < t.quantity ∧ FitsInt64 t.quantity) →
      VolumeRight add64 bucketSize s ts := by
  intro claim
  have right := claim 1000 "AAPL" largeTrades (by decide) (by decide)
  exact absurd right.total (by decide +kernel)

end StockMarket
