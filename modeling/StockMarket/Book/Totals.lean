import StockMarket.Book.Account
import StockMarket.Book.Depth
import StockMarket.Lib.Int64

/-!
The totals of a book in 64 bits.

A snapshot adds up quantities in 64 bits, and so does the recorder over the levels of a
snapshot. All these sums are exact if and only if what rests on each side is less than `2 ^ 63`
(`depthsExact_iff`). A match adds to one side what the incoming order leaves, if the order may
rest, and adds nothing to the other side (`depth_matchOrder_side`, `depth_matchOrder_opposite`).
-/

namespace StockMarket

variable {P : Type}

/-- The loop of the recorder over the levels of one side. -/
def depthSum (plus : Int → Int → Int) (levels : List (BookLevel P)) : Int :=
  levels.foldl (fun total l => plus total l.quantity) 0

/-- The sums in 64 bits are the exact sums, for every depth of the snapshot. -/
structure DepthsExact (b : OrderBook P) : Prop where
  levels : ∀ depth, b.snapshot add64 depth = b.snapshot (· + ·) depth
  bids : ∀ depth, depthSum add64 (b.snapshot add64 depth).bids
    = depthSum (· + ·) (b.snapshot (· + ·) depth).bids
  asks : ∀ depth, depthSum add64 (b.snapshot add64 depth).asks
    = depthSum (· + ·) (b.snapshot (· + ·) depth).asks

/-- What rests on a side. -/
def OrderBook.depth (b : OrderBook P) (s : Side) : Int :=
  totalQuantity (restingIn (b.levels s))

/-! ### Sums over levels -/

section

variable {ls ls' : List (Level P)} {os os' : List (Order P)}

theorem totalQuantity_append : totalQuantity (os ++ os')
    = totalQuantity os + totalQuantity os' := by
  rw [totalQuantity, List.map_append, List.sum_append]
  rfl

theorem totalQuantity_perm (perm : os.Perm os') : totalQuantity os = totalQuantity os' :=
  (perm.map _).sum_eq

theorem totalQuantity_nonneg (positive : ∀ o ∈ os, 0 < o.quantity) : 0 ≤ totalQuantity os := by
  refine List.sum_nonneg fun q mem => ?_
  obtain ⟨o, ho, rfl⟩ := List.mem_map.mp mem
  exact (positive o ho).le

/-- Fewer orders have no larger total. -/
theorem totalQuantity_le (fewer : os.Sublist os') (positive : ∀ o ∈ os', 0 < o.quantity) :
    totalQuantity os ≤ totalQuantity os' := by
  refine (fewer.map Order.quantity).sum_le_sum fun q mem => ?_
  obtain ⟨o, ho, rfl⟩ := List.mem_map.mp mem
  exact (positive o ho).le

theorem restingIn_take_sublist (d : Nat) (ls : List (Level P)) :
    (restingIn (ls.take d)).Sublist (restingIn ls) := by
  conv_rhs => rw [← List.take_append_drop d ls, restingIn_append]
  exact List.sublist_append_left _ _

theorem queue_sublist {l : Level P} (mem : l ∈ ls) : l.queue.Sublist (restingIn ls) := by
  obtain ⟨front, back, rfl⟩ := List.append_of_mem mem
  rw [restingIn_append, restingIn_cons]
  exact (List.sublist_append_left _ _).trans (List.sublist_append_right _ _)

theorem levelTotal_exact (queue : List (Order P)) :
    levelTotal (· + ·) queue = totalQuantity queue := by
  rw [levelTotal, foldl_add, Int.zero_add]
  rfl

/-- A level total in 64 bits is exact if and only if it fits. -/
theorem levelTotal_exact_iff (queue : List (Order P)) :
    levelTotal add64 queue = levelTotal (· + ·) queue ↔ FitsInt64 (totalQuantity queue) :=
  foldl_add64_eq_iff Order.quantity queue

theorem sum_shown (ls : List (Level P)) :
    ((ls.map (Level.shown (· + ·))).map BookLevel.quantity).sum = totalQuantity (restingIn ls) := by
  induction ls with
  | nil => rfl
  | cons l ls ih =>
      rw [List.map_cons, List.map_cons, List.sum_cons, ih, restingIn_cons, totalQuantity_append,
        Level.shown, levelTotal_exact]

/-- The sum over exact levels is exact if and only if it fits. -/
theorem depthSum_exact_iff (ls : List (Level P)) :
    depthSum add64 (ls.map (Level.shown (· + ·)))
        = depthSum (· + ·) (ls.map (Level.shown (· + ·))) ↔
      FitsInt64 (totalQuantity (restingIn ls)) := by
  rw [← sum_shown]
  exact foldl_add64_eq_iff BookLevel.quantity _

/-- Sums of less than `2 ^ 63` in all. -/
theorem sums_exact (positive : ∀ o ∈ restingIn ls, 0 < o.quantity)
    (bounded : totalQuantity (restingIn ls) < 2 ^ 63) (depth : Nat) :
    (ls.take depth).map (Level.shown add64) = (ls.take depth).map (Level.shown (· + ·)) ∧
      depthSum add64 ((ls.take depth).map (Level.shown add64))
        = depthSum (· + ·) ((ls.take depth).map (Level.shown (· + ·))) := by
  have fits : ∀ os : List (Order P), os.Sublist (restingIn ls) → FitsInt64 (totalQuantity os) := by
    intro os fewer
    have low := totalQuantity_nonneg fun o mem => positive o (fewer.subset mem)
    have high := totalQuantity_le fewer positive
    exact ⟨by omega, by omega⟩
  have levels : (ls.take depth).map (Level.shown add64)
      = (ls.take depth).map (Level.shown (· + ·)) := by
    refine List.map_congr_left fun l mem => ?_
    have same := (levelTotal_exact_iff l.queue).mpr
      (fits _ (queue_sublist ((List.take_sublist _ _).subset mem)))
    rw [Level.shown, same]
    rfl
  refine ⟨levels, ?_⟩
  rw [levels]
  exact (depthSum_exact_iff _).mpr (fits _ (restingIn_take_sublist depth ls))

end

/-- **The sums are exact if and only if each side has less than `2 ^ 63`.** -/
theorem depthsExact_iff {b : OrderBook P} (positive : ∀ o ∈ b.restingOrders, 0 < o.quantity) :
    DepthsExact b ↔ ∀ s, b.depth s < 2 ^ 63 := by
  have positive' : ∀ s, ∀ o ∈ restingIn (b.levels s), 0 < o.quantity :=
    fun s o mem => positive o (mem_restingOrders.mpr ⟨s, mem⟩)
  constructor
  · intro sums s
    -- all levels at once
    cases s with
    | buy =>
        have sum := sums.bids b.bids.length
        rw [sums.levels, OrderBook.snapshot_eq, List.take_length] at sum
        exact ((depthSum_exact_iff b.bids).mp sum).2
    | sell =>
        have sum := sums.asks b.asks.length
        rw [sums.levels, OrderBook.snapshot_eq, List.take_length] at sum
        exact ((depthSum_exact_iff b.asks).mp sum).2
  · intro bounded
    have bids := fun depth => sums_exact (positive' .buy) (bounded .buy) depth
    have asks := fun depth => sums_exact (positive' .sell) (bounded .sell) depth
    refine ⟨fun depth => ?_, fun depth => ?_, fun depth => ?_⟩
    · rw [OrderBook.snapshot_eq, OrderBook.snapshot_eq]
      exact congrArg₂ _ (bids depth).1 (asks depth).1
    · rw [OrderBook.snapshot_eq, OrderBook.snapshot_eq]
      exact (bids depth).2
    · rw [OrderBook.snapshot_eq, OrderBook.snapshot_eq]
      exact (asks depth).2

/-! ### What a match adds -/

section

variable [LT P] [DecidableLT P] {b : OrderBook P} {clock : Nat → Int} {incoming : Order P}

/-- What an order can trade with at its price. -/
def OrderBook.reach (b : OrderBook P) (incoming : Order P) : Int :=
  totalQuantity (restingIn (acceptedLevels incoming.side incoming
    (b.levels incoming.side.opposite)))

/-- What is left to rest of an order. -/
def OrderBook.toRest (b : OrderBook P) (incoming : Order P) : Int :=
  if incoming.kind = .market then 0 else max 0 (incoming.quantity - b.reach incoming)

/-- The entries that an order can trade with are positive. -/
theorem pos_of_mem_accepted (positive : ∀ o ∈ b.restingOrders, 0 < o.quantity) :
    ∀ e ∈ entries (acceptedLevels incoming.side incoming (b.levels incoming.side.opposite)),
      0 < entryQuantity e := by
  intro e mem
  obtain ⟨l, hl, -, ho⟩ := mem_entries.mp mem
  exact positive e.2 (mem_restingOrders.mpr
    ⟨_, mem_restingIn.mpr ⟨l, List.takeWhile_subset _ hl, ho⟩⟩)

theorem left_eq_max (positive : ∀ o ∈ b.restingOrders, 0 < o.quantity)
    (pos : 0 < incoming.quantity) :
    incoming.quantity - filledOf incoming.side incoming (b.levels incoming.side.opposite)
      = max 0 (incoming.quantity - b.reach incoming) := by
  have total : ((entries (acceptedLevels incoming.side incoming
      (b.levels incoming.side.opposite))).map entryQuantity).sum = b.reach incoming := by
    rw [OrderBook.reach, totalQuantity, ← map_snd_entries, List.map_map]
    rfl
  have filled : filledOf incoming.side incoming (b.levels incoming.side.opposite)
      = min incoming.quantity (b.reach incoming) := by
    rw [← total]
    exact Greedy.taken_eq_min pos.le fun e mem => (pos_of_mem_accepted positive e mem).le
  omega

/-- The incoming order's side gets what is left of it. -/
theorem depth_matchOrder_side (positive : ∀ o ∈ b.restingOrders, 0 < o.quantity)
    (pos : 0 < incoming.quantity) : (b.matchOrder clock incoming).2.depth incoming.side
      = b.depth incoming.side + b.toRest incoming := by
  unfold OrderBook.depth OrderBook.toRest
  rw [OrderBook.matchOrder_levels_side, ← left_eq_max positive pos]
  have nonneg : 0 ≤ incoming.quantity
      - filledOf incoming.side incoming (b.levels incoming.side.opposite) := by
    rw [left_eq_max positive pos]
    exact le_max_left _ _
  dsimp only
  by_cases market : incoming.kind = .market
  · rw [if_neg fun rests => rests.2 market, if_pos market, Int.add_zero]
  · rw [if_neg market]
    by_cases left : 0 < incoming.quantity
        - filledOf incoming.side incoming (b.levels incoming.side.opposite)
    · rw [if_pos ⟨left, market⟩, totalQuantity_perm (restingIn_pushBack _)]
      exact Int.add_comm _ _
    · rw [if_neg fun rests => left rests.1]
      omega

/-- The other side loses what trades. -/
theorem depth_matchOrder_opposite (positive : ∀ o ∈ b.restingOrders, 0 < o.quantity) :
    (b.matchOrder clock incoming).2.depth incoming.side.opposite
      ≤ b.depth incoming.side.opposite := by
  have unweighted : ∀ os : List (Order P), weigh (fun _ => (1 : Int)) os = totalQuantity os := by
    intro os
    simp [weigh, totalQuantity]
  have account := weigh_matchLevels (u := fun _ => (1 : Int)) (fun _ _ => rfl) incoming.side
    b.symbol clock incoming (b.levels incoming.side.opposite)
  rw [unweighted, unweighted] at account
  have traded : 0 ≤ ((fillOf incoming.side incoming (b.levels incoming.side.opposite)).map
      fun f => (1 : Int) * (f.2 : Int)).sum := by
    refine List.sum_nonneg fun q mem => ?_
    obtain ⟨f, hf, rfl⟩ := List.mem_map.mp mem
    have bounds := Greedy.amount_bounds (pos_of_mem_accepted positive) hf
    simpa using bounds.2.1.le
  unfold OrderBook.depth
  rw [OrderBook.matchOrder_levels_opposite, account]
  exact Int.le_add_of_nonneg_left traded

/-- The order leaves room for the totals: its side stays below `2 ^ 63` with what is left of
the order. -/
def OrderBook.Fits (b : OrderBook P) (incoming : Order P) : Prop :=
  b.depth incoming.side + b.toRest incoming < 2 ^ 63

instance OrderBook.decidableFits (b : OrderBook P) (incoming : Order P) :
    Decidable (b.Fits incoming) :=
  inferInstanceAs (Decidable (_ < _))

/-- **A match keeps the sums exact if and only if its order fits.** -/
theorem depth_matchOrder_iff (positive : ∀ o ∈ b.restingOrders, 0 < o.quantity)
    (pos : 0 < incoming.quantity) (bounded : ∀ s, b.depth s < 2 ^ 63) :
    (∀ s, (b.matchOrder clock incoming).2.depth s < 2 ^ 63) ↔ b.Fits incoming := by
  have side : (b.matchOrder clock incoming).2.depth incoming.side
      = b.depth incoming.side + b.toRest incoming := depth_matchOrder_side positive pos
  rw [OrderBook.Fits, ← side]
  constructor
  · exact fun after => after incoming.side
  · intro fits s
    by_cases own : s = incoming.side
    · rw [own]
      exact fits
    · obtain rfl := Side.eq_opposite_of_ne own
      exact lt_of_le_of_lt (depth_matchOrder_opposite positive) (bounded _)

omit [LT P] [DecidableLT P] in
/-- A cancellation adds nothing. -/
theorem depth_removed {s : Side} {id : Nat} {ls' : List (Level P)}
    (positive : ∀ o ∈ b.restingOrders, 0 < o.quantity) (removed : Removed id (b.levels s) ls')
    (t : Side) : (b.setLevels s ls').depth t ≤ b.depth t := by
  unfold OrderBook.depth
  by_cases own : t = s
  · subst own
    rw [OrderBook.levels_setLevels]
    obtain ⟨o, front, back, -, whole, rest⟩ := removed.resting
    refine totalQuantity_le ?_ fun r mem => positive r (mem_restingOrders.mpr ⟨t, mem⟩)
    rw [whole, rest]
    exact (List.sublist_cons_self o back).append_left front
  · rw [OrderBook.levels_setLevels_of_ne _ own]

end

end StockMarket
