import Mathlib.Algebra.Order.BigOperators.Group.List
import Mathlib.Algebra.Order.Ring.Int
import Mathlib.Order.Bounds.Basic
import StockMarket.Lib.Loop

/-!
The greedy auction of two sorted sides.

Bids are listed by falling price and asks by rising price, each with the quantity that
is left of it. A round trades as much as it can between the two first ones if the ask is
at most the bid, and what is left of an order keeps its place. At a price `p` the bids of
at least `p` could trade with the asks of at most `p`, up to the smaller of the two
volumes. The greedy auction trades as much as the best price could
(`isGreatest_traded`): no price allows more (`min_volume_le_traded`), and the price of
the last bid that trades allows as much (`exists_traded_le`).
-/

namespace StockMarket.Auction

variable {α β P : Type}

/-- What one round trades. -/
structure Fill (α β : Type) where
  bid : α
  ask : β
  quantity : ℤ

/-- What is left of an order stays in front of the later ones. -/
def leave (a : α) (quantity : ℤ) (later : List (α × ℤ)) : List (α × ℤ) :=
  if 0 < quantity then (a, quantity) :: later else later

section

variable [LE P] [DecidableLE P] (bid : α → P) (ask : β → P)

/-- One round, if the first bid and the first ask cross. -/
def step : List (α × ℤ) × List (β × ℤ) → Option ((List (α × ℤ) × List (β × ℤ)) × Fill α β)
  | ((a, q) :: bids, (b, r) :: asks) =>
      if ask b ≤ bid a then
        some ((leave a (q - min q r) bids, leave b (r - min q r) asks), ⟨a, b, min q r⟩)
      else none
  | _ => none

/-- All rounds. -/
def fills (bids : List (α × ℤ)) (asks : List (β × ℤ)) : List (Fill α β) :=
  (Loop.run (step bid ask) (bids.length + asks.length) (bids, asks)).2

end

/-- The quantity traded. -/
def traded (fs : List (Fill α β)) : ℤ := (fs.map Fill.quantity).sum

/-- The quantity of the orders that accept a price. -/
def volume (accepts : α → Prop) [DecidablePred accepts] (orders : List (α × ℤ)) : ℤ :=
  ((orders.filter fun o => accepts o.1).map Prod.snd).sum

/-- Each order of a side is at least as good as the later ones, and wants something. -/
structure Side (better : α → α → Prop) (orders : List (α × ℤ)) : Prop where
  sorted : orders.Pairwise fun o o' => better o.1 o'.1
  positive : ∀ o ∈ orders, 0 < o.2

/-! ### One side -/

section

variable {better : α → α → Prop} {accepts : α → Prop} [DecidablePred accepts] {a : α} {q : ℤ}
  {orders : List (α × ℤ)}

theorem volume_cons :
    volume accepts ((a, q) :: orders) = (if accepts a then q else 0) + volume accepts orders := by
  by_cases here : accepts a <;> simp [volume, here]

theorem volume_leave (nonneg : 0 ≤ q) :
    volume accepts (leave a q orders) = (if accepts a then q else 0) + volume accepts orders := by
  unfold leave
  split
  · exact volume_cons
  · have gone : q = 0 := by omega
    simp [gone]

theorem Side.tail (side : Side better ((a, q) :: orders)) : Side better orders :=
  ⟨(List.pairwise_cons.mp side.sorted).2, fun o mem => side.positive o (List.mem_cons_of_mem _ mem)⟩

theorem Side.leave (side : Side better ((a, q) :: orders)) (left : ℤ) :
    Side better (leave a left orders) := by
  unfold Auction.leave
  split
  · rename_i some
    have ⟨first, later⟩ := List.pairwise_cons.mp side.sorted
    refine ⟨List.pairwise_cons.mpr ⟨first, later⟩, fun o mem => ?_⟩
    rcases List.mem_cons.mp mem with rfl | mem
    · exact some
    · exact side.tail.positive o mem
  · exact side.tail

theorem Side.volume_nonneg (side : Side better orders) : 0 ≤ volume accepts orders := by
  refine List.sum_nonneg fun q mem => ?_
  obtain ⟨o, here, rfl⟩ := List.mem_map.mp mem
  exact (side.positive o (List.mem_filter.mp here).1).le

/-- If the first order does not accept the price, no later one does. -/
theorem Side.volume_eq_zero (side : Side better ((a, q) :: orders))
    (worse : ∀ a', better a a' → accepts a' → accepts a) (refuses : ¬accepts a) :
    volume accepts ((a, q) :: orders) = 0 := by
  have none : ((a, q) :: orders).filter (fun o => accepts o.1) = [] := by
    refine List.filter_eq_nil_iff.mpr fun o mem => ?_
    rcases List.mem_cons.mp mem with rfl | mem
    · simpa using refuses
    · have first := (List.pairwise_cons.mp side.sorted).1 o mem
      simpa using fun accepts => refuses (worse o.1 first accepts)
  rw [volume, none]
  rfl

/-- If any order accepts the price, the first one does. -/
theorem Side.accepts_of_pos (side : Side better ((a, q) :: orders))
    (worse : ∀ a', better a a' → accepts a' → accepts a) {left : ℤ}
    (some : 0 < volume accepts (Auction.leave a left orders)) : accepts a := by
  by_contra refuses
  have none := side.volume_eq_zero worse refuses
  rw [volume_cons, if_neg refuses, zero_add] at none
  unfold Auction.leave at some
  split at some
  · rw [volume_cons, if_neg refuses, none] at some
    exact lt_irrefl _ some
  · exact absurd none some.ne'

end

/-! ### Rounds -/

section

variable [LE P] [DecidableLE P] {bid : α → P} {ask : β → P}

theorem step_cons {a : α} {b : β} (meet : ask b ≤ bid a) (q r : ℤ) (bids : List (α × ℤ))
    (asks : List (β × ℤ)) :
    step bid ask ((a, q) :: bids, (b, r) :: asks)
      = some ((leave a (q - min q r) bids, leave b (r - min q r) asks), ⟨a, b, min q r⟩) := by
  simp [step, meet]

/-- What a round is. -/
theorem step_some {s s' : List (α × ℤ) × List (β × ℤ)} {f : Fill α β}
    (next : step bid ask s = some (s', f)) :
    ∃ a q bids b r asks, s = ((a, q) :: bids, (b, r) :: asks) ∧
      s' = (leave a (q - min q r) bids, leave b (r - min q r) asks) := by
  unfold step at next
  split at next
  · rename_i a q bids b r asks
    split at next
    · cases next
      exact ⟨a, q, bids, b, r, asks, rfl, rfl⟩
    · cases next
  · cases next

omit [LE P] [DecidableLE P] in
/-- One of the two orders leaves. -/
theorem length_leave_lt (a : α) (b : β) (q r : ℤ) (bids : List (α × ℤ)) (asks : List (β × ℤ)) :
    (leave a (q - min q r) bids).length + (leave b (r - min q r) asks).length
      < ((a, q) :: bids).length + ((b, r) :: asks).length := by
  unfold leave
  rcases le_total q r with less | less
  · rw [min_eq_left less, sub_self, if_neg (lt_irrefl _)]
    split <;> simp only [List.length_cons] <;> omega
  · rw [min_eq_right less, sub_self, if_neg (lt_irrefl _)]
    split <;> simp only [List.length_cons] <;> omega

end

/-! ### The best price -/

variable [LinearOrder P] {bid : α → P} {ask : β → P}

/-- Bids by falling price and asks by rising price, all with a positive quantity. -/
structure Sorted (bid : α → P) (ask : β → P) (bids : List (α × ℤ)) (asks : List (β × ℤ)) :
    Prop where
  bids : Side (fun a a' => bid a' ≤ bid a) bids
  asks : Side (fun b b' => ask b ≤ ask b') asks

/-- What could trade at a price. -/
def tradable (bid : α → P) (ask : β → P) (bids : List (α × ℤ)) (asks : List (β × ℤ)) (p : P) : ℤ :=
  min (volume (p ≤ bid ·) bids) (volume (ask · ≤ p) asks)

section

variable {bids : List (α × ℤ)} {asks : List (β × ℤ)} {p : P}

/-- Nothing could trade at a price that the first bid does not accept. -/
theorem tradable_of_bid_lt {a : α} {q : ℤ} (sorted : Sorted bid ask ((a, q) :: bids) asks)
    (below : bid a < p) : tradable bid ask ((a, q) :: bids) asks p = 0 := by
  have none : volume (p ≤ bid ·) ((a, q) :: bids) = 0 :=
    sorted.bids.volume_eq_zero (fun _ less accepts => accepts.trans less) (not_le.mpr below)
  rw [tradable, none]
  exact min_eq_left sorted.asks.volume_nonneg

/-- Nor at one that the first ask does not accept. -/
theorem tradable_of_lt_ask {b : β} {r : ℤ} (sorted : Sorted bid ask bids ((b, r) :: asks))
    (above : p < ask b) : tradable bid ask bids ((b, r) :: asks) p = 0 := by
  have none : volume (ask · ≤ p) ((b, r) :: asks) = 0 :=
    sorted.asks.volume_eq_zero (fun _ less accepts => less.trans accepts) (not_le.mpr above)
  rw [tradable, none]
  exact min_eq_right sorted.bids.volume_nonneg

/-- If no round is possible, no price is any good. -/
theorem tradable_of_halted (sorted : Sorted bid ask bids asks)
    (halted : step bid ask (bids, asks) = none) (p : P) :
    tradable bid ask bids asks p = 0 := by
  match bids, asks, sorted with
  | [], asks, sorted =>
      exact min_eq_left sorted.asks.volume_nonneg
  | (a, q) :: bids, [], sorted =>
      exact min_eq_right sorted.bids.volume_nonneg
  | (a, q) :: bids, (b, r) :: asks, sorted =>
      have apart : bid a < ask b := by
        by_contra meet
        rw [step_cons (not_lt.mp meet)] at halted
        cases halted
      rcases lt_or_ge (bid a) p with below | accepts
      · exact tradable_of_bid_lt sorted below
      · exact tradable_of_lt_ask sorted (accepts.trans_lt apart)

/-- A round makes the tradable quantity at a price less by what it trades, if both of its
orders accept the price. -/
theorem tradable_leave {a : α} {b : β} {q r : ℤ} (accepts : p ≤ bid a) (accepts' : ask b ≤ p) :
    tradable bid ask ((a, q) :: bids) ((b, r) :: asks) p
      = min q r + tradable bid ask (leave a (q - min q r) bids) (leave b (r - min q r) asks) p := by
  have left : 0 ≤ q - min q r := by omega
  have left' : 0 ≤ r - min q r := by omega
  simp only [tradable, volume_cons, if_pos accepts, if_pos accepts',
    volume_leave left, volume_leave left']
  omega

end

theorem Sorted.leave {a : α} {b : β} {q r : ℤ} {bids : List (α × ℤ)} {asks : List (β × ℤ)}
    (sorted : Sorted bid ask ((a, q) :: bids) ((b, r) :: asks)) (left left' : ℤ) :
    Sorted bid ask (leave a left bids) (leave b left' asks) :=
  ⟨sorted.bids.leave left, sorted.asks.leave left'⟩

/-- **The induction over the rounds**: what holds of nothing when no round is possible, and
of a round and the later ones if it holds of the later ones, holds of the whole auction. -/
theorem fills_induction {motive : List (α × ℤ) → List (β × ℤ) → List (Fill α β) → Prop}
    (halted : ∀ bids asks, Sorted bid ask bids asks →
      step bid ask (bids, asks) = none → motive bids asks [])
    (round : ∀ a q bids b r asks fs, Sorted bid ask ((a, q) :: bids) ((b, r) :: asks) →
      ask b ≤ bid a → motive (leave a (q - min q r) bids) (leave b (r - min q r) asks) fs →
      motive ((a, q) :: bids) ((b, r) :: asks) (⟨a, b, min q r⟩ :: fs))
    {bids : List (α × ℤ)} {asks : List (β × ℤ)} (sorted : Sorted bid ask bids asks) :
    motive bids asks (fills bid ask bids asks) := by
  suffices ∀ n bids asks, Sorted bid ask bids asks → bids.length + asks.length ≤ n →
      motive bids asks (Loop.run (step bid ask) n (bids, asks)).2 from
    this _ bids asks sorted le_rfl
  intro n
  induction n with
  | zero =>
      intro bids asks sorted bound
      obtain rfl : bids = [] := List.eq_nil_of_length_eq_zero (by omega)
      exact halted [] asks sorted rfl
  | succ n ih =>
      intro bids asks sorted bound
      match bids, asks, sorted with
      | [], asks, sorted => exact halted [] asks sorted rfl
      | (a, q) :: bids, [], sorted => exact halted _ [] sorted rfl
      | (a, q) :: bids, (b, r) :: asks, sorted =>
          by_cases meet : ask b ≤ bid a
          · have shorter := length_leave_lt a b q r bids asks
            rw [Loop.run_of_step (step_cons meet q r bids asks)]
            exact round a q bids b r asks _ sorted meet (ih _ _ (sorted.leave _ _) (by omega))
          · have none : step bid ask ((a, q) :: bids, (b, r) :: asks) = none := by
              simp [step, meet]
            rw [Loop.run_of_halted none]
            exact halted _ _ sorted none

theorem traded_cons (a : α) (b : β) (q : ℤ) (fs : List (Fill α β)) :
    traded (⟨a, b, q⟩ :: fs) = q + traded fs :=
  List.sum_cons

/-- No price allows more than is traded. -/
theorem min_volume_le_traded {bids : List (α × ℤ)} {asks : List (β × ℤ)}
    (sorted : Sorted bid ask bids asks) (p : P) :
    tradable bid ask bids asks p ≤ traded (fills bid ask bids asks) := by
  refine fills_induction (motive := fun bids asks fs =>
    Sorted bid ask bids asks → 0 ≤ traded fs ∧ tradable bid ask bids asks p ≤ traded fs)
    ?_ ?_ sorted sorted |>.2
  · intro bids asks sorted halted _
    rw [tradable_of_halted sorted halted]
    exact ⟨le_rfl, le_rfl⟩
  · intro a q bids b r asks fs sorted meet ih _
    obtain ⟨nonneg, bound⟩ := ih (sorted.leave _ _)
    have some : 0 < min q r := lt_min (sorted.bids.positive (a, q) List.mem_cons_self)
      (sorted.asks.positive (b, r) List.mem_cons_self)
    rw [traded_cons]
    refine ⟨by omega, ?_⟩
    rcases lt_or_ge (bid a) p with below | accepts
    · rw [tradable_of_bid_lt sorted below]
      omega
    · rcases lt_or_ge p (ask b) with above | accepts'
      · rw [tradable_of_lt_ask sorted above]
        omega
      · rw [tradable_leave accepts accepts']
        omega

/-- The price of the last bid that trades allows as much. -/
theorem exists_traded_le [Nonempty P] {bids : List (α × ℤ)} {asks : List (β × ℤ)}
    (sorted : Sorted bid ask bids asks) :
    ∃ p, traded (fills bid ask bids asks) ≤ tradable bid ask bids asks p := by
  refine fills_induction (motive := fun bids asks fs =>
    ∃ p, traded fs ≤ tradable bid ask bids asks p) ?_ ?_ sorted
  · intro bids asks sorted halted
    obtain ⟨p⟩ := ‹Nonempty P›
    refine ⟨p, ?_⟩
    rw [tradable_of_halted sorted halted]
    exact le_rfl
  · rintro a q bids b r asks fs sorted meet ⟨p, bound⟩
    have later := sorted.leave (q - min q r) (r - min q r)
    rw [traded_cons]
    by_cases more : 0 < traded fs
    · -- what trades later accepts the price, so the orders of this round do too
      have some : 0 < tradable bid ask (leave a (q - min q r) bids)
          (leave b (r - min q r) asks) p :=
        more.trans_le bound
      have accepts : p ≤ bid a := sorted.bids.accepts_of_pos
        (fun _ less accepts => accepts.trans less) (lt_min_iff.mp some).1
      have accepts' : ask b ≤ p := sorted.asks.accepts_of_pos
        (fun _ less accepts => less.trans accepts) (lt_min_iff.mp some).2
      exact ⟨p, by rw [tradable_leave accepts accepts']; omega⟩
    · refine ⟨bid a, ?_⟩
      rw [tradable_leave le_rfl meet]
      have nonneg : 0 ≤ tradable bid ask (leave a (q - min q r) bids)
          (leave b (r - min q r) asks) (bid a) :=
        le_min later.bids.volume_nonneg later.asks.volume_nonneg
      omega

/-- **The greedy auction trades as much as the best price allows.** -/
theorem isGreatest_traded [Nonempty P] {bids : List (α × ℤ)} {asks : List (β × ℤ)}
    (sorted : Sorted bid ask bids asks) :
    IsGreatest (Set.range (tradable bid ask bids asks))
      (traded (fills bid ask bids asks)) := by
  obtain ⟨p, bound⟩ := exists_traded_le sorted
  refine ⟨⟨p, (min_volume_le_traded sorted p).antisymm bound⟩, ?_⟩
  rintro _ ⟨p, rfl⟩
  exact min_volume_le_traded sorted p

end StockMarket.Auction
