import StockMarket.Book.Levels
import Mathlib.Algebra.BigOperators.Ring.Finset
import Mathlib.Algebra.BigOperators.Ring.List

/-!
What a book keeps of everyone's orders.

`BookOf` is the invariant of the book that an engine keeps for a symbol, with
prices that need only be strictly ordered. `weigh_matchOrder` is the account of a
match: whatever weight per unit one gives to orders, the weight of the incoming
and the resting orders goes into the fills, into the resting orders afterwards,
or away with the rest of a MARKET order.
-/

namespace StockMarket

variable {P : Type}

/-! ### Weights -/

section Weigh

variable {R : Type} [Ring R]

/-- The quantities of some orders, weighted. -/
def weigh (u : Order P → R) (orders : List (Order P)) : R :=
  (orders.map fun o => u o * (o.quantity : R)).sum

/-- The quantities of some fills, weighted by both orders of each. -/
def weighFill (u : Order P → R) (incoming : Order P) (fill : List ((P × Order P) × Int)) : R :=
  (fill.map fun f => (u incoming + u f.1.2) * (f.2 : R)).sum

variable {u : Order P → R}

@[simp] theorem weigh_nil : weigh u [] = 0 := rfl

@[simp] theorem weigh_cons (o : Order P) (os : List (Order P)) :
    weigh u (o :: os) = u o * (o.quantity : R) + weigh u os := rfl

@[simp] theorem weigh_append (os os' : List (Order P)) :
    weigh u (os ++ os') = weigh u os + weigh u os' := by
  simp [weigh]

theorem weigh_perm {os os' : List (Order P)} (perm : os.Perm os') : weigh u os = weigh u os' :=
  (perm.map _).sum_eq

/-- Orders without weight. -/
theorem weigh_eq_zero {os : List (Order P)} (none : ∀ o ∈ os, u o = 0) : weigh u os = 0 := by
  refine List.sum_eq_zero fun r mem => ?_
  obtain ⟨o, ho, rfl⟩ := List.mem_map.mp mem
  rw [none o ho, zero_mul]

/-- A weight that is one on some orders and zero on the others counts those. -/
theorem weigh_indicator (p : Order P → Prop) [DecidablePred p] (os : List (Order P)) :
    weigh (fun o => if p o then (1 : Int) else 0) os = totalQuantity (os.filter fun o => p o) := by
  induction os with
  | nil => rfl
  | cons o os ih =>
      rw [weigh_cons, ih]
      by_cases h : p o
      · simp [h, totalQuantity]
      · simp [h, totalQuantity]

theorem weigh_restingIn (ls : List (Level P)) :
    weigh u (restingIn ls)
      = ((entries ls).map fun e => u e.2 * (entryQuantity e : R)).sum := by
  rw [← map_snd_entries, weigh, List.map_map]
  rfl

variable [LT P] [DecidableLT P]

theorem OrderBook.unfilled_eq (b : OrderBook P) (clock : Nat → Int) (incoming : Order P) :
    b.unfilled clock incoming
      = incoming.quantity - filledOf incoming.side incoming (b.levels incoming.side.opposite) := by
  unfold OrderBook.unfilled
  rw [matchLevels_incoming]
  rfl

/-- The fills of a match take the filled quantity from the incoming order. -/
theorem weighFill_eq (aggressor : Side) (incoming : Order P) (ls : List (Level P)) :
    weighFill u incoming (fillOf aggressor incoming ls)
      = u incoming * (filledOf aggressor incoming ls : R)
        + ((fillOf aggressor incoming ls).map fun f => u f.1.2 * (f.2 : R)).sum := by
  have total : (filledOf aggressor incoming ls : R)
      = ((fillOf aggressor incoming ls).map fun f => (f.2 : R)).sum := by
    rw [filledOf, Greedy.taken, Int.cast_list_sum, List.map_map]
    rfl
  rw [total, ← List.sum_map_mul_left, ← List.sum_map_add]
  simp only [weighFill, add_mul]

/-- The fills of a match take from the resting orders what these lose. -/
theorem weigh_matchLevels (same : ∀ o q, u (o.withQuantity q) = u o) (aggressor : Side)
    (symbol : Symbol) (clock : Nat → Int) (incoming : Order P) (ls : List (Level P)) :
    weigh u (restingIn ls)
      = ((fillOf aggressor incoming ls).map fun f => u f.1.2 * (f.2 : R)).sum
        + weigh u (restingIn (matchLevels aggressor symbol clock 0 incoming ls).left) := by
  have smaller : ∀ (e : P × Order P) a, entryQuantity (shrinkEntry e a) = entryQuantity e - a :=
    fun _ _ => rfl
  have walked := Greedy.weighted_sum (fun e : P × Order P => u e.2) smaller (fun _ _ => same _ _)
    incoming.quantity (entries (acceptedLevels aggressor incoming ls))
  have all := acceptedLevels_append_refusedLevels aggressor incoming ls
  rw [weigh_restingIn, weigh_restingIn, matchLevels_left, List.map_append, List.sum_append]
  conv_lhs => rw [← all, entries_append, List.map_append, List.sum_append, walked]
  rw [add_assoc]
  rfl

/-- **The account of a match**, for any weight that does not look at quantities. -/
theorem weigh_matchOrder (same : ∀ o q, u (o.withQuantity q) = u o) (b : OrderBook P)
    (clock : Nat → Int) (incoming : Order P) :
    let left := b.unfilled clock incoming
    weigh u (incoming :: b.restingOrders)
      = weigh u (b.matchOrder clock incoming).2.restingOrders
        + weighFill u incoming (fillOf incoming.side incoming (b.levels incoming.side.opposite))
        + u incoming * ((if 0 < left ∧ incoming.kind ≠ .market then 0 else left : Int) : R) := by
  intro left
  have leftEq : left = _ := b.unfilled_eq clock incoming
  have quantity : (incoming.quantity : R) = (left : R)
      + (filledOf incoming.side incoming (b.levels incoming.side.opposite) : R) := by
    rw [leftEq, Int.cast_sub, sub_add_cancel]
  have walked := weigh_matchLevels same incoming.side b.symbol clock incoming
    (b.levels incoming.side.opposite)
  rw [weigh_perm restingOrders_matchOrder, ← leftEq, weigh_cons, weighFill_eq, quantity,
    weigh_perm (restingOrders_perm b incoming.side), weigh_append, weigh_append, weigh_append,
    walked, mul_add]
  by_cases rests : 0 < left ∧ incoming.kind ≠ .market
  · rw [if_pos rests, if_pos rests, weigh_cons, weigh_nil, same, Order.withQuantity_quantity,
      Int.cast_zero, mul_zero]
    abel
  · rw [if_neg rests, if_neg rests, weigh_nil]
    abel

end Weigh

/-- Anything but the quantity, read off the resting orders after a match, was there
before or is the incoming order's. -/
theorem map_matchOrder [LT P] [DecidableLT P] {β : Type} (key : Order P → β)
    (same : ∀ o q, key (o.withQuantity q) = key o) (b : OrderBook P) (clock : Nat → Int)
    (incoming : Order P) : ((b.matchOrder clock incoming).2.restingOrders.map key).Subperm
      ((incoming :: b.restingOrders).map key) := by
  have walked := (matchLevels_left_map incoming.side b.symbol clock key same 0 incoming
    (b.levels incoming.side.opposite)).sublist
  have kept := ((List.Sublist.refl ((restingIn (b.levels incoming.side)).map key)).append
    walked).subperm
  have before := ((restingOrders_perm b incoming.side).map key).symm.subperm
  rw [List.map_append] at before
  have rested : ∀ (c : Prop) [Decidable c] (q : Int),
      ((if c then [incoming.withQuantity q] else []).map key).Subperm [key incoming] := by
    intro c _ q
    split
    · rw [List.map_singleton, same]
    · exact List.nil_subperm
  refine (restingOrders_matchOrder.map key).subperm.trans ?_
  rw [List.map_append, List.map_append]
  exact (rested _ _).append (kept.trans before)

/-! ### The book of a symbol -/

section BookOf

variable [LT P] [DecidableLT P]

/-- What holds of the book that is kept for symbol `s`. -/
structure BookOf (s : Symbol) (b : OrderBook P) : Prop where
  symbol : b.symbol = s
  sorted : ∀ t, LevelsSorted t (b.levels t)
  own : ∀ t, ∀ o ∈ restingIn (b.levels t), o.side = t ∧ o.symbol = s ∧ o.kind ≠ .market
  positive : ∀ o ∈ b.restingOrders, 0 < o.quantity

variable {s : Symbol} {b : OrderBook P}

omit [DecidableLT P] in
theorem BookOf.new (s : Symbol) : BookOf s (OrderBook.new s : OrderBook P) where
  symbol := rfl
  sorted := by
    intro t
    cases t <;> exact List.Pairwise.nil
  own := by
    intro t o mem
    cases t <;> cases mem
  positive := by
    intro o mem
    cases mem

omit [DecidableLT P] in
theorem sorted_removed {t : Side} {id : Nat} {ls' : List (Level P)}
    (sorted : ∀ t, LevelsSorted t (b.levels t)) (removed : Removed id (b.levels t) ls')
    (t' : Side) : LevelsSorted t' ((b.setLevels t ls').levels t') := by
  by_cases own : t' = t
  · subst own
    rw [OrderBook.levels_setLevels]
    exact removed.sorted (sorted t')
  · rw [OrderBook.levels_setLevels_of_ne _ own]
    exact sorted t'

omit [DecidableLT P] in
theorem BookOf.removed {t : Side} {id : Nat} {ls' : List (Level P)} (book : BookOf s b)
    (removed : Removed id (b.levels t) ls') : BookOf s (b.setLevels t ls') where
  symbol := (b.symbol_setLevels t ls').trans book.symbol
  sorted := sorted_removed book.sorted removed
  own := fun t' o mem => book.own t' o (removed.subset t' mem)
  positive := by
    intro o mem
    obtain ⟨t', mem⟩ := mem_restingOrders.mp mem
    exact book.positive o (mem_restingOrders.mpr ⟨t', removed.subset t' mem⟩)

variable [IsStrictOrder P (· < ·)]

theorem sorted_matchOrder (sorted : ∀ t, LevelsSorted t (b.levels t)) (clock : Nat → Int)
    (incoming : Order P) (t : Side) :
    LevelsSorted t ((b.matchOrder clock incoming).2.levels t) := by
  by_cases own : t = incoming.side
  · subst own
    rw [OrderBook.matchOrder_levels_side]
    dsimp only
    split
    · exact sorted_pushBack (sorted _)
    · exact sorted _
  · obtain rfl := Side.eq_opposite_of_ne own
    rw [OrderBook.matchOrder_levels_opposite]
    have keys := matchLevels_left_prices incoming.side b.symbol clock 0 incoming
      (b.levels incoming.side.opposite)
    have before := sorted incoming.side.opposite
    unfold LevelsSorted at before ⊢
    rw [← List.pairwise_map (f := Level.price) (R := fun p q => Side.before _ p q)] at before ⊢
    exact before.sublist keys.sublist

theorem BookOf.matchOrder (book : BookOf s b) (clock : Nat → Int) {incoming : Order P}
    (here : incoming.symbol = s) : BookOf s (b.matchOrder clock incoming).2 where
  symbol := (b.matchOrder_symbol clock incoming).trans book.symbol
  sorted := sorted_matchOrder book.sorted clock incoming
  own := by
    intro t o mem
    rcases mem_restingIn_matchOrder mem with ⟨rfl, kind, q, -, rfl⟩ | ⟨r, hr, q, -, rfl⟩
    · exact ⟨rfl, here, kind⟩
    · exact book.own t r hr
  positive := by
    intro o mem
    obtain ⟨t, mem⟩ := mem_restingOrders.mp mem
    rcases mem_restingIn_matchOrder mem with ⟨-, -, q, pos, rfl⟩ | ⟨r, hr, q, pos, rfl⟩
    · exact pos
    · exact pos (book.positive r (mem_restingOrders.mpr ⟨t, hr⟩))

omit [IsStrictOrder P (· < ·)] in
/-- The rest of an order is not negative: matching never overfills. -/
theorem BookOf.unfilled_nonneg (book : BookOf s b) (clock : Nat → Int) {incoming : Order P}
    (pos : 0 < incoming.quantity) : 0 ≤ b.unfilled clock incoming := by
  rw [OrderBook.unfilled_eq]
  have nonneg : ∀ e ∈ entries (acceptedLevels incoming.side incoming
      (b.levels incoming.side.opposite)), 0 ≤ entryQuantity e := by
    intro e mem
    obtain ⟨l, hl, -, ho⟩ := mem_entries.mp mem
    have resting : e.2 ∈ restingIn (b.levels incoming.side.opposite) :=
      mem_restingIn.mpr ⟨l, List.takeWhile_subset _ hl, ho⟩
    exact (book.positive e.2 (mem_restingOrders.mpr ⟨_, resting⟩)).le
  exact Int.sub_nonneg_of_le (Greedy.taken_le pos.le nonneg)

end BookOf

end StockMarket
