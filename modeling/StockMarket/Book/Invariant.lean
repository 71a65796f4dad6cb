import StockMarket.Book.Priority

/-!
The representation invariant of an order book over whole runs.

`BookInvariant` holds of a fresh book and is kept by matching an order with a new
id and by both cancellations, hence by every run (`run_bookInvariant`). The book
never stays crossed because an order rests only after every opposite level that
it crosses is used up.
-/

namespace StockMarket

variable {P : Type}

/-! ### The operations -/

/-- A call on a book. `clock` gives the time stamps of the trades. -/
inductive BookOp (P : Type) where
  | submit (clock : Nat → Int) (order : Order P)
  | cancelAtPrice (side : Side) (price : P) (id : Nat)
  | cancel (id : Nat)

/-- The order a call submits. -/
def BookOp.submitted : BookOp P → Option (Order P)
  | .submit _ order => some order
  | _ => none

theorem BookOp.eq_submit {op : BookOp P} {o : Order P} (submitted : op.submitted = some o) :
    ∃ clock, op = .submit clock o := by
  cases op with
  | submit clock order => exact ⟨clock, congrArg _ (Option.some.inj submitted)⟩
  | cancelAtPrice side price id => cases submitted
  | cancel id => cases submitted

section

variable [LT P] [DecidableLT P]

/-- The book after a call. -/
def OrderBook.apply (b : OrderBook P) : BookOp P → OrderBook P
  | .submit clock order => (b.matchOrder clock order).2
  | .cancelAtPrice side price id => (b.cancelAtPrice side price id).2
  | .cancel id => (b.cancel id).2

/-- The book after a sequence of calls. -/
def OrderBook.run (b : OrderBook P) (ops : List (BookOp P)) : OrderBook P :=
  ops.foldl OrderBook.apply b

end

/-! ### The invariant -/

variable [LinearOrder P]

/-- What holds of a book between two calls. -/
structure BookInvariant (b : OrderBook P) : Prop where
  wellFormed : b.WellFormed
  ownSide : ∀ s, ∀ o ∈ restingIn (b.levels s), o.side = s
  notMarket : ∀ o ∈ b.restingOrders, o.kind ≠ .market
  once : (b.restingOrders.map Order.id).Nodup
  uncrossed : ∀ bid ∈ b.bids, ∀ ask ∈ b.asks, bid.price < ask.price

theorem BookInvariant.new (symbol : Symbol) :
    BookInvariant (OrderBook.new symbol : OrderBook P) where
  wellFormed := by
    intro s
    cases s <;> exact LevelsWF.nil _
  ownSide := by
    intro s o mem
    cases s <;> cases mem
  notMarket := by
    intro o mem
    cases mem
  once := List.nodup_nil
  uncrossed := by
    intro bid mem
    cases mem

/-- The two sides are apart: no level of one side reaches the other. -/
def Uncrossed (b : OrderBook P) : Prop :=
  ∀ s, ∀ l ∈ b.levels s, ∀ k ∈ b.levels s.opposite, s.opposite.before l.price k.price

theorem uncrossed_iff {b : OrderBook P} :
    Uncrossed b ↔ ∀ bid ∈ b.bids, ∀ ask ∈ b.asks, bid.price < ask.price := by
  constructor
  · intro apart bid hbid ask hask
    exact apart .buy bid hbid ask hask
  · intro apart s
    cases s with
    | buy => exact apart
    | sell => exact fun ask hask bid hbid => apart bid hbid ask hask

/-- It is enough to compare the levels in one direction. -/
theorem uncrossed_of_side {b : OrderBook P} (s : Side)
    (apart : ∀ l ∈ b.levels s, ∀ k ∈ b.levels s.opposite, s.opposite.before l.price k.price) :
    Uncrossed b := by
  rw [uncrossed_iff]
  cases s with
  | buy => exact apart
  | sell => exact fun bid hbid ask hask => apart ask hask bid hbid

/-- Every order rests on its own side. -/
def OrderBook.Sided (b : OrderBook P) : Prop :=
  ∀ s, ∀ o ∈ restingIn (b.levels s), o.side = s

/-! ### Matching keeps the invariant -/

section Match

variable {b : OrderBook P} {clock : Nat → Int} {incoming : Order P}

/-- The levels that a match leaves because of their price are out of the order's reach. -/
theorem before_of_mem_refusedLevels {ls : List (Level P)}
    (sorted : LevelsSorted incoming.side.opposite ls) {l : Level P}
    (mem : l ∈ refusedLevels incoming.side incoming ls) :
    incoming.side.opposite.before incoming.price l.price := by
  induction ls with
  | nil => cases mem
  | cons k ls ih =>
      by_cases stop : refuses incoming.side incoming k.price
      · have first : incoming.side.opposite.before incoming.price k.price := by
          have := stop.2
          cases side : incoming.side <;> rw [side] at this <;> exact this
        rw [refusedLevels_cons_of_refuses stop] at mem
        rcases List.mem_cons.mp mem with rfl | later
        · exact first
        · exact before_trans first ((List.pairwise_cons.mp sorted).1 l later)
      · rw [refusedLevels_cons_of_accepts stop] at mem
        exact ih (List.pairwise_cons.mp sorted).2 mem

theorem uncrossed_matchOrder (wf : b.WellFormed) (uncrossed : Uncrossed b) :
    Uncrossed (b.matchOrder clock incoming).2 := by
  refine uncrossed_of_side incoming.side fun l hl k hk => ?_
  rw [OrderBook.matchOrder_levels_opposite] at hk
  -- every level left on the walked side was there before
  have old : ∃ k' ∈ b.levels incoming.side.opposite, k.price = k'.price := by
    obtain ⟨k', hk', eq, -⟩ := mem_matchLevels_left hk
    exact ⟨k', hk', eq⟩
  obtain ⟨k', hk', eq⟩ := old
  have apart : ∀ l' ∈ b.levels incoming.side, incoming.side.opposite.before l'.price k.price := by
    intro l' hl'
    rw [eq]
    exact uncrossed incoming.side l' hl' k' hk'
  rw [OrderBook.matchOrder_levels_side] at hl
  dsimp only at hl
  split at hl
  · rename_i rests
    rcases price_of_mem_pushBack hl with here | ⟨l', hl', same⟩
    · -- the rest of the order is out of reach of what it left
      have unfilled : 0 < (matchLevels incoming.side b.symbol clock 0 incoming
          (b.levels incoming.side.opposite)).incoming.quantity := by
        rw [matchLevels_incoming]
        exact rests.1
      rw [matchLevels_left_of_unfilled _ _ _ unfilled] at hk
      rw [here]
      exact before_of_mem_refusedLevels (wf incoming.side.opposite).sorted hk
    · rw [same]
      exact apart l' hl'
  · exact apart l hl

theorem OrderBook.Sided.matchOrder (sided : b.Sided) :
    (b.matchOrder clock incoming).2.Sided := by
  intro s o mem
  rcases mem_restingIn_matchOrder mem with ⟨rfl, -, q, -, rfl⟩ | ⟨r, hr, q, -, rfl⟩
  · rfl
  · exact sided s r hr

theorem BookInvariant.matchOrder (inv : BookInvariant b)
    (fresh : ∀ o ∈ b.restingOrders, o.id ≠ incoming.id) :
    BookInvariant (b.matchOrder clock incoming).2 where
  wellFormed := inv.wellFormed.matchOrder
  ownSide := OrderBook.Sided.matchOrder inv.ownSide
  notMarket := by
    intro o mem
    obtain ⟨s, mem⟩ := mem_restingOrders.mp mem
    rcases mem_restingIn_matchOrder mem with ⟨-, kind, q, -, rfl⟩ | ⟨r, hr, q, -, rfl⟩
    · exact kind
    · exact inv.notMarket r (mem_restingOrders.mpr ⟨s, hr⟩)
  once := by
    have before : ((restingIn (b.levels incoming.side) ++ restingIn (b.levels
        incoming.side.opposite)).map Order.id).Nodup :=
      ((restingOrders_perm b incoming.side).map Order.id).nodup_iff.mp inv.once
    have walked := (matchLevels_left_map incoming.side b.symbol clock Order.id (fun _ _ => rfl) 0
      incoming (b.levels incoming.side.opposite)).sublist
    rw [(restingOrders_matchOrder.map Order.id).nodup_iff, List.map_append, List.map_append]
    rw [List.map_append] at before
    have kept := (List.Sublist.refl
      ((restingIn (b.levels incoming.side)).map Order.id)).append walked
    split
    · refine List.nodup_cons.mpr ⟨fun mem => ?_, before.sublist kept⟩
      obtain ⟨o, ho, eq⟩ : ∃ o ∈ b.restingOrders, o.id = incoming.id := by
        rcases List.mem_append.mp (kept.subset mem) with mem | mem <;>
          obtain ⟨o, ho, eq⟩ := List.mem_map.mp mem <;>
          exact ⟨o, mem_restingOrders.mpr ⟨_, ho⟩, eq⟩
      exact fresh o ho eq
    · exact before.sublist kept
  uncrossed := uncrossed_iff.mp
    (uncrossed_matchOrder inv.wellFormed (uncrossed_iff.mpr inv.uncrossed))

end Match

/-! ### Cancelling keeps the invariant -/

section Removed

variable {b : OrderBook P} {s : Side} {id : Nat} {ls' : List (Level P)}

theorem OrderBook.WellFormed.removed (wf : b.WellFormed) (removed : Removed id (b.levels s) ls') :
    (b.setLevels s ls').WellFormed := by
  intro s'
  by_cases own : s' = s
  · subst own
    rw [OrderBook.levels_setLevels]
    exact (wf s').removed removed
  · rw [OrderBook.levels_setLevels_of_ne _ own]
    exact wf s'

omit [LinearOrder P] in
theorem OrderBook.Sided.removed (sided : b.Sided) (removed : Removed id (b.levels s) ls') :
    (b.setLevels s ls').Sided :=
  fun s' o mem => sided s' o (removed.subset s' mem)

theorem BookInvariant.removed (inv : BookInvariant b) (removed : Removed id (b.levels s) ls') :
    BookInvariant (b.setLevels s ls') where
  wellFormed := inv.wellFormed.removed removed
  ownSide := OrderBook.Sided.removed inv.ownSide removed
  notMarket := by
    intro o mem
    obtain ⟨s', mem⟩ := mem_restingOrders.mp mem
    exact inv.notMarket o (mem_restingOrders.mpr ⟨s', removed.subset s' mem⟩)
  once := by
    obtain ⟨o, -, -, before⟩ := removed.restingOrders
    have ids := (before.map Order.id).nodup_iff.mp inv.once
    exact (List.nodup_cons.mp ids).2
  uncrossed := by
    refine uncrossed_iff.mp fun s' l hl k hk => ?_
    obtain ⟨l', hl', eq⟩ := removed.level s' hl
    obtain ⟨k', hk', eq'⟩ := removed.level s'.opposite hk
    rw [eq, eq']
    exact uncrossed_iff.mpr inv.uncrossed s' l' hl' k' hk'

end Removed

/-! ### Whole runs -/

/-- A call that submits nothing removes at most one order. -/
theorem OrderBook.WellFormed.apply_of_submitted_none {b : OrderBook P} (wf : b.WellFormed)
    {op : BookOp P} (none : op.submitted = none) : b.apply op = b ∨
      ∃ s id ls', Removed id (b.levels s) ls' ∧ b.apply op = b.setLevels s ls' := by
  cases op with
  | submit clock order => cases none
  | cancelAtPrice side price id =>
      rcases b.cancelAtPrice_cases side price id with eq | ⟨ls', removed, eq⟩
      · exact .inl (congrArg Prod.snd eq)
      · exact .inr ⟨side, id, ls', removed, congrArg Prod.snd eq⟩
  | cancel id =>
      rcases OrderBook.cancel_cases (fun s => (wf s).sorted) id with ⟨-, eq⟩ | ⟨s, ls', removed, eq⟩
      · exact .inl (congrArg Prod.snd eq)
      · exact .inr ⟨s, id, ls', removed, congrArg Prod.snd eq⟩

/-- **One call keeps the invariant**, if a submitted order is new. -/
theorem BookInvariant.apply {b : OrderBook P} {op : BookOp P} (inv : BookInvariant b)
    (fresh : ∀ o, op.submitted = some o → ∀ r ∈ b.restingOrders, r.id ≠ o.id) :
    BookInvariant (b.apply op) := by
  cases ho : op.submitted with
  | some o =>
      obtain ⟨clock, rfl⟩ := BookOp.eq_submit ho
      exact inv.matchOrder (fresh o rfl)
  | none =>
      rcases inv.wellFormed.apply_of_submitted_none ho with eq | ⟨s, id, ls', removed, eq⟩
      · rw [eq]
        exact inv
      · rw [eq]
        exact inv.removed removed

/-- The ids in a book after a call: the old ones and the submitted one. -/
theorem id_of_mem_apply {b : OrderBook P} {op : BookOp P} (inv : BookInvariant b) {r : Order P}
    (mem : r ∈ (b.apply op).restingOrders) :
    (∃ o, op.submitted = some o ∧ r.id = o.id) ∨ ∃ r' ∈ b.restingOrders, r.id = r'.id := by
  obtain ⟨s, mem⟩ := mem_restingOrders.mp mem
  cases ho : op.submitted with
  | some o =>
      obtain ⟨clock, rfl⟩ := BookOp.eq_submit ho
      rcases mem_restingIn_matchOrder mem with ⟨-, -, q, -, rfl⟩ | ⟨r', hr', q, -, rfl⟩
      · exact .inl ⟨o, rfl, rfl⟩
      · exact .inr ⟨r', mem_restingOrders.mpr ⟨s, hr'⟩, rfl⟩
  | none =>
      refine .inr ⟨r, mem_restingOrders.mpr ⟨s, ?_⟩, rfl⟩
      rcases inv.wellFormed.apply_of_submitted_none ho with eq | ⟨t, id, ls', removed, eq⟩ <;>
        rw [eq] at mem
      · exact mem
      · exact removed.subset s mem

/-- A call brings no id into the book that is still to come. -/
theorem BookInvariant.fresh_apply {b : OrderBook P} {op : BookOp P} {ops : List (BookOp P)}
    (inv : BookInvariant b) (distinct : (((op :: ops).filterMap BookOp.submitted).map Order.id).Nodup)
    (fresh : ∀ op' ∈ op :: ops, ∀ o, op'.submitted = some o → ∀ r ∈ b.restingOrders, r.id ≠ o.id) :
    ∀ op' ∈ ops, ∀ o, op'.submitted = some o → ∀ r ∈ (b.apply op).restingOrders, r.id ≠ o.id := by
  intro op' mem o ho r hr
  rcases id_of_mem_apply inv hr with ⟨p, hp, eq⟩ | ⟨r', hr', eq⟩
  · intro same
    rw [List.filterMap_cons, hp, List.map_cons, List.nodup_cons] at distinct
    exact distinct.1 (List.mem_map.mpr
      ⟨o, List.mem_filterMap.mpr ⟨op', mem, ho⟩, same.symm.trans eq⟩)
  · rw [eq]
    exact fresh op' (List.mem_cons_of_mem _ mem) o ho r' hr'

omit [LinearOrder P] in
theorem nodup_submitted_tail {op : BookOp P} {ops : List (BookOp P)}
    (distinct : (((op :: ops).filterMap BookOp.submitted).map Order.id).Nodup) :
    ((ops.filterMap BookOp.submitted).map Order.id).Nodup :=
  distinct.sublist (((List.sublist_cons_self op ops).filterMap _).map _)

/-- The invariant along a run, from any book that holds none of the ids to come. -/
theorem BookInvariant.run : ∀ {ops : List (BookOp P)} {b : OrderBook P}, BookInvariant b →
    ((ops.filterMap BookOp.submitted).map Order.id).Nodup →
    (∀ op ∈ ops, ∀ o, op.submitted = some o → ∀ r ∈ b.restingOrders, r.id ≠ o.id) →
    BookInvariant (b.run ops)
  | [], _, inv, _, _ => inv
  | _ :: _, _, inv, distinct, fresh =>
      (inv.apply (fresh _ List.mem_cons_self)).run (nodup_submitted_tail distinct)
        (inv.fresh_apply distinct fresh)

theorem BookInvariant.best_lt {b : OrderBook P} (inv : BookInvariant b) {bid ask : P}
    (hbid : b.bestBid = some bid) (hask : b.bestAsk = some ask) : bid < ask := by
  obtain ⟨l, hl, rfl⟩ := Option.map_eq_some_iff.mp hbid
  obtain ⟨k, hk, rfl⟩ := Option.map_eq_some_iff.mp hask
  exact inv.uncrossed l (List.mem_of_head? hl) k (List.mem_of_head? hk)

/-- **The book invariant holds after every run** of submissions with distinct ids
and of both cancellations on an empty book, and the best bid stays below the best
ask. -/
theorem run_bookInvariant (symbol : Symbol) (ops : List (BookOp P))
    (distinct : ((ops.filterMap BookOp.submitted).map Order.id).Nodup) :
    BookInvariant ((OrderBook.new symbol).run ops) ∧
      ∀ bid ask, ((OrderBook.new symbol).run ops).bestBid = some bid →
        ((OrderBook.new symbol).run ops).bestAsk = some ask → bid < ask := by
  have inv : BookInvariant ((OrderBook.new symbol).run ops) := by
    refine (BookInvariant.new symbol).run distinct fun op _ o _ r hr => ?_
    cases hr
  exact ⟨inv, fun _ _ => inv.best_lt⟩

/-- A sweep over two levels that comes to rest, and a cancellation of the rest. -/
theorem run_bookInvariant_sweep :
    let ops : List (BookOp ℚ) := [
      .submit (fun _ => 0) (limitOrder 1 1 .sell "AAPL" 5 10),
      .submit (fun _ => 0) (limitOrder 2 1 .sell "AAPL" 5 11),
      .submit (fun _ => 0) (limitOrder 3 2 .buy "AAPL" 20 11),
      .cancelAtPrice .buy 11 3]
    BookInvariant ((OrderBook.new "AAPL").run ops) ∧
      ∀ bid ask, ((OrderBook.new "AAPL").run ops).bestBid = some bid →
        ((OrderBook.new "AAPL").run ops).bestAsk = some ask → bid < ask :=
  run_bookInvariant "AAPL" _ (by decide)

end StockMarket
