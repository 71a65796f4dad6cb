import StockMarket.Book.Levels
import Mathlib.Algebra.Order.Ring.Rat

/-!
Price-time priority.

`PriceTimeMatch` says what a match has to do: it fills from the resting orders
that the incoming order accepts, best price first and oldest first inside a
price, at the resting prices, and leaves everything else in place.
`match_price_time` proves it for `OrderBook.matchOrder` on a well-formed book,
over every linear order of prices. One statement covers both sides, the side of
the incoming order decides which way it reads.
-/

namespace StockMarket

variable {P : Type} [LinearOrder P]

/-! ### Well-formed levels -/

/-- One well-formed side: levels in order, none empty, every order in the level
of its price and with something left to trade. -/
structure LevelsWF (s : Side) (ls : List (Level P)) : Prop where
  sorted : LevelsSorted s ls
  nonempty : ∀ l ∈ ls, l.queue ≠ []
  atPrice : ∀ l ∈ ls, ∀ o ∈ l.queue, o.price = l.price
  positive : ∀ l ∈ ls, ∀ o ∈ l.queue, 0 < o.quantity

/-- A well-formed book. -/
def OrderBook.WellFormed (b : OrderBook P) : Prop :=
  ∀ s, LevelsWF s (b.levels s)

theorem LevelsWF.nil (s : Side) : LevelsWF s ([] : List (Level P)) where
  sorted := List.Pairwise.nil
  nonempty := by simp
  atPrice := by simp
  positive := by simp

theorem LevelsWF.sublist {s : Side} {ls ls' : List (Level P)} (wf : LevelsWF s ls)
    (sub : ls'.Sublist ls) : LevelsWF s ls' where
  sorted := List.Pairwise.sublist sub wf.sorted
  nonempty := fun k hk => wf.nonempty k (sub.subset hk)
  atPrice := fun k hk => wf.atPrice k (sub.subset hk)
  positive := fun k hk => wf.positive k (sub.subset hk)

theorem LevelsWF.tail {s : Side} {l : Level P} {ls : List (Level P)} (wf : LevelsWF s (l :: ls)) :
    LevelsWF s ls :=
  wf.sublist (List.sublist_cons_self l ls)

theorem LevelsWF.quantity_pos {s : Side} {ls : List (Level P)} (wf : LevelsWF s ls) {o : Order P}
    (mem : o ∈ restingIn ls) : 0 < o.quantity := by
  obtain ⟨l, hl, ho⟩ := mem_restingIn.mp mem
  exact wf.positive l hl o ho

/-- The levels that an order is willing to walk are well formed. -/
theorem LevelsWF.accepted {s : Side} {ls : List (Level P)} (wf : LevelsWF s ls) (aggressor : Side)
    (incoming : Order P) : LevelsWF s (acceptedLevels aggressor incoming ls) := by
  have sub := List.takeWhile_sublist
    (fun l : Level P => !decide (refuses aggressor incoming l.price))
    (l := ls)
  exact wf.sublist (by simpa [acceptedLevels] using sub)

/-- In well-formed levels an order's own price is its key. -/
theorem LevelsWF.entries_eq {s : Side} : ∀ {ls : List (Level P)}, LevelsWF s ls →
    entries ls = (restingIn ls).map fun o => (o.price, o)
  | [], _ => rfl
  | l :: ls, wf => by
      have key : l.queue.map (l.price, ·) = l.queue.map fun o => (o.price, o) :=
        List.map_congr_left fun o ho => by rw [wf.atPrice l List.mem_cons_self o ho]
      rw [entries_cons, restingIn_cons, List.map_append, key, wf.tail.entries_eq]

/-- A price that is not before another comes after it or equals it. -/
theorem before_or_eq {s : Side} {p q : P} (h : ¬s.before p q) (h' : ¬s.before q p) : p = q := by
  cases s with
  | buy => exact le_antisymm (not_lt.mp h) (not_lt.mp h')
  | sell => exact le_antisymm (not_lt.mp h') (not_lt.mp h)

theorem LevelsWF.pushBack {s : Side} {o : Order P} {ls : List (Level P)} (wf : LevelsWF s ls)
    (pos : 0 < o.quantity) : LevelsWF s (pushBack s o ls) where
  sorted := sorted_pushBack wf.sorted
  nonempty := by
    intro l' mem
    rcases mem_pushBack mem with old | rfl | ⟨l, -, -, -, rfl⟩
    · exact wf.nonempty l' old
    · exact List.cons_ne_nil _ _
    · exact List.append_ne_nil_of_right_ne_nil _ (List.cons_ne_nil _ _)
  atPrice := by
    intro l' mem o' ho'
    rcases mem_pushBack mem with old | rfl | ⟨l, hl, h, h', rfl⟩
    · exact wf.atPrice l' old o' ho'
    · rw [List.mem_singleton.mp ho']
    · rcases List.mem_append.mp ho' with ho' | ho'
      · exact wf.atPrice l hl o' ho'
      · rw [List.mem_singleton.mp ho']
        exact (before_or_eq h h').symm
  positive := by
    intro l' mem o' ho'
    rcases mem_pushBack mem with old | rfl | ⟨l, hl, -, -, rfl⟩
    · exact wf.positive l' old o' ho'
    · rw [List.mem_singleton.mp ho']
      exact pos
    · rcases List.mem_append.mp ho' with ho' | ho'
      · exact wf.positive l hl o' ho'
      · rw [List.mem_singleton.mp ho']
        exact pos

theorem LevelsWF.removed {s : Side} {id : Nat} {ls ls' : List (Level P)} (wf : LevelsWF s ls)
    (removed : Removed id ls ls') : LevelsWF s ls' where
  sorted := removed.sorted wf.sorted
  nonempty := by
    intro l' mem
    obtain ⟨l, hl, -, rfl | ⟨ne, -⟩⟩ := removed.mem mem
    · exact wf.nonempty l' hl
    · exact ne
  atPrice := by
    intro l' mem o ho
    obtain ⟨l, hl, key, rfl | ⟨-, sub⟩⟩ := removed.mem mem
    · exact wf.atPrice l' hl o ho
    · rw [key]
      exact wf.atPrice l hl o (sub.subset ho)
  positive := by
    intro l' mem o ho
    obtain ⟨l, hl, -, rfl | ⟨-, sub⟩⟩ := removed.mem mem
    · exact wf.positive l' hl o ho
    · exact wf.positive l hl o (sub.subset ho)

/-- The walked side of a match stays well formed. -/
theorem LevelsWF.matchLevels_left {s aggressor : Side} {symbol : Symbol} {clock : Nat → Int}
    {n : Nat} {incoming : Order P} {ls : List (Level P)} (wf : LevelsWF s ls) :
    LevelsWF s (matchLevels aggressor symbol clock n incoming ls).left where
  sorted := by
    have keys := (matchLevels_left_prices aggressor symbol clock n incoming ls).sublist
    have sorted := wf.sorted
    unfold LevelsSorted at *
    rw [← List.pairwise_map (f := Level.price) (R := fun p q => s.before p q)] at sorted ⊢
    exact sorted.sublist keys
  nonempty := by
    intro l' mem
    obtain ⟨l, hl, -, rfl | ⟨ne, -⟩⟩ := mem_matchLevels_left mem
    · exact wf.nonempty l' hl
    · exact ne
  atPrice := by
    intro l' mem o ho
    obtain ⟨l, hl, key, rfl | ⟨-, spec⟩⟩ := mem_matchLevels_left mem
    · exact wf.atPrice l' hl o ho
    · rw [key]
      rcases spec o ho with old | ⟨r, hr, a, -, -, rfl⟩
      · exact wf.atPrice l hl o old
      · exact wf.atPrice l hl r hr
  positive := by
    intro l' mem o ho
    obtain ⟨l, hl, -, rfl | ⟨-, spec⟩⟩ := mem_matchLevels_left mem
    · exact wf.positive l' hl o ho
    · rcases spec o ho with old | ⟨r, hr, a, -, lt, rfl⟩
      · exact wf.positive l hl o old
      · simp only [Order.withQuantity_quantity]
        omega

/-! ### The queue of a price -/

/-- The queue at a price, empty if there is no such level. -/
def queueAt (p : P) (ls : List (Level P)) : List (Order P) :=
  (ls.find? fun l => l.price = p).elim [] Level.queue

theorem queueAt_cons (p : P) (l : Level P) (ls : List (Level P)) :
    queueAt p (l :: ls) = if l.price = p then l.queue else queueAt p ls := by
  unfold queueAt
  rw [List.find?_cons]
  by_cases h : l.price = p <;> simp [h]

theorem queueAt_eq_nil {p : P} {ls : List (Level P)} (h : ∀ l ∈ ls, l.price ≠ p) :
    queueAt p ls = [] := by
  have none : ls.find? (fun l => l.price = p) = none := by simpa using h
  rw [queueAt, none]
  rfl

/-- **The tail of its price and nothing else**: what `pushBack` changes. -/
theorem queueAt_pushBack {s : Side} {o : Order P} (p : P) : ∀ {ls : List (Level P)},
    LevelsSorted s ls →
      queueAt p (pushBack s o ls) = if p = o.price then queueAt p ls ++ [o] else queueAt p ls
  | [], _ => by
      rw [pushBack, queueAt_cons]
      by_cases h : p = o.price
      · rw [if_pos h.symm, if_pos h]
        rfl
      · rw [if_neg (Ne.symm h), if_neg h]
  | l :: ls, sorted => by
      obtain ⟨first, rest⟩ := List.pairwise_cons.mp sorted
      by_cases h : s.before l.price o.price
      · have ne : l.price ≠ o.price := by
          intro eq
          rw [eq] at h
          exact before_irrefl s _ h
        rw [pushBack_cons_before h, queueAt_cons, queueAt_cons, queueAt_pushBack p rest]
        by_cases hp : p = o.price
        · rw [if_pos hp, if_pos hp, hp, if_neg ne, if_neg ne]
        · rw [if_neg hp, if_neg hp]
      · by_cases h' : s.before o.price l.price
        · rw [pushBack_cons_new h h', queueAt_cons]
          by_cases hp : p = o.price
          · have absent : queueAt p (l :: ls) = [] := by
              refine queueAt_eq_nil fun k hk eq => ?_
              have later : s.before o.price k.price := by
                rcases List.mem_cons.mp hk with rfl | hk
                · exact h'
                · exact before_trans h' (first k hk)
              rw [eq, hp] at later
              exact before_irrefl s _ later
            rw [if_pos hp.symm, if_pos hp, absent]
            rfl
          · rw [if_neg (Ne.symm hp), if_neg hp]
        · have same := before_or_eq h h'
          rw [pushBack_cons_same h h', queueAt_cons, queueAt_cons]
          by_cases hp : p = o.price
          · rw [if_pos hp, hp, same, if_pos rfl, if_pos rfl]
          · have ne : l.price ≠ p := fun eq => hp (by rw [← eq, same])
            rw [if_neg hp, if_neg ne, if_neg ne]

/-! ### The eligible orders -/

/-- The prices an incoming order trades at: all for MARKET, up to the limit for a
BUY, from the limit on for a SELL. -/
def Accepts (incoming : Order P) (p : P) : Prop :=
  incoming.kind = .market ∨
    match incoming.side with
    | .buy => p ≤ incoming.price
    | .sell => incoming.price ≤ p

instance (incoming : Order P) (p : P) : Decidable (Accepts incoming p) := by
  unfold Accepts
  cases incoming.side <;> infer_instance

/-- The opposite resting orders that the incoming order accepts, in the order of
the book: best price first, oldest first inside a price. -/
def OrderBook.eligible (b : OrderBook P) (incoming : Order P) : List (Order P) :=
  (restingIn (b.levels incoming.side.opposite)).filter fun o => Accepts incoming o.price

/-- The opposite resting orders that the incoming order does not accept. -/
def OrderBook.ineligible (b : OrderBook P) (incoming : Order P) : List (Order P) :=
  (restingIn (b.levels incoming.side.opposite)).filter fun o => ¬Accepts incoming o.price

theorem not_refuses_iff {incoming : Order P} {p : P} :
    ¬refuses incoming.side incoming p ↔ Accepts incoming p := by
  unfold refuses Accepts
  rw [not_and_or, not_not]
  cases incoming.side <;> simp

/-- Whoever accepts a price accepts every better one of the opposite side. -/
theorem Accepts.of_before {incoming : Order P} {p q : P}
    (before : incoming.side.opposite.before p q) (accepts : Accepts incoming q) :
    Accepts incoming p := by
  unfold Accepts at *
  cases side : incoming.side <;> rw [side] at before accepts
  · exact accepts.imp_right fun h => (le_of_lt before).trans h
  · exact accepts.imp_right fun h => h.trans (le_of_lt before)

/-- The levels that are walked hold the eligible orders, the others the rest. -/
theorem restingIn_accepted_refused {incoming : Order P} : ∀ {ls : List (Level P)},
    LevelsWF incoming.side.opposite ls →
      restingIn (acceptedLevels incoming.side incoming ls)
          = (restingIn ls).filter (fun o => Accepts incoming o.price) ∧
        restingIn (refusedLevels incoming.side incoming ls)
          = (restingIn ls).filter (fun o => ¬Accepts incoming o.price)
  | [], _ => ⟨rfl, rfl⟩
  | l :: ls, wf => by
      have key : ∀ o ∈ l.queue, o.price = l.price := wf.atPrice l List.mem_cons_self
      by_cases accepts : Accepts incoming l.price
      · obtain ⟨ihA, ihR⟩ := restingIn_accepted_refused wf.tail
        have all : ∀ o ∈ l.queue, Accepts incoming o.price := fun o ho => by rwa [key o ho]
        have go := not_refuses_iff.mpr accepts
        have keep : l.queue.filter (fun o => Accepts incoming o.price) = l.queue :=
          List.filter_eq_self.mpr (by simpa using all)
        have drop : l.queue.filter (fun o => ¬Accepts incoming o.price) = [] :=
          List.filter_eq_nil_iff.mpr (by simpa using all)
        rw [acceptedLevels_cons_of_accepts go, refusedLevels_cons_of_accepts go, restingIn_cons,
          restingIn_cons, ihA, ihR, List.filter_append, List.filter_append, keep, drop]
        exact ⟨rfl, rfl⟩
      · have stop : refuses incoming.side incoming l.price := by
          by_contra go
          exact accepts (not_refuses_iff.mp go)
        -- every later level is worse, hence refused as well
        have none : ∀ o ∈ restingIn (l :: ls), ¬Accepts incoming o.price := by
          intro o ho accepted
          obtain ⟨k, hk, hok⟩ := mem_restingIn.mp ho
          rw [wf.atPrice k hk o hok] at accepted
          rcases List.mem_cons.mp hk with rfl | hk
          · exact accepts accepted
          · exact accepts (accepted.of_before ((List.pairwise_cons.mp wf.sorted).1 k hk))
        rw [acceptedLevels_cons_of_refuses stop, refusedLevels_cons_of_refuses stop,
          List.filter_eq_nil_iff.mpr (by simpa using none),
          List.filter_eq_self.mpr (by simpa using none)]
        exact ⟨rfl, rfl⟩

/-- Each queue of well-formed levels is the part of the resting orders with its price. -/
theorem LevelsWF.queueAt_eq {s : Side} (p : P) : ∀ {ls : List (Level P)}, LevelsWF s ls →
    queueAt p ls = (restingIn ls).filter fun o => o.price = p
  | [], _ => rfl
  | l :: ls, wf => by
      have key := wf.atPrice l List.mem_cons_self
      rw [queueAt_cons, restingIn_cons, List.filter_append]
      by_cases here : l.price = p
      · have keep : l.queue.filter (fun o => o.price = p) = l.queue :=
          List.filter_eq_self.mpr fun o ho => decide_eq_true ((key o ho).trans here)
        have others : (restingIn ls).filter (fun o => o.price = p) = [] := by
          refine List.filter_eq_nil_iff.mpr fun o ho eq => ?_
          obtain ⟨k, hk, hok⟩ := mem_restingIn.mp ho
          have before := (List.pairwise_cons.mp wf.sorted).1 k hk
          rw [← wf.atPrice k (List.mem_cons_of_mem _ hk) o hok, of_decide_eq_true eq,
            here] at before
          exact before_irrefl s p before
        rw [if_pos here, keep, others, List.append_nil]
      · have drop : l.queue.filter (fun o => o.price = p) = [] :=
          List.filter_eq_nil_iff.mpr fun o ho eq =>
            here ((key o ho).symm.trans (of_decide_eq_true eq))
        rw [if_neg here, drop, List.nil_append]
        exact wf.tail.queueAt_eq p

/-! ### Price-time priority -/

/-- The trade fills `fill.2` units of the resting order `fill.1` against the
incoming order, at the resting order's own price. -/
structure IsFill (symbol : Symbol) (incoming : Order P) (t : Trade P) (fill : Order P × Int) :
    Prop where
  symbol : t.symbol = symbol
  quantity : t.quantity = fill.2
  price : t.price = fill.1.price
  incomingOrder : t.orderId incoming.side = incoming.id
  incomingClient : t.party incoming.side = incoming.client
  restingOrder : t.orderId incoming.side.opposite = fill.1.id
  restingClient : t.party incoming.side.opposite = fill.1.client

/-- The eligible orders from the last touched one on, after it gave `a` units. -/
def afterFill (last : Order P) (a : Int) (others : List (Order P)) : List (Order P) :=
  (if a = last.quantity then [] else [last.withQuantity (last.quantity - a)]) ++ others

/-- What a match with price-time priority does to a book.

* `filled`: the quantity that trades is as large as it can be.
* `walk`: the touched orders are a prefix of the eligible ones, all consumed but
  possibly the last; all other orders of that side keep their place.
* `remainder`: on the incoming order's own side one queue may grow by one order
  at its tail, and only if the order is not a MARKET order. -/
structure PriceTimeMatch (b : OrderBook P) (incoming : Order P) (trades : List (Trade P))
    (b' : OrderBook P) : Prop where
  filled : tradedQuantity trades
    = min incoming.quantity (totalQuantity (b.eligible incoming))
  walk :
    (b.eligible incoming = [] ∧ trades = [] ∧
      b'.levels incoming.side.opposite = b.levels incoming.side.opposite) ∨
    ∃ (full : List (Order P)) (last : Order P) (others : List (Order P)) (a : Int),
      b.eligible incoming = full ++ last :: others ∧ 0 < a ∧ a ≤ last.quantity ∧
      List.Forall₂ (IsFill b.symbol incoming) trades
        (full.map (fun o => (o, o.quantity)) ++ [(last, a)]) ∧
      restingIn (b'.levels incoming.side.opposite)
        = afterFill last a others ++ b.ineligible incoming ∧
      ∀ p, queueAt p (b'.levels incoming.side.opposite)
        = (afterFill last a others ++ b.ineligible incoming).filter fun o => o.price = p
  remainder : ∀ p, queueAt p (b'.levels incoming.side)
    = let left := incoming.quantity - tradedQuantity trades
      if p = incoming.price ∧ 0 < left ∧ incoming.kind ≠ .market then
        queueAt p (b.levels incoming.side) ++ [incoming.withQuantity left]
      else queueAt p (b.levels incoming.side)
  wellFormed : b'.WellFormed
  symbol : b'.symbol = b.symbol

section

variable {b : OrderBook P} {clock : Nat → Int} {incoming : Order P}

theorem OrderBook.WellFormed.eligible_pos (wf : b.WellFormed) :
    ∀ o ∈ b.eligible incoming, 0 < o.quantity :=
  fun _ ho => (wf incoming.side.opposite).quantity_pos (List.mem_of_mem_filter ho)

/-- On a well-formed book the flat fill runs over the eligible orders themselves. -/
theorem fillOf_eq (wf : b.WellFormed) :
    fillOf incoming.side incoming (b.levels incoming.side.opposite)
      = (Greedy.take Order.quantity incoming.quantity (b.eligible incoming)).map
          fun f => ((f.1.price, f.1), f.2) := by
  have accepted := (wf incoming.side.opposite).accepted incoming.side incoming
  rw [fillOf, accepted.entries_eq, (restingIn_accepted_refused (wf incoming.side.opposite)).1,
    Greedy.take_map]
  rfl

theorem filledOf_eq (wf : b.WellFormed) :
    filledOf incoming.side incoming (b.levels incoming.side.opposite)
      = Greedy.taken Order.quantity incoming.quantity (b.eligible incoming) := by
  have accepted := (wf incoming.side.opposite).accepted incoming.side incoming
  rw [filledOf, accepted.entries_eq, (restingIn_accepted_refused (wf incoming.side.opposite)).1,
    Greedy.taken_map]
  rfl

/-- An order that gave `a` units. -/
def Order.give (o : Order P) (a : Int) : Order P :=
  o.withQuantity (o.quantity - a)

/-- What is left of the opposite side. -/
theorem restingIn_matchOrder_opposite (wf : b.WellFormed) :
    restingIn ((b.matchOrder clock incoming).2.levels incoming.side.opposite)
      = Greedy.rest Order.quantity Order.give incoming.quantity (b.eligible incoming)
        ++ b.ineligible incoming := by
  have accepted := (wf incoming.side.opposite).accepted incoming.side incoming
  obtain ⟨eligible, ineligible⟩ := restingIn_accepted_refused (wf incoming.side.opposite)
  have flat := matchLevels_left incoming.side b.symbol clock 0 incoming
    (b.levels incoming.side.opposite)
  have keyed : ∀ (o : Order P) a, shrinkEntry (o.price, o) a = ((o.give a).price, o.give a) :=
    fun _ _ => rfl
  rw [accepted.entries_eq, eligible, Greedy.rest_map (fun o : Order P => (o.price, o)) keyed]
    at flat
  have orders := congrArg (List.map Prod.snd) flat
  rw [map_snd_entries, List.map_append, map_snd_entries, ineligible, List.map_map] at orders
  rw [OrderBook.matchOrder_levels_opposite, orders]
  congr 1
  exact List.map_id _

omit [LinearOrder P] in
/-- The trades of a fill, one for each touched order. -/
theorem forall₂_fillTrades (symbol : Symbol) : ∀ (n : Nat) (fs : List (Order P × Int)),
    List.Forall₂ (IsFill symbol incoming)
      (fillTrades incoming.side symbol incoming clock n (fs.map fun f => ((f.1.price, f.1), f.2)))
      fs
  | _, [] => List.Forall₂.nil
  | n, f :: fs => by
      refine List.Forall₂.cons ?_ (forall₂_fillTrades symbol (n + 1) fs)
      constructor <;> simp

theorem OrderBook.WellFormed.matchOrder (wf : b.WellFormed) :
    (b.matchOrder clock incoming).2.WellFormed := by
  intro s
  by_cases own : s = incoming.side
  · subst own
    rw [OrderBook.matchOrder_levels_side]
    dsimp only
    split
    · rename_i rests
      exact (wf incoming.side).pushBack rests.1
    · exact wf incoming.side
  · have other := Side.eq_opposite_of_ne own
    subst other
    rw [OrderBook.matchOrder_levels_opposite]
    exact (wf incoming.side.opposite).matchLevels_left

/-- No eligible order: the opposite side is not touched. -/
theorem matchOrder_of_none_eligible (wf : b.WellFormed) (pos : 0 < incoming.quantity)
    (none : b.eligible incoming = []) :
    (b.matchOrder clock incoming).1 = [] ∧
      (b.matchOrder clock incoming).2.levels incoming.side.opposite
        = b.levels incoming.side.opposite := by
  have opposite := wf incoming.side.opposite
  have unfilled : filledOf incoming.side incoming (b.levels incoming.side.opposite) = 0 := by
    rw [filledOf_eq wf, none, Greedy.taken_nil]
  have noLevel : acceptedLevels incoming.side incoming (b.levels incoming.side.opposite) = [] := by
    refine List.eq_nil_iff_forall_not_mem.mpr fun l hl => ?_
    have empty : restingIn (acceptedLevels incoming.side incoming
        (b.levels incoming.side.opposite)) = [] := by
      rw [(restingIn_accepted_refused opposite).1]
      exact none
    obtain ⟨o, ho⟩ := List.exists_mem_of_ne_nil _
      ((opposite.accepted incoming.side incoming).nonempty l hl)
    have : o ∈ restingIn (acceptedLevels incoming.side incoming
        (b.levels incoming.side.opposite)) := mem_restingIn.mpr ⟨l, hl, ho⟩
    rw [empty] at this
    cases this
  constructor
  · rw [OrderBook.matchOrder_trades, fillOf_eq wf, none]
    rfl
  · have open' : 0 < (matchLevels incoming.side b.symbol clock 0 incoming
        (b.levels incoming.side.opposite)).incoming.quantity := by
      rw [matchLevels_incoming, unfilled, sub_zero]
      exact pos
    have all := acceptedLevels_append_refusedLevels incoming.side incoming
      (b.levels incoming.side.opposite)
    rw [noLevel, List.nil_append] at all
    rw [OrderBook.matchOrder_levels_opposite, matchLevels_left_of_unfilled _ _ _ open', all]

end

/-- **Matching keeps price-time priority**: on a well-formed book, for every
incoming order of positive quantity, of every kind and on either side. -/
theorem match_price_time (b : OrderBook P) (clock : Nat → Int) (incoming : Order P)
    (wf : b.WellFormed) (pos : 0 < incoming.quantity) :
    PriceTimeMatch b incoming (b.matchOrder clock incoming).1 (b.matchOrder clock incoming).2 where
  filled := by
    rw [OrderBook.tradedQuantity_matchOrder, filledOf_eq wf,
      Greedy.taken_eq_min pos.le fun o ho => (wf.eligible_pos o ho).le]
    rfl
  walk := by
    by_cases none : b.eligible incoming = []
    · exact .inl ⟨none, matchOrder_of_none_eligible wf pos none⟩
    · right
      obtain ⟨full, last, others, a, eq, apos, ale, taken, rest⟩ := Greedy.take_split
        Order.quantity Order.give pos wf.eligible_pos none
      have left : restingIn ((b.matchOrder clock incoming).2.levels incoming.side.opposite)
          = afterFill last a others ++ b.ineligible incoming := by
        rw [restingIn_matchOrder_opposite wf, rest]
        rfl
      refine ⟨full, last, others, a, eq, apos, ale, ?_, left, ?_⟩
      · rw [OrderBook.matchOrder_trades, fillOf_eq wf, taken]
        exact forall₂_fillTrades b.symbol 0 _
      · intro p
        rw [(wf.matchOrder incoming.side.opposite).queueAt_eq p, left]
  remainder := by
    intro p
    rw [OrderBook.matchOrder_levels_side, OrderBook.tradedQuantity_matchOrder]
    dsimp only
    by_cases rests : 0 < incoming.quantity
        - filledOf incoming.side incoming (b.levels incoming.side.opposite) ∧
          incoming.kind ≠ .market
    · rw [if_pos rests, queueAt_pushBack p (wf incoming.side).sorted]
      exact if_congr (and_iff_left rests).symm rfl rfl
    · rw [if_neg rests, if_neg fun h => rests h.2]
  wellFormed := wf.matchOrder
  symbol := OrderBook.matchOrder_symbol b clock incoming

/-- A LIMIT order with an open release band. -/
def limitOrder (id : Nat) (client : ClientId) (side : Side) (symbol : Symbol) (quantity : Int)
    (price : P) : Order P where
  id := id
  client := client
  side := side
  kind := .limit
  symbol := symbol
  quantity := quantity
  price := price
  releaseLower := none
  releaseUpper := none
  submittedAt := 0
  notBefore := none
  expiresAt := none

/-- Two orders at the best ask and one behind it. -/
def threeAsks : OrderBook ℚ where
  symbol := "AAPL"
  bids := []
  asks := [⟨10, [limitOrder 1 1 .sell "AAPL" 5 10, limitOrder 2 2 .sell "AAPL" 5 10]⟩,
    ⟨11, [limitOrder 3 1 .sell "AAPL" 5 11]⟩]

theorem threeAsks_wellFormed : threeAsks.WellFormed := by
  intro s
  cases s with
  | buy => exact LevelsWF.nil .buy
  | sell => constructor <;> decide +kernel

/-- A BUY that takes the first level and part of the second. -/
theorem match_price_time_threeAsks :
    PriceTimeMatch threeAsks (limitOrder 4 3 .buy "AAPL" 12 11)
      (threeAsks.matchOrder (fun _ => 0) (limitOrder 4 3 .buy "AAPL" 12 11)).1
      (threeAsks.matchOrder (fun _ => 0) (limitOrder 4 3 .buy "AAPL" 12 11)).2 :=
  match_price_time threeAsks (fun _ => 0) _ threeAsks_wellFormed (by decide)

end StockMarket
