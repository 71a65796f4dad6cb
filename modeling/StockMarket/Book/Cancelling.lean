import StockMarket.Book.Invariant
import Mathlib.Data.List.Nodup

/-!
The two cancellations of a book.

`OrderBook.cancel(order_id)` looks for the order everywhere, `cancel(side, price, order_id)`
only in one level. On a book that satisfies the invariant both take out the same order and
nothing else: what is left is the book without that id (`OrderBook.without`), in which every
other order stands where it stood. An id that was cancelled is in no trade after that, since
a match names the incoming order and orders of the book only (`cancelsSurgically_run`).
-/

namespace StockMarket

variable {P : Type}

/-! ### A book without an id -/

/-- The levels without the orders of an id. A level with no other order is dropped. -/
def withoutId (id : Nat) (ls : List (Level P)) : List (Level P) :=
  (ls.map fun l => { l with queue := l.queue.filter fun o => o.id ≠ id }).filter fun l =>
    l.queue ≠ []

/-- The book without the orders of an id. -/
def OrderBook.without (b : OrderBook P) (id : Nat) : OrderBook P :=
  { b with bids := withoutId id b.bids, asks := withoutId id b.asks }

section

variable {id : Nat} {ls ls' : List (Level P)}

theorem withoutId_append (id : Nat) (ls ls' : List (Level P)) :
    withoutId id (ls ++ ls') = withoutId id ls ++ withoutId id ls' := by
  rw [withoutId, List.map_append, List.filter_append]
  rfl

/-- The orders left in a book are those of other ids, as they were. -/
theorem restingIn_withoutId (id : Nat) (ls : List (Level P)) :
    restingIn (withoutId id ls) = (restingIn ls).filter fun o => o.id ≠ id := by
  induction ls with
  | nil => rfl
  | cons l ls ih =>
      rw [← List.singleton_append, withoutId_append, restingIn_append, ih, List.singleton_append,
        restingIn_cons, List.filter_append]
      refine congrArg (· ++ _) ?_
      unfold withoutId
      rw [List.map_singleton]
      by_cases empty : (l.queue.filter fun o => o.id ≠ id) = []
      · rw [List.filter_cons_of_neg (by simpa using empty), List.filter_nil, restingIn_nil, empty]
      · rw [List.filter_cons_of_pos (by simpa using empty), List.filter_nil]
        exact List.append_nil _

/-- Levels that do not have the id stay as they are. -/
theorem withoutId_of_absent (nonempty : ∀ l ∈ ls, l.queue ≠ [])
    (absent : ∀ o ∈ restingIn ls, o.id ≠ id) : withoutId id ls = ls := by
  have same : ls.map (fun l => { l with queue := l.queue.filter fun o => o.id ≠ id }) = ls := by
    refine (List.map_congr_left fun l hl => ?_).trans (List.map_id ls)
    have whole : (l.queue.filter fun o => o.id ≠ id) = l.queue :=
      List.filter_eq_self.mpr fun o ho =>
        decide_eq_true (absent o (mem_restingIn.mpr ⟨l, hl, ho⟩))
    rw [whole]
    rfl
  rw [withoutId, same]
  exact List.filter_eq_self.mpr fun l hl => decide_eq_true (nonempty l hl)

/-- Among distinct ids the first order of an id is the only one. -/
theorem eraseId_eq_filter {queue : List (Order P)} (has : hasId id queue = true)
    (distinct : (queue.map Order.id).Nodup) :
    eraseId id queue = queue.filter fun o => o.id ≠ id := by
  obtain ⟨o, front, back, rfl, split, erased⟩ := eraseId_split has
  rw [split, List.map_append, List.map_cons] at distinct
  have others : ∀ r ∈ front ++ back, r.id ≠ o.id := by
    have first := (List.nodup_cons.mp (List.nodup_middle.mp distinct)).1
    rw [← List.map_append] at first
    exact fun r mem same => first (List.mem_map.mpr ⟨r, mem, same⟩)
  have kept : ∀ os : List (Order P), (∀ r ∈ os, r ∈ front ++ back) →
      (os.filter fun r => r.id ≠ o.id) = os :=
    fun os sub => List.filter_eq_self.mpr fun r mem => decide_eq_true (others r (sub r mem))
  rw [erased, split, List.filter_append, List.filter_cons_of_neg (by simp),
    kept front fun r mem => List.mem_append_left _ mem,
    kept back fun r mem => List.mem_append_right _ mem]

/-- A level of which the order was taken out. -/
theorem withoutId_level {l : Level P} (has : hasId id l.queue = true)
    (distinct : (l.queue.map Order.id).Nodup) : withoutId id [l] = shorten id l := by
  unfold withoutId shorten
  rw [eraseId_eq_filter has distinct, List.map_singleton]
  by_cases empty : (l.queue.filter fun o => o.id ≠ id) = []
  · rw [if_pos empty, List.filter_cons_of_neg (by simpa using empty), List.filter_nil]
  · rw [if_neg empty, List.filter_cons_of_pos (by simpa using empty), List.filter_nil]

/-- **A removal leaves the levels without the id**, if no other order has it. -/
theorem Removed.eq_withoutId (removed : Removed id ls ls') (nonempty : ∀ l ∈ ls, l.queue ≠ [])
    (distinct : ((restingIn ls).map Order.id).Nodup) : ls' = withoutId id ls := by
  obtain ⟨front, l, back, rfl, has, rfl⟩ := removed
  obtain ⟨o, ho, same⟩ := hasId_iff.mp has
  rw [restingIn_append, restingIn_cons, List.map_append, List.map_append] at distinct
  obtain ⟨-, later, before⟩ := List.nodup_append.mp distinct
  obtain ⟨own, -, behind⟩ := List.nodup_append.mp later
  have front' : withoutId id front = front := by
    refine withoutId_of_absent (fun k hk => nonempty k (List.mem_append_left _ hk)) ?_
    intro r hr eq
    refine before r.id (List.mem_map_of_mem hr) o.id ?_ (eq.trans same.symm)
    exact List.mem_append_left _ (List.mem_map_of_mem ho)
  have back' : withoutId id back = back := by
    refine withoutId_of_absent
      (fun k hk => nonempty k (List.mem_append_right _ (List.mem_cons_of_mem _ hk))) ?_
    intro r hr eq
    exact behind o.id (List.mem_map_of_mem ho) r.id (List.mem_map_of_mem hr) (same.trans eq.symm)
  rw [← List.singleton_append, ← List.append_assoc, withoutId_append, withoutId_append, front',
    back', withoutId_level has own]

end

/-! ### At the price of a level -/

section

variable [LinearOrder P] {s : Side} {id : Nat}

/-- The search at the price of a level finds that level. -/
theorem cancelAt_middle {front back : List (Level P)} {l : Level P}
    (sorted : LevelsSorted s (front ++ l :: back)) (has : hasId id l.queue = true) :
    cancelAt s l.price id (front ++ l :: back) = some (front ++ shorten id l ++ back) := by
  induction front with
  | nil =>
      rw [List.nil_append, cancelAt, if_neg (before_irrefl s l.price),
        if_neg (before_irrefl s l.price), if_pos has, shorten]
      split <;> rfl
  | cons k front ih =>
      obtain ⟨first, rest⟩ := List.pairwise_cons.mp sorted
      have before := first l (List.mem_append_right _ List.mem_cons_self)
      rw [List.cons_append, cancelAt, if_pos before, ih rest]
      rfl

/-- A search for an order at its own side and price. -/
theorem cancelAt_own {ls : List (Level P)} (wf : LevelsWF s ls) {o : Order P}
    (mem : o ∈ restingIn ls) :
    ∃ ls', Removed o.id ls ls' ∧ cancelAt s o.price o.id ls = some ls' := by
  obtain ⟨l, hl, ho⟩ := mem_restingIn.mp mem
  obtain ⟨front, back, rfl⟩ := List.append_of_mem hl
  have has : hasId o.id l.queue = true := hasId_iff.mpr ⟨o, ho, rfl⟩
  rw [wf.atPrice l hl o ho]
  exact ⟨_, ⟨front, l, back, rfl, has, rfl⟩, cancelAt_middle wf.sorted has⟩

end

/-! ### Both cancellations -/

section

variable [LinearOrder P] {b : OrderBook P} {s : Side} {id : Nat} {ls' : List (Level P)}

namespace BookInvariant

theorem nodup_levels (inv : BookInvariant b) (s : Side) :
    ((restingIn (b.levels s)).map Order.id).Nodup := by
  have both := ((restingOrders_perm b s).map Order.id).nodup_iff.mp inv.once
  rw [List.map_append] at both
  exact (List.nodup_append.mp both).1

/-- An order that rests on one side does not rest on the other. -/
theorem absent_opposite (inv : BookInvariant b) {o : Order P} (mem : o ∈ restingIn (b.levels s)) :
    ∀ r ∈ restingIn (b.levels s.opposite), r.id ≠ o.id := by
  have both := ((restingOrders_perm b s).map Order.id).nodup_iff.mp inv.once
  rw [List.map_append] at both
  intro r hr same
  exact (List.nodup_append.mp both).2.2 o.id (List.mem_map_of_mem mem) r.id
    (List.mem_map_of_mem hr) same.symm

/-- The book after a removal on one side. -/
theorem setLevels_of_removed (inv : BookInvariant b) (removed : Removed id (b.levels s) ls') :
    b.setLevels s ls' = b.without id := by
  obtain ⟨o, rfl, mem, -⟩ := removed.restingOrders
  have own := removed.eq_withoutId (inv.wellFormed s).nonempty (inv.nodup_levels s)
  have other := withoutId_of_absent (inv.wellFormed s.opposite).nonempty (inv.absent_opposite mem)
  cases s with
  | buy =>
      have asks : withoutId o.id b.asks = b.asks := other
      rw [OrderBook.without, asks, own]
      rfl
  | sell =>
      have bids : withoutId o.id b.bids = b.bids := other
      rw [OrderBook.without, bids, own]
      rfl

/-- An id in the book is cancelled. -/
theorem cancel_of_mem (inv : BookInvariant b) {o : Order P} (mem : o ∈ b.restingOrders) :
    b.cancel o.id = (true, b.without o.id) := by
  rcases OrderBook.cancel_cases (fun s => (inv.wellFormed s).sorted) o.id with
    ⟨absent, -⟩ | ⟨s, ls', removed, eq⟩
  · exact absurd rfl (absent o mem)
  · rw [eq, inv.setLevels_of_removed removed]

/-- So it is at the side and the price of its order. -/
theorem cancelAtPrice_of_mem (inv : BookInvariant b) {o : Order P} (mem : o ∈ b.restingOrders) :
    b.cancelAtPrice o.side o.price o.id = (true, b.without o.id) := by
  obtain ⟨s, mem⟩ := mem_restingOrders.mp mem
  obtain rfl := inv.ownSide s o mem
  obtain ⟨ls', removed, found⟩ := cancelAt_own (inv.wellFormed o.side) mem
  rw [OrderBook.cancelAtPrice, found, ← inv.setLevels_of_removed removed]

end BookInvariant

/-- An id that is not in the book leaves it alone. -/
theorem cancel_of_absent_id (absent : ∀ o ∈ b.restingOrders, o.id ≠ id) :
    b.cancel id = (false, b) := by
  have bids : cancelIn .buy id b.bids = none :=
    cancelIn_eq_none_iff.mpr fun o mem => absent o (List.mem_append_left _ mem)
  have asks : cancelIn .sell id b.asks = none :=
    cancelIn_eq_none_iff.mpr fun o mem => absent o (List.mem_append_right _ mem)
  rw [OrderBook.cancel, bids, asks]

omit [LinearOrder P] in
/-- What a cancellation by id does to a book. -/
structure CancelsSurgically [LT P] [DecidableLT P] (b : OrderBook P) (id : Nat) : Prop where
  finds : (b.cancel id).1 = true ↔ ∃ o ∈ b.restingOrders, o.id = id
  misses : (b.cancel id).1 = false → (b.cancel id).2 = b
  removes : (b.cancel id).1 = true → (b.cancel id).2 = b.without id
  takesOne : ∀ o ∈ b.restingOrders, o.id = id →
    b.restingOrders.Perm (o :: (b.without id).restingOrders)
  agrees : ∀ o ∈ b.restingOrders, o.id = id → b.cancelAtPrice o.side o.price id = b.cancel id

theorem BookInvariant.cancelsSurgically (inv : BookInvariant b) (id : Nat) :
    CancelsSurgically b id := by
  by_cases found : ∃ o ∈ b.restingOrders, o.id = id
  · obtain ⟨o, mem, rfl⟩ := found
    have cancelled := inv.cancel_of_mem mem
    refine ⟨iff_of_true (congrArg Prod.fst cancelled) ⟨o, mem, rfl⟩, fun missed => ?_,
      fun _ => congrArg Prod.snd cancelled, fun r hr same => ?_, fun r hr same => ?_⟩
    · rw [cancelled] at missed
      cases missed
    · obtain ⟨s, side⟩ := mem_restingOrders.mp hr
      obtain ⟨ls', removed, -⟩ := cancelAt_own (inv.wellFormed s) side
      obtain ⟨q, eq, place, split⟩ := removed.restingOrders
      rw [← same, ← inv.setLevels_of_removed removed]
      obtain rfl : q = r := List.inj_on_of_nodup_map inv.once
        (mem_restingOrders.mpr ⟨s, place⟩) hr eq
      exact split
    · rw [← same, inv.cancelAtPrice_of_mem hr, inv.cancel_of_mem hr]
  · have absent : ∀ o ∈ b.restingOrders, o.id ≠ id := fun o mem same => found ⟨o, mem, same⟩
    have missed := cancel_of_absent_id absent
    refine ⟨iff_of_false (by simp [missed]) found, fun _ => congrArg Prod.snd missed,
      fun cancelled => ?_, fun o mem same => absurd same (absent o mem),
      fun o mem same => absurd same (absent o mem)⟩
    rw [missed] at cancelled
    cases cancelled

/-! ### Later matches -/

/-- A trade names the incoming order, or an order of the book. -/
theorem BookInvariant.orderId_of_mem_trades (inv : BookInvariant b) {clock : Nat → Int}
    {incoming : Order P} {t : Trade P} (mem : t ∈ (b.matchOrder clock incoming).1) (side : Side) :
    t.orderId side = incoming.id ∨ ∃ r ∈ b.restingOrders, t.orderId side = r.id := by
  rw [OrderBook.matchOrder_trades] at mem
  obtain ⟨f, hf, now, rfl⟩ := mem_fillTrades mem
  by_cases own : side = incoming.side
  · subst own
    exact .inl (tradeOf_orderId ..)
  · obtain rfl := Side.eq_opposite_of_ne own
    have accepted := (inv.wellFormed incoming.side.opposite).accepted incoming.side incoming
    have taken := (Greedy.amount_bounds (fun x hx => ?_) hf).1
    · obtain ⟨l, hl, -, queued⟩ := mem_entries.mp taken
      have walked := (List.takeWhile_sublist _).subset hl
      refine .inr ⟨f.1.2, mem_restingOrders.mpr ⟨_, mem_restingIn.mpr ⟨l, walked, queued⟩⟩, ?_⟩
      exact tradeOf_orderId_opposite ..
    · obtain ⟨l, hl, -, queued⟩ := mem_entries.mp hx
      exact accepted.positive l hl x.2 queued

/-- The ids in a book after a run: the old ones and the submitted ones. -/
theorem BookInvariant.id_of_mem_run : ∀ {ops : List (BookOp P)} {b : OrderBook P},
    BookInvariant b → ((ops.filterMap BookOp.submitted).map Order.id).Nodup →
    (∀ op ∈ ops, ∀ o, op.submitted = some o → ∀ r ∈ b.restingOrders, r.id ≠ o.id) →
    ∀ r ∈ (b.run ops).restingOrders, (∃ op ∈ ops, ∃ o, op.submitted = some o ∧ r.id = o.id) ∨
      ∃ r' ∈ b.restingOrders, r.id = r'.id
  | [], _, _, _, _, r, mem => .inr ⟨r, mem, rfl⟩
  | op :: ops, b, inv, distinct, fresh, r, mem => by
      have later := (inv.apply (fresh op List.mem_cons_self)).id_of_mem_run
        (nodup_submitted_tail distinct) (inv.fresh_apply distinct fresh) r mem
      rcases later with ⟨op', mem', o, ho, eq⟩ | ⟨r', mem', eq⟩
      · exact .inl ⟨op', List.mem_cons_of_mem _ mem', o, ho, eq⟩
      · rcases id_of_mem_apply inv mem' with ⟨o, ho, eq'⟩ | ⟨q, hq, eq'⟩
        · exact .inl ⟨op, List.mem_cons_self, o, ho, eq.trans eq'⟩
        · exact .inr ⟨q, hq, eq.trans eq'⟩

/-- An id that was cancelled is in no trade of a match after a further run. -/
theorem BookInvariant.orderId_ne_of_cancelled (inv : BookInvariant b)
    (rests : ∃ o ∈ b.restingOrders, o.id = id) {later : List (BookOp P)}
    (distinct : ((later.filterMap BookOp.submitted).map Order.id).Nodup)
    (fresh : ∀ op ∈ later, ∀ o, op.submitted = some o → ∀ r ∈ b.restingOrders, r.id ≠ o.id)
    {clock : Nat → Int} {incoming : Order P} (other : incoming.id ≠ id) {t : Trade P}
    (mem : t ∈ (((b.cancel id).2.run later).matchOrder clock incoming).1) (side : Side) :
    t.orderId side ≠ id := by
  obtain ⟨gone, hgone, rfl⟩ := rests
  have inv' : BookInvariant (b.apply (.cancel gone.id)) := inv.apply fun o ho => nomatch ho
  have left : ∀ r ∈ (b.cancel gone.id).2.restingOrders, r ∈ b.restingOrders ∧ r.id ≠ gone.id := by
    intro r hr
    rw [inv.cancel_of_mem hgone] at hr
    obtain ⟨s, hr⟩ := mem_restingOrders.mp hr
    have kept : r ∈ (restingIn (b.levels s)).filter fun o => o.id ≠ gone.id := by
      rw [← restingIn_withoutId]
      cases s <;> exact hr
    exact ⟨mem_restingOrders.mpr ⟨s, List.mem_of_mem_filter kept⟩,
      of_decide_eq_true (List.mem_filter.mp kept).2⟩
  have fresh' : ∀ op ∈ later, ∀ o, op.submitted = some o →
      ∀ r ∈ (b.cancel gone.id).2.restingOrders, r.id ≠ o.id :=
    fun op hop o ho r hr => fresh op hop o ho r (left r hr).1
  rcases (inv'.run distinct fresh').orderId_of_mem_trades mem side with eq | ⟨r, hr, eq⟩
  · rw [eq]
    exact other
  · rw [eq]
    rcases inv'.id_of_mem_run distinct fresh' r hr with ⟨op, hop, o, ho, same⟩ | ⟨r', hr', same⟩
    · rw [same]
      exact (fresh op hop o ho gone hgone).symm
    · rw [same]
      exact (left r' hr').2

/-- Cancellations are surgical in every book that a run of submissions with distinct ids and of
cancellations leads to. An id that was cancelled is in no trade of a later match, whatever comes
between. -/
theorem cancelsSurgically_run (symbol : Symbol) (ops : List (BookOp P))
    (distinct : ((ops.filterMap BookOp.submitted).map Order.id).Nodup) (id : Nat) :
    CancelsSurgically ((OrderBook.new symbol).run ops) id ∧
      ((((OrderBook.new symbol).run ops).cancel id).1 = true → ∀ (later : List (BookOp P))
        (clock : Nat → Int) (o : Order P),
        (((ops ++ later ++ [BookOp.submit clock o]).filterMap BookOp.submitted).map
          Order.id).Nodup →
        ∀ t ∈ (((((OrderBook.new symbol).run ops).cancel id).2.run later).matchOrder clock o).1,
          ∀ side, t.orderId side ≠ id) := by
  have untouched : ∀ op ∈ ops, ∀ o, op.submitted = some o →
      ∀ r ∈ (OrderBook.new symbol : OrderBook P).restingOrders, r.id ≠ o.id :=
    fun _ _ _ _ r hr => nomatch hr
  have inv := (BookInvariant.new (P := P) symbol).run distinct untouched
  have surgical := inv.cancelsSurgically id
  refine ⟨surgical, fun found later clock o unused t mem side => ?_⟩
  -- whatever is in the book was submitted by `ops`
  have earlier : ∀ r ∈ ((OrderBook.new symbol).run ops).restingOrders,
      r.id ∈ (ops.filterMap BookOp.submitted).map Order.id := by
    intro r hr
    rcases (BookInvariant.new symbol).id_of_mem_run distinct untouched r hr with
      ⟨op, hop, p, hp, eq⟩ | ⟨r', hr', -⟩
    · exact List.mem_map.mpr ⟨p, List.mem_filterMap.mpr ⟨op, hop, hp⟩, eq.symm⟩
    · cases hr'
  rw [List.filterMap_append, List.filterMap_append, List.map_append, List.map_append] at unused
  obtain ⟨before, -, last⟩ := List.nodup_append.mp unused
  obtain ⟨-, after, apart⟩ := List.nodup_append.mp before
  obtain ⟨gone, hgone, same⟩ := surgical.finds.mp found
  refine inv.orderId_ne_of_cancelled ⟨gone, hgone, same⟩ after ?_ ?_ mem side
  · intro op hop p hp r hr
    exact apart r.id (earlier r hr) p.id
      (List.mem_map.mpr ⟨p, List.mem_filterMap.mpr ⟨op, hop, hp⟩, rfl⟩)
  · have differs := last gone.id (List.mem_append_left _ (earlier gone hgone)) o.id
      List.mem_cons_self
    rw [← same]
    exact differs.symm

end

end StockMarket
