import StockMarket.Engine.Quantity
import StockMarket.Net.Server

/-!
Which commands leave the orders of other clients alone.

`Isolated` says it of two states: an order of another client keeps its place, and
its quantity is reduced by trades against the sender only. A submission is always
isolated (`isolated_submitted`). A cancellation finds its order by id alone, so it is
isolated exactly if the order that it finds (`Command.target`) is the sender's own
(`command_isolated_iff`).
-/

namespace StockMarket

open Atomic MatchingEngine

/-! ### Isolation -/

section

variable {P : Type}

/-- What trades leave of an order that they name. -/
def Order.leftBy (o : Order P) (trades : List (Trade P)) : Int :=
  o.quantity - tradedAs o.id o.side trades

/-- All trades of the order are with the client, and what they leave of it is
there afterwards. -/
structure ReducedBy (client : ClientId) (trades : List (Trade P)) (o : Order P)
    (after : List (Order P)) : Prop where
  against : ∀ t ∈ trades, t.orderId o.side = o.id → t.party o.side.opposite = client
  nonneg : 0 ≤ o.leftBy trades
  kept : 0 < o.leftBy trades → o.withQuantity (o.leftBy trades) ∈ after

/-- Between two states the orders of other clients were reduced by trades with the client
at most. -/
def Isolated (client : ClientId) (e e' : MatchingEngine P) : Prop :=
  ∃ trades, e'.emitted = e.emitted ++ trades ∧
    (∀ o ∈ e.allResting, o.client ≠ client → ReducedBy client trades o e'.allResting) ∧
    ∀ o ∈ e.waitingOrders, o.client ≠ client → o ∈ e'.waitingOrders

namespace Isolated

variable {client : ClientId} {e e' e'' : MatchingEngine P}

/-- Counters and published events do not matter. -/
theorem of_core (isolated : Isolated client e e') (same : e''.core = e'.core) :
    Isolated client e e'' := by
  have core : Isolated client e e'.core := isolated
  rw [← same] at core
  exact core

end Isolated

section

variable [LT P] {client : ClientId} {e e' : MatchingEngine P} {pending : List (Order P)}
  {o r : Order P}

omit [LT P] in
theorem mem_openOrders : o ∈ e.openOrders pending ↔
    o ∈ pending ∨ o ∈ e.allResting ∨ o ∈ e.waitingOrders := by
  rw [openOrders, List.mem_append, List.mem_append]

/-- An open order is known by its id. -/
theorem EngineInvariant.unique (inv : EngineInvariant e pending) (ho : o ∈ e.openOrders pending)
    (hr : r ∈ e.openOrders pending) (same : r.id = o.id) : r = o :=
  List.inj_on_of_nodup_map inv.once hr ho same

/-- An order does not rest and wait at once. -/
theorem EngineInvariant.not_both (inv : EngineInvariant e pending) (rests : o ∈ e.allResting)
    (waits : o ∈ e.waitingOrders) : False := by
  have once : (pending.map Order.id ++ (e.allResting ++ e.waitingOrders).map Order.id).Nodup := by
    rw [← List.map_append]
    exact inv.once
  have places := (List.nodup_append.mp once).2.1
  rw [List.map_append] at places
  exact (List.nodup_append.mp places).2.2 _ (List.mem_map_of_mem rests) _
    (List.mem_map_of_mem waits) rfl

/-- The quantity that the books know of an open order. -/
theorem EngineInvariant.weigh_countsFor (inv : EngineInvariant e pending)
    (mem : o ∈ e.openOrders pending) :
    weigh (countsFor o.id o.side) (e.openOrders pending) = o.quantity := by
  obtain ⟨front, back, split⟩ := List.append_of_mem mem
  have perm : (e.openOrders pending).Perm (o :: (front ++ back)) :=
    (List.Perm.of_eq split).trans List.perm_middle
  have sided : ∀ r ∈ e.openOrders pending, r.id = o.id → r.side = o.side := by
    intro r hr same
    rw [inv.unique mem hr same]
  rw [StockMarket.weigh_countsFor sided, filter_id_eq perm inv.once]
  exact add_zero _

omit [LT P] in
/-- An order that no trade names is kept as it is. -/
theorem ReducedBy.of_mem {after : List (Order P)} (pos : 0 < o.quantity) (mem : o ∈ after) :
    ReducedBy client [] o after := by
  have left : o.leftBy [] = o.quantity := sub_zero _
  constructor
  · intro t none
    cases none
  · rw [left]
    exact pos.le
  · intro _
    rw [left]
    exact mem

/-- **When orders are taken away** without a trade, the step is isolated exactly if all
were the client's own. -/
theorem isolated_iff_gone (inv : EngineInvariant e []) {gone : List (Order P)}
    (split : (e.openOrders []).Perm (gone ++ e'.openOrders []))
    (place : (∀ o, o ∈ e'.allResting ↔ o ∈ e.allResting) ∨
      ∀ o, o ∈ e'.waitingOrders ↔ o ∈ e.waitingOrders)
    (emitted : e'.emitted = e.emitted) :
    Isolated client e e' ↔ ∀ o ∈ gone, o.client = client := by
  constructor
  · rintro ⟨trades, more, resting, waiting⟩ o mem
    have none : trades = [] := List.self_eq_append_right.mp (emitted.symm.trans more)
    subst none
    have before : o ∈ e.openOrders [] := split.mem_iff.mpr (List.mem_append_left _ mem)
    have absent : o ∉ e'.openOrders [] := by
      intro there
      have ids := (split.map Order.id).nodup_iff.mp inv.once
      rw [List.map_append] at ids
      exact (List.nodup_append.mp ids).2.2 _ (List.mem_map_of_mem mem) _
        (List.mem_map_of_mem there) rfl
    by_contra foreign
    rcases mem_openOrders.mp before with none | rests | waits
    · cases none
    · have kept := (resting o rests foreign).kept
      have left : o.leftBy [] = o.quantity := sub_zero _
      rw [left] at kept
      exact absent (mem_openOrders.mpr (.inr (.inl (kept (inv.positive before)))))
    · exact absent (mem_openOrders.mpr (.inr (.inr (waiting o waits foreign))))
  · intro own
    have stays : ∀ o ∈ e.openOrders [], o.client ≠ client →
        o ∈ e'.allResting ∨ o ∈ e'.waitingOrders := by
      intro o mem foreign
      rcases List.mem_append.mp (split.mem_iff.mp mem) with gone | left
      · exact absurd (own o gone) foreign
      · exact (mem_openOrders.mp left).resolve_left List.not_mem_nil
    refine ⟨[], emitted.trans (List.append_nil _).symm, fun o rests foreign => ?_,
      fun o waits foreign => ?_⟩
    · have before : o ∈ e.openOrders [] := mem_openOrders.mpr (.inr (.inl rests))
      refine .of_mem (inv.positive before) ?_
      rcases stays o before foreign with rests' | waits
      · exact rests'
      · rcases place with same | same
        · exact (same o).mpr rests
        · exact (inv.not_both rests ((same o).mp waits)).elim
    · rcases stays o (mem_openOrders.mpr (.inr (.inr waits))) foreign with rests | waits'
      · rcases place with same | same
        · exact (inv.not_both ((same o).mp rests) waits).elim
        · exact (same o).mpr waits
      · exact waits'

/-- A step that leaves the open orders alone. -/
theorem Isolated.of_eq (inv : EngineInvariant e []) (resting : e'.allResting = e.allResting)
    (waiting : e'.waitingOrders = e.waitingOrders) (emitted : e'.emitted = e.emitted) :
    Isolated client e e' := by
  have split : (e.openOrders []).Perm ([] ++ e'.openOrders []) := by
    rw [List.nil_append, openOrders, openOrders, resting, waiting]
  have place : ∀ o, o ∈ e'.allResting ↔ o ∈ e.allResting := fun o => by rw [resting]
  refine (isolated_iff_gone inv split (.inl place) emitted).mpr fun o mem => ?_
  cases mem

end

/-! ### Submissions -/

section

variable [Zero P] [Add P] [Sub P] [Mul P] [IntCast P] [LT P] [DecidableLT P]
  {e : MatchingEngine P} {o n : Order P}

omit [Zero P] [Add P] [Sub P] [Mul P] [IntCast P] in
/-- The trades of a match are with the incoming order's client. -/
theorem against_matched (inv : EngineInvariant e [n]) (clock : Nat → Int)
    (other : o.id ≠ n.id) : ∀ t ∈ (matchBook clock n e).1, t.orderId o.side = o.id →
      t.party o.side.opposite = n.client := by
  intro t mem names
  rw [inv.matchBook_trades] at mem
  obtain ⟨f, -, now, rfl⟩ := mem_fillTrades mem
  by_cases same : o.side = n.side
  · rw [same, tradeOf_orderId] at names
    exact absurd names.symm other
  · rw [Side.eq_opposite_of_ne same, Side.opposite_opposite, tradeOf_party]

/-- An order that is open after a match is an order from before, up to its quantity. -/
theorem terms_matched (inv : EngineInvariant e [n]) (clock : Nat → Int)
    (mem : o ∈ e.openOrders [n]) {r : Order P} (after : r ∈ (matched clock n e).openOrders [])
    (same : r.id = o.id) : r = o.withQuantity r.quantity := by
  obtain ⟨r', mem', eq⟩ := List.mem_map.mp ((map_openOrders_matched Order.terms
    (fun _ _ => rfl) clock e [] n).subset (List.mem_map_of_mem after))
  have ids : r'.terms.id = r.terms.id := by rw [eq]
  obtain rfl : r' = o := inv.unique mem mem' (ids.trans same)
  have shape : r.terms.withQuantity r.quantity = r'.terms.withQuantity r.quantity := by rw [eq]
  exact shape

/-- What is open of an order after a match is what the trades left of it. -/
theorem left_matched (inv : EngineInvariant e [n]) (clock : Nat → Int)
    (mem : o ∈ e.openOrders [n]) (other : o.id ≠ n.id) :
    weigh (countsFor o.id o.side) ((matched clock n e).openOrders [])
      = o.leftBy (matchBook clock n e).1 := by
  have account := inv.weigh_matched (u := countsFor o.id o.side) (fun _ _ => rfl) clock
  have resting : ∀ f ∈ e.fillFor n, f.1.2.side = n.side.opposite := by
    intro f mem
    obtain ⟨l, hl, -, ho, -⟩ := inv.mem_fillFor mem
    exact ((inv.book n.symbol).own _ f.1.2 (mem_restingIn.mpr ⟨l, hl, ho⟩)).1
  have traded := weighFill_countsFor o.id o.side n.symbol clock resting
  rw [← inv.matchBook_trades] at traded
  have lost : weigh (countsFor o.id o.side) (e.lost clock n) = 0 := by
    refine weigh_eq_zero fun r mem => ?_
    unfold MatchingEngine.lost at mem
    split at mem
    · rw [List.mem_singleton.mp mem]
      exact if_neg fun h => other h.1.symm
    · cases mem
  rw [inv.weigh_countsFor mem, traded, lost] at account
  unfold Order.leftBy
  omega

/-- **A match reduces the other orders of its book** by the trades that name them. -/
theorem reduced_matched [IsStrictOrder P (· < ·)] (inv : EngineInvariant e [n]) (clock : Nat → Int)
    (rests : o ∈ e.allResting) :
    ReducedBy n.client (matchBook clock n e).1 o (matched clock n e).allResting := by
  have mem : o ∈ e.openOrders [n] := mem_openOrders.mpr (.inr (.inl rests))
  have other : o.id ≠ n.id := by
    intro same
    have there : o ∈ e.openOrders [] := mem_openOrders.mpr (.inr (.inl rests))
    exact (List.nodup_cons.mp inv.once).1 (List.mem_map.mpr ⟨o, there, same⟩)
  have inv' := inv.matched clock
  have left := left_matched inv clock mem other
  by_cases found : ∃ r ∈ (matched clock n e).openOrders [], r.id = o.id
  · obtain ⟨r, after, same⟩ := found
    have shape := terms_matched inv clock mem after same
    have sides : r.side = o.side := by rw [shape, Order.withQuantity_side]
    have quantity := inv'.weigh_countsFor after
    rw [same, sides, left] at quantity
    refine ⟨against_matched inv clock other, ?_, fun _ => ?_⟩
    · rw [quantity]
      exact (inv'.positive after).le
    · rw [quantity, ← shape]
      rcases mem_openOrders.mp after with none | rests' | waits
      · cases none
      · exact rests'
      · -- what waits afterwards waited before, but `o` rested
        rw [waitingOrders_matched] at waits
        have twice : r = o := inv.unique mem (mem_openOrders.mpr (.inr (.inr waits))) same
        exact (inv.not_both rests (twice ▸ waits)).elim
  · have none : weigh (countsFor o.id o.side) ((matched clock n e).openOrders []) = 0 := by
      refine weigh_eq_zero fun r mem => ?_
      exact if_neg fun h => found ⟨r, mem, h.1⟩
    rw [none] at left
    refine ⟨against_matched inv clock other, left.le, fun pos => ?_⟩
    omega

variable [LE P] [DecidableLE P] [OfScientific P] [IsStrictOrder P (· < ·)]

/-- **A submission is isolated.** -/
theorem isolated_submitted (inv : EngineInvariant e []) (now : Int) (clock : Nat → Int)
    (request : OrderRequest P) : Isolated request.client e (e.submitted now clock request) := by
  rcases submitted_cases now clock request e with ⟨admits, -, eq⟩ | ⟨admits, -, eq⟩ | ⟨-, eq⟩
  · rw [eq]
    have arrives := inv.admitted now admits
    refine ⟨_, EngineInvariant.emitted_matched clock _ e.withId, fun o rests _ => ?_,
      fun o waits _ => ?_⟩
    · exact reduced_matched arrives clock rests
    · rw [matched, waitingOrders, settleAll_registry]
      exact waits
  · rw [eq]
    have queued := (inv.admitted now admits).waitingOrders_enqueue
    refine ⟨[], (List.append_nil _).symm, fun o rests _ => ?_, fun o waits _ => ?_⟩
    · exact .of_mem (inv.positive (mem_openOrders.mpr (.inr (.inl rests)))) rests
    · exact queued.mem_iff.mpr (List.mem_cons_of_mem _ waits)
  · rw [eq]
    exact .of_eq inv rfl rfl rfl

end

/-! ### Cancellations -/

section

variable [LT P] [DecidableLT P]

/-- The queue that a cancellation at a price looks into. -/
def ordersAt (s : Side) (price : P) : List (Level P) → List (Order P)
  | [] => []
  | level :: levels =>
    if s.before level.price price then ordersAt s price levels
    else if s.before price level.price then []
    else level.queue

theorem ordersAt_subset (s : Side) (price : P) (ls : List (Level P)) :
    ordersAt s price ls ⊆ restingIn ls := by
  induction ls with
  | nil => exact List.Subset.refl _
  | cons l ls ih =>
      intro o mem
      rw [ordersAt] at mem
      rw [restingIn_cons]
      split at mem
      · exact List.mem_append_right _ (ih mem)
      · split at mem
        · cases mem
        · exact List.mem_append_left _ mem

/-- It succeeds if the id is there. -/
theorem cancelAt_isSome (s : Side) (price : P) (id : Nat) (ls : List (Level P)) :
    (cancelAt s price id ls).isSome = hasId id (ordersAt s price ls) := by
  induction ls with
  | nil => rfl
  | cons l ls ih =>
      rw [cancelAt, ordersAt]
      split
      · rw [Option.isSome_map, ih]
      · split
        · rfl
        · cases has : hasId id l.queue with
          | true =>
              rw [if_pos rfl]
              split
              · rfl
              · rfl
          | false => rfl

end

/-- The id is the first of its kind in a part of orders with distinct ids, if it is there. -/
theorem mem_gone_iff {os found : List (Order P)} (sub : found ⊆ os)
    (distinct : (os.map Order.id).Nodup) (id : Nat) (o : Order P) :
    (o ∈ if hasId id found then os.filter fun r => r.id = id else []) ↔
      found.find? (fun r => r.id = id) = some o := by
  have unique : ∀ r ∈ os, r.id = id → ∀ r' ∈ os, r'.id = id → r = r' := fun r hr same r' hr' same' =>
    List.inj_on_of_nodup_map distinct hr hr' (same.trans same'.symm)
  constructor
  · intro mem
    split at mem
    · rename_i has
      obtain ⟨listed, same⟩ := List.mem_filter.mp mem
      obtain ⟨r, there, eq⟩ := hasId_iff.mp has
      cases first : found.find? fun r => r.id = id with
      | none =>
          have := List.find?_eq_none.mp first r there
          exact absurd (decide_eq_true eq) this
      | some r' =>
          have eq' := List.find?_some (p := fun r : Order P => decide (r.id = id)) first
          rw [unique r' (sub (List.mem_of_find?_eq_some first)) (of_decide_eq_true eq') o listed
            (of_decide_eq_true same)]
    · cases mem
  · intro first
    have there := List.mem_of_find?_eq_some first
    have same := List.find?_some (p := fun r : Order P => decide (r.id = id)) first
    rw [if_pos (hasId_iff.mpr ⟨o, there, of_decide_eq_true same⟩)]
    exact List.mem_filter.mpr ⟨sub there, same⟩

section

variable [LT P] [DecidableLT P] {client : ClientId} {e : MatchingEngine P} {s : Symbol}
  {f : OrderBook P → Bool × OrderBook P} {id : Nat}

/-- The orders that a cancellation at a price looks into. -/
def MatchingEngine.ordersAt (e : MatchingEngine P) (symbol : Symbol) (side : Side) (price : P) :
    List (Order P) :=
  if e.symbolExists symbol then StockMarket.ordersAt side price ((e.bookFor symbol).levels side)
  else []

theorem MatchingEngine.ordersAt_subset (e : MatchingEngine P) (symbol : Symbol) (side : Side)
    (price : P) : e.ordersAt symbol side price ⊆ e.restingOrders symbol := by
  unfold MatchingEngine.ordersAt restingOrders
  split
  · intro o mem
    exact mem_restingOrders.mpr ⟨side, StockMarket.ordersAt_subset side price _ mem⟩
  · exact List.Subset.refl _

theorem found_cancelOrderAt (e : MatchingEngine P) (symbol : Symbol) (side : Side) (price : P)
    (id : Nat) : (e.cancelledIn symbol (OrderBook.cancelAtPrice · side price id)).1
      = hasId id (e.ordersAt symbol side price) := by
  have book : ∀ b : OrderBook P, (b.cancelAtPrice side price id).1
      = hasId id (StockMarket.ordersAt side price (b.levels side)) := by
    intro b
    rw [← cancelAt_isSome]
    unfold OrderBook.cancelAtPrice
    cases cancelAt side price id (b.levels side) with
    | none => rfl
    | some ls => rfl
  unfold MatchingEngine.ordersAt cancelledIn
  split
  · exact book _
  · rfl

theorem found_cancelOrder [IsStrictOrder P (· < ·)] (inv : EngineInvariant e []) (symbol : Symbol)
    (id : Nat) : (e.cancelledIn symbol (OrderBook.cancel · id)).1
      = hasId id (e.restingOrders symbol) := by
  have book : ((e.bookFor symbol).cancel id).1 = hasId id (e.bookFor symbol).restingOrders := by
    rcases OrderBook.cancel_cases (inv.book symbol).sorted id with ⟨absent, eq⟩ |
      ⟨side, ls', removed, eq⟩
    · rw [eq, eq_comm, Bool.eq_false_iff]
      intro has
      obtain ⟨o, mem, same⟩ := hasId_iff.mp has
      exact absent o mem same
    · obtain ⟨o, same, mem, -⟩ := removed.restingOrders
      rw [eq, eq_comm]
      exact hasId_iff.mpr ⟨o, mem_restingOrders.mpr ⟨side, mem⟩, same⟩
  unfold cancelledIn restingOrders
  split
  · exact book
  · rfl

omit [DecidableLT P] in
theorem found_cancelWaitingOrder (inv : EngineInvariant e []) (id : Nat) :
    (e.registry.cancel id).1 = hasId id e.waitingOrders := by
  by_cases found : ∃ o, e.registry.Waits o ∧ o.id = id
  · obtain ⟨o, waits, rfl⟩ := found
    rw [inv.registry.cancel_eq waits, eq_comm]
    exact hasId_iff.mpr ⟨o, inv.registry.mem_allWaiting.mpr waits, rfl⟩
  · have absent : hasId id e.waitingOrders = false := by
      rw [Bool.eq_false_iff]
      intro has
      obtain ⟨o, mem, same⟩ := hasId_iff.mp has
      exact found ⟨o, inv.registry.mem_allWaiting.mp mem, same⟩
    rw [← inv.registry.mem_index, ← AList.lookup_eq_none] at found
    rw [cancel_of_absent found, absent]

omit [LT P] [DecidableLT P] in
/-- A cancellation in a book does not touch the waiting orders, nor any book if it finds
nothing. -/
theorem frame_cancelledIn (one : CancelsOne id (e.bookFor s) (f (e.bookFor s))) :
    (e.cancelledIn s f).2.registry = e.registry ∧ (e.cancelledIn s f).2.emitted = e.emitted ∧
      ((e.cancelledIn s f).1 = false → ∀ t, (e.cancelledIn s f).2.bookFor t = e.bookFor t) := by
  unfold cancelledIn
  split
  · refine ⟨rfl, rfl, fun missed t => ?_⟩
    rcases one with none | ⟨side, ls', -, found⟩
    · rw [none]
      by_cases here : t = s
      · subst here
        exact bookFor_withBook e t _
      · exact bookFor_withBook_ne e s _ here
    · rw [found] at missed
      cases missed
  · exact ⟨rfl, rfl, fun _ _ => rfl⟩

omit [DecidableLT P] in
/-- **A cancellation in a book** is isolated if what it finds is the client's own. -/
theorem isolated_cancelledIn (client : ClientId) (inv : EngineInvariant e [])
    (one : CancelsOne id (e.bookFor s) (f (e.bookFor s))) {found : List (Order P)}
    (flag : (e.cancelledIn s f).1 = hasId id found) (sub : found ⊆ e.restingOrders s) :
    Isolated client e (e.cancelledIn s f).2 ↔
      ∀ o, found.find? (fun r => r.id = id) = some o → o.client = client := by
  obtain ⟨registry, emitted, -⟩ := frame_cancelledIn one
  have distinct : ((e.restingOrders s).map Order.id).Nodup := by
    unfold restingOrders
    split
    · exact inv.nodup_bookFor s
    · exact List.nodup_nil
  have place : ∀ o, o ∈ (e.cancelledIn s f).2.waitingOrders ↔ o ∈ e.waitingOrders := by
    intro o
    rw [waitingOrders, registry, waitingOrders]
  rw [isolated_iff_gone inv (inv.cancelledIn id one).2 (.inr place) emitted, flag]
  simp only [mem_gone_iff sub distinct]

omit [DecidableLT P] in
/-- **A cancellation in the registry** is isolated if what it finds is the client's own. -/
theorem isolated_cancelledWaiting (inv : EngineInvariant e []) (id : Nat) :
    Isolated client e { e with registry := (e.registry.cancel id).2 } ↔
      ∀ o, e.waitingOrders.find? (fun r => r.id = id) = some o → o.client = client := by
  have place : ∀ o, o ∈ allResting { e with registry := (e.registry.cancel id).2 } ↔
      o ∈ e.allResting := fun o => Iff.rfl
  have distinct : (e.waitingOrders.map Order.id).Nodup := inv.registry.nodup_allWaiting
  rw [isolated_iff_gone inv (inv.cancelledWaiting id).2 (.inl place) rfl,
    found_cancelWaitingOrder inv id]
  simp only [mem_gone_iff (List.Subset.refl _) distinct]

/-- **A cancellation in a book, then in the registry**, is isolated if the first thing that
is found is the client's own. -/
theorem isolated_cancelled [IsStrictOrder P (· < ·)] (inv : EngineInvariant e [])
    (symbol : Symbol) (id : Nat) :
    let first := e.cancelledIn symbol (OrderBook.cancel · id)
    Isolated client e
        (if first.1 then first.2
          else { first.2 with registry := (first.2.registry.cancel id).2 }) ↔
      ∀ o, ((e.restingOrders symbol).find? fun r => r.id = id).or
        (e.waitingOrders.find? fun r => r.id = id) = some o → o.client = client := by
  intro first
  have one := cancel_one (inv.book symbol) id
  obtain ⟨registry, emitted, books⟩ := frame_cancelledIn (f := (OrderBook.cancel · id)) one
  have flag : first.1 = hasId id (e.restingOrders symbol) := found_cancelOrder inv symbol id
  cases found : first.1 with
  | true =>
      have step := isolated_cancelledIn (f := (OrderBook.cancel · id)) client inv one flag
        (List.Subset.refl _)
      rw [if_pos rfl, step]
      obtain ⟨r, mem, same⟩ := hasId_iff.mp (flag.symm.trans found)
      have hit : ((e.restingOrders symbol).find? fun r => r.id = id).isSome :=
        List.find?_isSome.mpr ⟨r, mem, decide_eq_true same⟩
      rw [Option.or_of_isSome hit]
  | false =>
      rw [if_neg Bool.false_ne_true]
      have miss : ((e.restingOrders symbol).find? fun r => r.id = id) = none := by
        refine List.find?_eq_none.mpr fun r mem same => ?_
        have has := hasId_iff.mpr ⟨r, mem, of_decide_eq_true same⟩
        rw [← flag, found] at has
        cases has
      obtain ⟨inv', split⟩ := inv.cancelOrder symbol id
      have unmoved : (e.openOrders []).Perm (first.2.openOrders []) := by
        refine split.trans (List.Perm.of_eq ?_)
        rw [if_neg (Bool.eq_false_iff.mp found), List.nil_append]
      have waiting : first.2.waitingOrders = e.waitingOrders := by
        rw [waitingOrders, registry, waitingOrders]
      have place : ∀ o, o ∈ allResting { first.2 with
          registry := (first.2.registry.cancel id).2 } ↔ o ∈ e.allResting := by
        intro o
        refine mem_allResting.trans (Iff.trans ?_ mem_allResting.symm)
        exact exists_congr fun t => by
          rw [← books found t]
          exact Iff.rfl
      have distinct : (e.waitingOrders.map Order.id).Nodup := inv.registry.nodup_allWaiting
      rw [isolated_iff_gone inv (unmoved.trans (inv'.cancelledWaiting id).2) (.inl place) emitted,
        found_cancelWaitingOrder inv' id, waiting, miss, Option.none_or]
      simp only [mem_gone_iff (List.Subset.refl _) distinct]

end

end

/-! ### Commands -/

/-- The order that a command would cancel. -/
def Command.target (e : MatchingEngine Double) : Command → Option (Order Double)
  | .cancel (some orderId) symbol =>
      ((e.restingOrders symbol).find? fun r => r.id = orderId).or
        (e.waitingOrders.find? fun r => r.id = orderId)
  | .cancelWaiting (some orderId) => e.waitingOrders.find? fun r => r.id = orderId
  | .cancelBook (some orderId) symbol side (some price) =>
      (e.ordersAt symbol side price).find? fun r => r.id = orderId
  | _ => none

theorem orderRequest_client {client : ClientId} {tokens : List String}
    {request : OrderRequest Double} (read : orderRequest client tokens = .ok request) :
    request.client = client := by
  unfold orderRequest at read
  dsimp only at read
  split at read
  · cases read
  · split at read
    · cases read
    · split at read
      · cases read
      · cases read
      · cases read
        rfl

theorem readCommand_client {client : ClientId} {tokens : List String}
    {request : OrderRequest Double} (read : readCommand client tokens = .order (.ok request)) :
    request.client = client := by
  unfold readCommand at read
  dsimp only at read
  split at read
  · exact orderRequest_client (Command.order.inj read)
  · repeat' (split at read <;> try cases read)

section

variable {e : MatchingEngine Double} {client : ClientId}

/-- A command that would cancel nothing is isolated if what it does to the engine is. -/
theorem isolated_iff_of_target_none {e' : MatchingEngine Double} {command : Command}
    (none : command.target e = none) (isolated : Isolated client e e') :
    Isolated client e e' ↔ ∀ o, command.target e = some o → o.client = client := by
  refine iff_of_true isolated fun o some => ?_
  rw [none] at some
  cases some

theorem apply_cancelOrder (e : MatchingEngine Double) (symbol : Symbol) (orderId : Nat) :
    e.apply (.cancelOrder symbol orderId)
      = (e.cancelledIn symbol (OrderBook.cancel · orderId)).2 := by
  rw [MatchingEngine.apply, EngineCall.program, Prog.exec_bind, exec_cancelOrder]
  rfl

theorem apply_cancelOrderAt (e : MatchingEngine Double) (symbol : Symbol) (side : Side)
    (price : Double) (orderId : Nat) : e.apply (.cancelOrderAt symbol side price orderId)
      = (e.cancelledIn symbol (OrderBook.cancelAtPrice · side price orderId)).2 := by
  rw [MatchingEngine.apply, EngineCall.program, Prog.exec_bind, exec_cancelOrderAt]
  rfl

/-- **Which commands are isolated**: those that would not cancel the order of another
client. -/
theorem command_isolated_iff (inv : EngineInvariant e []) (env : Env) {command : Command}
    (own : ∀ request, command = .order (.ok request) → request.client = client) :
    Isolated client e (e.run (command.calls env e)) ↔
      ∀ o, command.target e = some o → o.client = client := by
  have idle : Isolated client e e := .of_eq inv rfl rfl rfl
  cases command with
  | order request =>
      cases request with
      | error message => exact isolated_iff_of_target_none rfl idle
      | ok request =>
          obtain rfl := own request rfl
          have submission := isolated_submitted inv env.now env.clock request
          exact isolated_iff_of_target_none rfl (submission.of_core (core_apply e _))
  | cancel orderId symbol =>
      cases orderId with
      | none => exact isolated_iff_of_target_none rfl idle
      | some orderId =>
          refine Iff.trans ?_ (isolated_cancelled inv symbol orderId)
          rw [Command.calls, MatchingEngine.run, List.foldl_cons, apply_cancelOrder]
          cases (e.cancelledIn symbol (OrderBook.cancel · orderId)).1 with
          | true => exact Iff.rfl
          | false => exact Iff.rfl
  | cancelWaiting orderId =>
      cases orderId with
      | none => exact isolated_iff_of_target_none rfl idle
      | some orderId => exact isolated_cancelledWaiting inv orderId
  | cancelBook orderId symbol side price =>
      cases orderId with
      | none => exact isolated_iff_of_target_none rfl idle
      | some orderId =>
          cases price with
          | none => exact isolated_iff_of_target_none rfl idle
          | some price =>
              have one := cancelAtPrice_one (e.bookFor symbol) side price orderId
              have step := isolated_cancelledIn (f :=
                (OrderBook.cancelAtPrice · side price orderId))
                client inv one (found_cancelOrderAt e symbol side price orderId)
                (e.ordersAt_subset symbol side price)
              rw [Command.calls, MatchingEngine.run, List.foldl_cons, apply_cancelOrderAt]
              exact step
  | portfolio => exact isolated_iff_of_target_none rfl idle
  | market symbol => exact isolated_iff_of_target_none rfl idle
  | symbols => exact isolated_iff_of_target_none rfl idle
  | metrics => exact isolated_iff_of_target_none rfl idle
  | unknown => exact isolated_iff_of_target_none rfl idle

end

/-- **Client isolation.** On every run of the server, the command of a message leaves
the orders of other clients alone, trades with the sender apart, exactly if the order
that it would cancel is not another client's. -/
theorem message_isolated_iff (setup : List (SetupCall Double)) (calls : List ServerCall)
    (client : ClientId) (line : String) (env : Env) :
    let e := (setUp setup).serveAll calls
    Isolated client e (e.afterMessage client line env) ↔
      ∀ o, (readCommand client (split line)).target e = some o → o.client = client := by
  intro e
  have inv : EngineInvariant e [] := EngineInvariant.serveAll calls (idle_setUp setup).invariant
  rw [afterMessage, dispatchCommand, Command.exec_program]
  exact command_isolated_iff inv env fun request read => readCommand_client read

/-- Two accounts, and a resting BUY order of the first. -/
def oneResting : List ServerCall :=
  [.openAccount 1, .openAccount 2, .message 1 "ORDER BUY AAPL 5 LIMIT PRICE=100" quietEnv]

/-- The second client cancels the order of the first by its number. -/
theorem cancel_not_isolated :
    let e := (setUp [.registerSymbol "AAPL" 180.0]).serveAll oneResting
    e.allResting.map (fun o => (o.id, o.client, o.quantity)) = [(1, 1, 5)] ∧
      (e.afterMessage 2 "CANCEL 1 AAPL" quietEnv).allResting = [] ∧
      ¬Isolated 2 e (e.afterMessage 2 "CANCEL 1 AAPL" quietEnv) := by
  intro e
  have orders : e.allResting.map (fun o => (o.id, o.client, o.quantity)) = [(1, 1, 5)] := by
    decide +kernel
  have gone : (e.afterMessage 2 "CANCEL 1 AAPL" quietEnv).allResting = [] := by decide +kernel
  refine ⟨orders, gone, ?_⟩
  rintro ⟨trades, emitted, resting, -⟩
  have silent : (e.afterMessage 2 "CANCEL 1 AAPL" quietEnv).emitted = [] := by decide +kernel
  rw [silent, eq_comm, List.append_eq_nil_iff] at emitted
  obtain ⟨o, only, fields⟩ := List.map_eq_singleton_iff.mp orders
  obtain ⟨-, client, quantity⟩ : o.id = 1 ∧ o.client = 1 ∧ o.quantity = 5 := by simpa using fields
  have foreign : o.client ≠ 2 := by
    rw [client]
    decide
  have kept := (resting o (only ▸ List.mem_singleton_self o) foreign).kept
  rw [emitted.2, gone] at kept
  have left : o.leftBy [] = 5 := (sub_zero _).trans quantity
  cases kept (left ▸ by decide)

end StockMarket
