import StockMarket.Engine.OpenOrders
import StockMarket.Engine.Settlement

/-!
No order quantity is lost or duplicated, over whole runs of the engine.

`EngineHistory` records next to the engine what its callers saw: the orders that
passed the checks, the results they got, and the orders taken away by
cancellations and expiry. `tally` counts the quantity of one order id on one side
wherever it can be. Every move of an open order keeps the tally
(`tally_matched`, `tally_enqueue`, `tally_scanned`), so a run accounts for every
unit of every admitted order (`quantity_accounted`).
-/

namespace StockMarket

open MatchingEngine

variable {P : Type}

/-! ### The tally of one order -/

/-- The weight that counts one order id on one side. -/
def countsFor (id : Nat) (side : Side) (o : Order P) : Int :=
  if o.id = id ∧ o.side = side then 1 else 0

/-- Where the id decides the side, only the id counts. -/
theorem weigh_countsFor {id : Nat} {side : Side} {os : List (Order P)}
    (sided : ∀ o ∈ os, o.id = id → o.side = side) :
    weigh (countsFor id side) os = totalQuantity (os.filter fun o => o.id = id) := by
  refine (weigh_indicator (fun o => o.id = id ∧ o.side = side) os).trans ?_
  congr 1
  refine List.filter_congr fun o mem => ?_
  rw [decide_eq_decide]
  exact and_iff_left_of_imp (sided o mem)

/-- The traded quantity that names one order id on one side. -/
def tradedAs (id : Nat) (side : Side) (trades : List (Trade P)) : Int :=
  tradedQuantity (trades.filter fun t => t.orderId side = id)

theorem tradedAs_append (id : Nat) (side : Side) (ts us : List (Trade P)) :
    tradedAs id side (ts ++ us) = tradedAs id side ts + tradedAs id side us := by
  rw [tradedAs, List.filter_append, tradedQuantity_append]
  rfl

theorem tradedAs_eq_sum (id : Nat) (side : Side) (ts : List (Trade P)) :
    tradedAs id side ts = (ts.map fun t => if t.orderId side = id then t.quantity else 0).sum := by
  induction ts with
  | nil => rfl
  | cons t ts ih =>
      rw [List.map_cons, List.sum_cons, ← ih]
      by_cases names : t.orderId side = id
      · simp [tradedAs, names]
      · simp [tradedAs, names]

/-- The fills of an incoming order count as its trades do, if what they take rests
on the other side. -/
theorem weighFill_countsFor (id : Nat) (side : Side) (s : Symbol) (clock : Nat → Int)
    {incoming : Order P} {fill : List ((P × Order P) × Int)}
    (other : ∀ f ∈ fill, f.1.2.side = incoming.side.opposite) :
    weighFill (countsFor id side) incoming fill
      = tradedAs id side (fillTrades incoming.side s incoming clock 0 fill) := by
  -- a trade names the incoming order on its own side, the resting one on the other
  have named : ∀ (f : (P × Order P) × Int) now,
      (if (tradeOf incoming.side s incoming f.1.2 f.2 f.1.1 now).orderId side = id
        then (tradeOf incoming.side s incoming f.1.2 f.2 f.1.1 now).quantity else 0)
        = if (if side = incoming.side then incoming.id else f.1.2.id) = id then f.2 else 0 := by
    intro f now
    by_cases own : side = incoming.side
    · subst own
      simp
    · obtain rfl := Side.eq_opposite_of_ne own
      simp [own]
  rw [tradedAs_eq_sum, map_fillTrades _ _ named]
  refine congrArg List.sum (List.map_congr_left fun f mem => ?_)
  have resting := other f mem
  unfold countsFor
  by_cases own : side = incoming.side
  · subst own
    have crossed : ¬(f.1.2.id = id ∧ incoming.side.opposite = incoming.side) := fun h =>
      Side.opposite_ne _ h.2
    rw [resting, if_pos rfl, if_neg crossed]
    by_cases mine : incoming.id = id <;> simp [mine]
  · obtain rfl := Side.eq_opposite_of_ne own
    have crossed : ¬(incoming.id = id ∧ incoming.side = incoming.side.opposite) := fun h =>
      Side.opposite_ne _ h.2.symm
    rw [resting, if_neg own, if_neg crossed]
    by_cases mine : f.1.2.id = id <;> simp [mine]

namespace MatchingEngine

/-- Where the quantity of one order can be: open, traded or discarded. -/
def tally (id : Nat) (side : Side) (e : MatchingEngine P) (pending : List (Order P)) : Int :=
  weigh (countsFor id side) (e.openOrders pending) + tradedAs id side e.emitted
    + weigh (countsFor id side) e.discarded

section

variable [Zero P] [Add P] [Sub P] [Mul P] [IntCast P] [LT P] [DecidableLT P]
  {e : MatchingEngine P} {pending : List (Order P)} {o : Order P}

theorem tally_matched (inv : EngineInvariant e (o :: pending)) (clock : Nat → Int) (id : Nat)
    (side : Side) : tally id side (matched clock o e) pending = tally id side e (o :: pending) := by
  have account := inv.weigh_matched (u := countsFor id side) (fun _ _ => rfl) clock
  have other : ∀ f ∈ e.fillFor o, f.1.2.side = o.side.opposite := by
    intro f mem
    obtain ⟨l, hl, -, ho, -⟩ := inv.mem_fillFor mem
    exact ((inv.book o.symbol).own _ f.1.2 (mem_restingIn.mpr ⟨l, hl, ho⟩)).1
  have trades := weighFill_countsFor id side o.symbol clock other
  unfold tally
  rw [EngineInvariant.emitted_matched, EngineInvariant.discarded_matched, account, trades,
    inv.matchBook_trades, tradedAs_append, weigh_append]
  abel

end

end MatchingEngine

/-! ### Moves -/

/-- An order apart from its quantity. -/
def Order.terms (o : Order P) : Order P :=
  o.withQuantity 0

/-- The orders that are open or were discarded, apart from their quantities. -/
def MatchingEngine.traces (e : MatchingEngine P) (pending : List (Order P)) : List (Order P) :=
  (e.openOrders pending ++ e.discarded).map Order.terms

/-- Between two moments the orders `gone` went away, and nothing else was lost or
added: tallies agree, no order is new, and only MARKET orders were discarded. -/
structure Moves (e : MatchingEngine P) (pending : List (Order P)) (e' : MatchingEngine P)
    (pending' gone : List (Order P)) : Prop where
  tally : ∀ id side, tally id side e pending
    = tally id side e' pending' + weigh (countsFor id side) gone
  traces : e'.traces pending' ++ gone.map Order.terms ⊆ e.traces pending
  market : (∀ o ∈ e.discarded, o.kind = .market) → ∀ o ∈ e'.discarded, o.kind = .market

namespace Moves

section

variable {e e' e'' : MatchingEngine P} {pending pending' pending'' gone gone' : List (Order P)}

theorem refl (e : MatchingEngine P) (pending : List (Order P)) : Moves e pending e pending [] where
  tally := fun id side => (add_zero _).symm
  traces := by
    rw [List.map_nil, List.append_nil]
    exact List.Subset.refl _
  market := id

theorem trans (first : Moves e pending e' pending' gone)
    (second : Moves e' pending' e'' pending'' gone') :
    Moves e pending e'' pending'' (gone ++ gone') where
  tally := by
    intro id side
    rw [first.tally, second.tally, weigh_append, add_assoc, add_comm (weigh _ gone)]
  traces := by
    intro t mem
    rw [List.map_append, List.mem_append, List.mem_append] at mem
    rcases mem with left | early | late
    · exact first.traces (List.mem_append_left _ (second.traces (List.mem_append_left _ left)))
    · exact first.traces (List.mem_append_right _ early)
    · exact first.traces (List.mem_append_left _ (second.traces (List.mem_append_right _ late)))
  market := second.market ∘ first.market

/-- Open orders that change place, some of them going away. -/
theorem of_perm (split : (e.openOrders pending).Perm (gone ++ e'.openOrders pending'))
    (emitted : e'.emitted = e.emitted) (discarded : e'.discarded = e.discarded) :
    Moves e pending e' pending' gone where
  tally := by
    intro id side
    unfold MatchingEngine.tally
    rw [weigh_perm split, weigh_append, emitted, discarded]
    abel
  traces := by
    intro t mem
    unfold MatchingEngine.traces at *
    rw [discarded, List.map_append, List.append_assoc, List.mem_append, List.mem_append] at mem
    rw [List.map_append, (split.map Order.terms |>.append_right _).mem_iff, List.map_append,
      List.mem_append, List.mem_append]
    tauto
  market := fun market => discarded ▸ market

/-- Counters and published events do not matter. -/
theorem of_core (moves : Moves e pending e' pending' gone) (same : e''.core = e'.core) :
    Moves e pending e'' pending' gone := by
  have moves' : Moves e pending e'.core pending' gone := ⟨moves.tally, moves.traces, moves.market⟩
  rw [← same] at moves'
  exact ⟨moves'.tally, moves'.traces, moves'.market⟩

end

section

variable [Zero P] [Add P] [Sub P] [Mul P] [IntCast P] [LT P] [DecidableLT P]
  {e : MatchingEngine P} {pending : List (Order P)} {o : Order P}

/-- **A match** moves a pending order into its book, into trades and away. -/
theorem matched (inv : EngineInvariant e (o :: pending)) (clock : Nat → Int) :
    Moves e (o :: pending) (matched clock o e) pending [] where
  tally := fun id side => (tally_matched inv clock id side).symm.trans (add_zero _).symm
  traces := by
    intro t mem
    rw [List.map_nil, List.append_nil, MatchingEngine.traces, EngineInvariant.discarded_matched,
      List.map_append, List.map_append, List.mem_append, List.mem_append] at mem
    unfold MatchingEngine.traces
    rw [List.map_append, List.mem_append]
    rcases mem with opened | old | lost
    · exact .inl ((map_openOrders_matched Order.terms (fun _ _ => rfl) clock e pending o).subset
        opened)
    · exact .inr old
    · refine .inl (List.mem_cons.mpr (.inl ?_))
      unfold MatchingEngine.lost at lost
      split at lost
      · exact List.mem_singleton.mp lost
      · cases lost
  market := by
    intro market r mem
    rw [EngineInvariant.discarded_matched, List.mem_append] at mem
    rcases mem with old | lost
    · exact market r old
    · unfold MatchingEngine.lost at lost
      split at lost
      · rename_i kind
        rw [List.mem_singleton.mp lost]
        exact kind
      · cases lost

theorem matchedAll [IsStrictOrder P (· < ·)] (clock : Nat → Nat → Int) :
    ∀ (n : Nat) (orders : List (Order P)) {e : MatchingEngine P}, EngineInvariant e orders →
      Moves e orders (matchedAll clock n orders e) [] []
  | _, [], e, _ => refl e []
  | n, _ :: orders, _, inv =>
      (matched inv (clock n)).trans (matchedAll clock (n + 1) orders (inv.matched (clock n)))

end

end Moves

/-! ### Histories -/

/-- An engine with what its callers saw: the orders that passed the checks, all
results, and the orders that cancellations and expiry took away, as they were. -/
structure EngineHistory (P : Type) where
  engine : MatchingEngine P
  admitted : List (Order P) := []
  results : List (SubmitResult P) := []
  withdrawn : List (Order P) := []

namespace EngineHistory

/-- The trades that the callers were told of. -/
def trades (h : EngineHistory P) : List (Trade P) :=
  h.results.flatMap SubmitResult.trades

variable [Zero P] [Add P] [Sub P] [Mul P] [IntCast P] [LT P] [DecidableLT P] [LE P] [DecidableLE P]
  [OfScientific P]

/-- One call. An order that is cancelled is looked up before the call. -/
def call (h : EngineHistory P) : EngineCall P → EngineHistory P
  | .submitOrder now clock request =>
    let (result, engine) := (submitOrder now clock request).exec h.engine
    { h with
      engine
      admitted :=
        if result.accepted then h.admitted ++ [buildOrder request result.orderId now]
        else h.admitted
      results := h.results ++ [result] }
  | .tryReleaseWaitingOrders order now clock fullScan =>
    let (summary, engine) := (tryReleaseWaitingOrders order now clock fullScan).exec h.engine
    { h with
      engine
      results := h.results ++ summary.released
      withdrawn := h.withdrawn ++ summary.expired }
  | .cancelOrderAt symbol side price orderId =>
    let (found, engine) := (cancelOrderAt symbol side price orderId).exec h.engine
    { h with
      engine
      withdrawn := h.withdrawn ++
        if found then (h.engine.restingOrders symbol).filter fun o => o.id = orderId else [] }
  | .cancelOrder symbol orderId =>
    let (found, engine) := (cancelOrder symbol orderId).exec h.engine
    { h with
      engine
      withdrawn := h.withdrawn ++
        if found then (h.engine.restingOrders symbol).filter fun o => o.id = orderId else [] }
  | .cancelWaitingOrder orderId =>
    let (found, engine) := (cancelWaitingOrder orderId).exec h.engine
    { h with
      engine
      withdrawn := h.withdrawn ++
        if found then h.engine.waitingOrders.filter fun o => o.id = orderId else [] }

/-- A sequence of calls. -/
def run (h : EngineHistory P) (calls : List (EngineCall P)) : EngineHistory P :=
  calls.foldl call h

end EngineHistory

/-- What holds of the history of a run: the admitted orders are told apart by ids
that were given out, their quantities are all accounted for, no other order is
around, and the results report the trades. -/
structure Accounts [LT P] (h : EngineHistory P) : Prop where
  inv : EngineInvariant h.engine []
  distinct : (h.admitted.map Order.id).Nodup
  given : ∀ o ∈ h.admitted, o.id < h.engine.nextOrderId
  balance : ∀ id side, weigh (countsFor id side) h.admitted
    = tally id side h.engine [] + weigh (countsFor id side) h.withdrawn
  traces : h.engine.traces [] ++ h.withdrawn.map Order.terms ⊆ h.admitted.map Order.terms
  market : ∀ o ∈ h.engine.discarded, o.kind = .market
  emitted : h.engine.emitted = h.trades
  reported : ∀ r ∈ h.results, r.filledQuantity = tradedQuantity r.trades

namespace Accounts

section

variable [LT P] {h : EngineHistory P} {e : MatchingEngine P} {results : List (SubmitResult P)}

/-- A call that admits no order. -/
theorem moved {gone : List (Order P)} (acc : Accounts h) (inv : EngineInvariant e [])
    (moves : Moves h.engine [] e [] gone) (ids : h.engine.nextOrderId ≤ e.nextOrderId)
    (emitted : e.emitted = h.engine.emitted ++ results.flatMap SubmitResult.trades)
    (reported : ∀ r ∈ results, r.filledQuantity = tradedQuantity r.trades) :
    Accounts { engine := e, admitted := h.admitted, results := h.results ++ results,
               withdrawn := h.withdrawn ++ gone } where
  inv := inv
  distinct := acc.distinct
  given := fun o mem => (acc.given o mem).trans_le ids
  balance := by
    intro id side
    rw [acc.balance, moves.tally, weigh_append]
    abel
  traces := by
    intro t mem
    rw [List.map_append, List.mem_append, List.mem_append] at mem
    rcases mem with left | old | new
    · exact acc.traces (List.mem_append_left _ (moves.traces (List.mem_append_left _ left)))
    · exact acc.traces (List.mem_append_right _ old)
    · exact acc.traces (List.mem_append_left _ (moves.traces (List.mem_append_right _ new)))
  market := moves.market acc.market
  emitted := by
    rw [emitted, acc.emitted, EngineHistory.trades, EngineHistory.trades, List.flatMap_append]
  reported := by
    intro r mem
    rcases List.mem_append.mp mem with old | new
    · exact acc.reported r old
    · exact reported r new

/-- A call that admits an order and takes none away. -/
theorem arrived {o : Order P} (acc : Accounts h) (inv : EngineInvariant e [])
    (fresh : o.id = h.engine.nextOrderId) (moves : Moves h.engine.withId [o] e [] [])
    (ids : e.nextOrderId = h.engine.nextOrderId + 1)
    (emitted : e.emitted = h.engine.emitted ++ results.flatMap SubmitResult.trades)
    (reported : ∀ r ∈ results, r.filledQuantity = tradedQuantity r.trades) :
    Accounts { engine := e, admitted := h.admitted ++ [o], results := h.results ++ results,
               withdrawn := h.withdrawn } where
  inv := inv
  distinct := by
    have new : o.id ∉ h.admitted.map Order.id := by
      intro mem
      obtain ⟨r, hr, same⟩ := List.mem_map.mp mem
      have := acc.given r hr
      omega
    rw [List.map_append, List.nodup_append]
    refine ⟨acc.distinct, List.nodup_singleton _, ?_⟩
    rintro a ha b hb rfl
    exact new (List.mem_singleton.mp hb ▸ ha)
  given := by
    intro r mem
    have bound : r.id ≤ h.engine.nextOrderId := by
      rcases List.mem_append.mp mem with old | new
      · exact (acc.given r old).le
      · exact (List.mem_singleton.mp new ▸ fresh).le
    exact ids ▸ Nat.lt_succ_of_le bound
  balance := by
    intro id side
    have arrives : tally id side h.engine.withId [o]
        = weigh (countsFor id side) [o] + tally id side h.engine [] := by
      have opened : h.engine.withId.openOrders [o] = o :: h.engine.openOrders [] := rfl
      have emitted : h.engine.withId.emitted = h.engine.emitted := rfl
      have discarded : h.engine.withId.discarded = h.engine.discarded := rfl
      unfold tally
      rw [opened, emitted, discarded, weigh_cons, weigh_cons, weigh_nil]
      abel
    have now := moves.tally id side
    rw [arrives, weigh_nil, add_zero] at now
    rw [weigh_append, acc.balance, ← now]
    abel
  traces := by
    intro t mem
    rw [List.map_append, List.mem_append]
    rcases List.mem_append.mp mem with left | old
    · have before : t ∈ o.terms :: h.engine.traces [] :=
        moves.traces (List.mem_append_left _ left)
      rcases List.mem_cons.mp before with rfl | before
      · exact .inr List.mem_cons_self
      · exact .inl (acc.traces (List.mem_append_left _ before))
    · exact .inl (acc.traces (List.mem_append_right _ old))
  market := moves.market acc.market
  emitted := by
    rw [emitted, acc.emitted, EngineHistory.trades, EngineHistory.trades, List.flatMap_append]
  reported := by
    intro r mem
    rcases List.mem_append.mp mem with old | new
    · exact acc.reported r old
    · exact reported r new

/-- A call that takes an order away on request. -/
theorem withdrew (acc : Accounts h) {gone : List (Order P)}
    (outcome : EngineInvariant e [] ∧ (h.engine.openOrders []).Perm (gone ++ e.openOrders []))
    (ids : e.nextOrderId = h.engine.nextOrderId) (emitted : e.emitted = h.engine.emitted)
    (discarded : e.discarded = h.engine.discarded) :
    Accounts { h with engine := e, withdrawn := h.withdrawn ++ gone } := by
  have moves : Moves h.engine [] e [] gone := .of_perm outcome.2 emitted discarded
  have silent : ∀ r ∈ ([] : List (SubmitResult P)), r.filledQuantity = tradedQuantity r.trades :=
    fun _ mem => by cases mem
  have kept := acc.moved outcome.1 moves ids.ge (emitted.trans (List.append_nil _).symm) silent
  rwa [List.append_nil] at kept

end

variable [Zero P] [Add P] [Sub P] [Mul P] [IntCast P] [LT P] [DecidableLT P] [LE P] [DecidableLE P]
  [OfScientific P] [IsStrictOrder P (· < ·)] {h : EngineHistory P}

theorem submitOrder (acc : Accounts h) (now : Int) (clock : Nat → Int) (request : OrderRequest P) :
    Accounts (h.call (.submitOrder now clock request)) := by
  have shape : h.call (.submitOrder now clock request) =
      { engine := ((MatchingEngine.submitOrder now clock request).exec h.engine).2
        admitted :=
          if ((MatchingEngine.submitOrder now clock request).exec h.engine).1.accepted then
            h.admitted ++ [buildOrder request
              ((MatchingEngine.submitOrder now clock request).exec h.engine).1.orderId now]
          else h.admitted
        results := h.results ++ [((MatchingEngine.submitOrder now clock request).exec h.engine).1]
        withdrawn := h.withdrawn } := rfl
  have same := core_submitOrder now clock request h.engine
  obtain ⟨accepted, id, filled, trades⟩ := result_submitOrder now clock request h.engine
  set out := (MatchingEngine.submitOrder now clock request).exec h.engine
  set order := buildOrder request h.engine.nextOrderId now
  have reported : ∀ r ∈ [out.1], r.filledQuantity = tradedQuantity r.trades := by
    intro r mem
    rw [List.mem_singleton.mp mem]
    exact filled
  rw [shape, id]
  rcases submitted_cases now clock request h.engine with ⟨admits, ready, eq⟩ | ⟨admits, waits, eq⟩ |
    ⟨rejects, eq⟩
  · rw [eq] at same
    rw [if_pos ⟨admits, ready⟩] at trades
    rw [if_pos (accepted.mpr admits)]
    have arrives := acc.inv.admitted now admits
    refine acc.arrived ((arrives.matched clock).of_core same) rfl
      ((Moves.matched arrives clock).of_core same) ?_ ?_ reported
    · rw [nextOrderId_of_core same, matched_nextOrderId]
      rfl
    · rw [emitted_of_core same, EngineInvariant.emitted_matched, List.flatMap_singleton, trades]
      rfl
  · rw [eq] at same
    rw [if_neg fun h => waits h.2] at trades
    rw [if_pos (accepted.mpr admits)]
    have arrives := acc.inv.admitted now admits
    have queued : Moves h.engine.withId [order] (enqueue order h.engine.withId) [] [] :=
      .of_perm arrives.openOrders_enqueue.symm rfl rfl
    refine acc.arrived (arrives.enqueue.of_core same) rfl (queued.of_core same) ?_ ?_ reported
    · rw [nextOrderId_of_core same]
      rfl
    · rw [emitted_of_core same, List.flatMap_singleton, trades, List.append_nil]
      rfl
  · rw [eq] at same
    rw [if_neg fun h => rejects h.1] at trades
    rw [if_neg fun h => rejects (accepted.mp h)]
    have skipped : Moves h.engine [] h.engine.withId [] [] :=
      .of_perm (List.Perm.refl _) rfl rfl
    rw [← List.append_nil h.withdrawn]
    refine acc.moved (acc.inv.skip.of_core same) (skipped.of_core same) ?_ ?_ reported
    · rw [nextOrderId_of_core same]
      exact Nat.le_succ _
    · rw [emitted_of_core same, List.flatMap_singleton, trades, List.append_nil]
      rfl

theorem tryReleaseWaitingOrders (acc : Accounts h) (order : ReleaseOrder P) (now : Int)
    (clock : Nat → Nat → Int) (fullScan : Bool) :
    Accounts (h.call (.tryReleaseWaitingOrders order now clock fullScan)) := by
  have same := core_tryReleaseWaitingOrders order now clock fullScan h.engine
  have scans := acc.inv.scanned order now fullScan
  have moves : Moves h.engine [] (h.engine.released order now clock fullScan) []
      (h.engine.releaseScan order now fullScan).2.expired := by
    have first : Moves h.engine [] (h.engine.scanned order now fullScan)
        (h.engine.releaseScan order now fullScan).2.released
        (h.engine.releaseScan order now fullScan).2.expired :=
      .of_perm ((acc.inv.openOrders_scanned order now fullScan).trans List.perm_append_comm) rfl rfl
    have both := first.trans (Moves.matchedAll clock 0 _ scans)
    rwa [List.append_nil] at both
  have exec := exec_tryReleaseWaitingOrders order now clock fullScan h.engine
  obtain ⟨-, reported, emitted⟩ := result_releaseAll clock 0
    (h.engine.releaseScan order now fullScan).2.released (h.engine.scanned order now fullScan)
  have shape : h.call (.tryReleaseWaitingOrders order now clock fullScan) =
      { engine := ((MatchingEngine.tryReleaseWaitingOrders order now clock fullScan).exec
          h.engine).2
        admitted := h.admitted
        results := h.results ++ ((MatchingEngine.tryReleaseWaitingOrders order now clock
          fullScan).exec h.engine).1.released
        withdrawn := h.withdrawn ++ ((MatchingEngine.tryReleaseWaitingOrders order now clock
          fullScan).exec h.engine).1.expired } := rfl
  rw [shape]
  rw [exec] at same ⊢
  refine acc.moved ((EngineInvariant.matchedAll clock 0 _ scans).of_core same)
    (moves.of_core same) ?_ ?_ reported
  · rw [nextOrderId_of_core same, released, matchedAll_nextOrderId]
    rfl
  · rw [emitted_of_core (core_reportExpired _ _), emitted]
    rfl

/-- **Every call keeps the accounts.** -/
theorem call (acc : Accounts h) : ∀ call : EngineCall P, Accounts (h.call call)
  | .submitOrder now clock request => acc.submitOrder now clock request
  | .tryReleaseWaitingOrders order now clock fullScan =>
      acc.tryReleaseWaitingOrders order now clock fullScan
  | .cancelOrderAt symbol side price orderId => by
      dsimp only [EngineHistory.call]
      rw [exec_cancelOrderAt]
      refine acc.withdrew (acc.inv.cancelOrderAt symbol side price orderId) ?_ ?_ ?_
      all_goals
        unfold cancelledIn
        split <;> rfl
  | .cancelOrder symbol orderId => by
      dsimp only [EngineHistory.call]
      rw [exec_cancelOrder]
      refine acc.withdrew (acc.inv.cancelOrder symbol orderId) ?_ ?_ ?_
      all_goals
        unfold cancelledIn
        split <;> rfl
  | .cancelWaitingOrder orderId =>
      acc.withdrew (acc.inv.cancelledWaiting orderId) rfl rfl rfl

/-- **Every run keeps the accounts.** -/
theorem run : ∀ (calls : List (EngineCall P)) {h : EngineHistory P}, Accounts h →
    Accounts (h.run calls)
  | [], _, acc => acc
  | c :: calls, _, acc => run calls (acc.call c)

end Accounts

/-! ### The accounts of a run -/

/-- Every unit of every order that passed the checks is traded, open in one place,
withdrawn, or the discarded rest of a MARKET order. -/
structure QuantityAccounted (h : EngineHistory P) : Prop where
  balance : ∀ o ∈ h.admitted, o.quantity
    = tradedQuantity (h.trades.filter fun t => t.orderId o.side = o.id)
      + totalQuantity (h.engine.allResting.filter fun r => r.id = o.id)
      + totalQuantity (h.engine.waitingOrders.filter fun r => r.id = o.id)
      + totalQuantity (h.withdrawn.filter fun r => r.id = o.id)
      + if o.kind = .market then totalQuantity (h.engine.discarded.filter fun r => r.id = o.id)
        else 0
  onePlace : ((h.engine.allResting ++ h.engine.waitingOrders).map Order.id).Nodup
  reported : ∀ r ∈ h.results, r.filledQuantity = tradedQuantity r.trades

theorem Accounts.terms_eq [LT P] {h : EngineHistory P} (acc : Accounts h) {o r : Order P}
    (admitted : o ∈ h.admitted) (trace : r.terms ∈ h.admitted.map Order.terms)
    (same : r.id = o.id) : r.terms = o.terms := by
  obtain ⟨a, ha, eq⟩ := List.mem_map.mp trace
  have ids : a.id = o.id := (congrArg Order.id eq).trans same
  rw [← eq, List.inj_on_of_nodup_map acc.distinct ha admitted ids]

theorem Accounts.quantityAccounted [LT P] {h : EngineHistory P} (acc : Accounts h) :
    QuantityAccounted h where
  balance := by
    intro o admitted
    have sided : ∀ (os : List (Order P)), os.map Order.terms ⊆ h.admitted.map Order.terms →
        weigh (countsFor o.id o.side) os = totalQuantity (os.filter fun r => r.id = o.id) := by
      intro os sub
      refine weigh_countsFor fun r mem same => ?_
      have sides : r.terms.side = o.terms.side := by
        rw [acc.terms_eq admitted (sub (List.mem_map_of_mem mem)) same]
      exact sides
    have traces := acc.traces
    rw [MatchingEngine.traces, openOrders, List.nil_append, List.map_append, List.map_append,
      List.append_subset, List.append_subset, List.append_subset] at traces
    obtain ⟨⟨⟨resting, waiting⟩, discarded⟩, withdrawn⟩ := traces
    have whole : weigh (countsFor o.id o.side) h.admitted = o.quantity := by
      rw [sided h.admitted (List.Subset.refl _)]
      obtain ⟨front, back, split⟩ := List.append_of_mem admitted
      have perm : h.admitted.Perm (o :: (front ++ back)) := by
        rw [split]
        exact List.perm_middle
      rw [EngineInvariant.filter_id_eq perm acc.distinct]
      exact add_zero _
    have dropped : weigh (countsFor o.id o.side) h.engine.discarded
        = if o.kind = .market then
            totalQuantity (h.engine.discarded.filter fun r => r.id = o.id) else 0 := by
      rw [sided _ discarded]
      by_cases market : o.kind = .market
      · rw [if_pos market]
      · have none : (h.engine.discarded.filter fun r => r.id = o.id) = [] := by
          refine List.filter_eq_nil_iff.mpr fun r mem => ?_
          rw [decide_eq_true_eq]
          intro same
          have kinds : r.terms.kind = o.terms.kind := by
            rw [acc.terms_eq admitted (discarded (List.mem_map_of_mem mem)) same]
          exact market (kinds.symm.trans (acc.market r mem))
        rw [if_neg market, none]
        rfl
    have balance := acc.balance o.id o.side
    unfold tally openOrders at balance
    rw [whole, List.nil_append, weigh_append, sided _ resting, sided _ waiting, dropped,
      sided _ withdrawn, acc.emitted] at balance
    rw [balance]
    unfold tradedAs
    abel
  onePlace := acc.inv.once
  reported := acc.reported

/-- The history of a set-up engine. -/
def EngineHistory.start [Zero P] (setup : List (SetupCall P)) : EngineHistory P where
  engine := setUp setup

theorem Accounts.start [LT P] [Zero P] (setup : List (SetupCall P)) :
    Accounts (EngineHistory.start setup) := by
  have idle := idle_setUp setup
  constructor
  · exact idle.invariant
  · exact List.nodup_nil
  · intro o mem
    cases mem
  · intro id side
    unfold tally EngineHistory.start
    rw [idle.openOrders, idle.emitted, idle.discarded]
    rfl
  · unfold MatchingEngine.traces EngineHistory.start
    rw [idle.openOrders, idle.discarded]
    exact List.Subset.refl _
  · intro o mem
    have none : o ∈ (setUp setup).discarded := mem
    rw [idle.discarded] at none
    cases none
  · exact idle.emitted
  · intro r mem
    cases mem

/-- **No order quantity is lost or duplicated**, in every run of a set-up engine. -/
theorem quantity_accounted [Zero P] [Add P] [Sub P] [Mul P] [IntCast P] [LT P] [DecidableLT P]
    [LE P] [DecidableLE P] [OfScientific P] [IsStrictOrder P (· < ·)]
    (setup : List (SetupCall P)) (calls : List (EngineCall P)) :
    QuantityAccounted ((EngineHistory.start setup).run calls) :=
  (Accounts.run calls (.start setup)).quantityAccounted

/-- A BUY is filled in part by a resting SELL, its rest is cancelled, and a STOP order
waits. -/
def partialFill : List (EngineCall ℚ) :=
  [.submitOrder 0 (fun _ => 0) (request 2 .sell .limit "AAPL" 5 100),
    .submitOrder 0 (fun _ => 0) (request 1 .buy .limit "AAPL" 8 100),
    .cancelOrder "AAPL" 2,
    .submitOrder 0 (fun _ => 0) (request 2 .sell .stop "AAPL" 4 90)]

theorem quantity_accounted_partialFill :
    QuantityAccounted ((EngineHistory.start buyerAndSeller).run partialFill) ∧
      ((EngineHistory.start buyerAndSeller).run partialFill).trades.map Trade.quantity = [5] ∧
      ((EngineHistory.start buyerAndSeller).run partialFill).withdrawn.map Order.quantity = [3] ∧
      ((EngineHistory.start buyerAndSeller).run partialFill).engine.waitingOrders.map
        Order.quantity = [4] :=
  ⟨quantity_accounted _ _, by decide +kernel, by decide +kernel, by decide +kernel⟩

end StockMarket
