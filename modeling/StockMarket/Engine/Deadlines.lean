import StockMarket.Engine.Cancellation
import StockMarket.Lib.Int64

/-!
Start dates and expiries of orders, with the clock's own arithmetic.

`build_order` adds a number of seconds to a `steady_clock` instant. The engine of this file
takes that addition as a parameter (`submitOrderWith`): `after` is the exact one, `after64` the
one of signed 64-bit nanoseconds. Whatever the addition, an order is not expired by a pass that
runs before the instant in its `expiresAt`, and not matched before the one in its `notBefore`
(`Held.not_expired`, `Held.not_traded`).
-/

namespace StockMarket

open Atomic MatchingEngine

variable {P : Type}

/-- `now + std::chrono::seconds(s)` in signed 64-bit nanoseconds. -/
def after64 (now s : Int) : Int :=
  add64 now (mul64 s 1000000000)

/-- The deadline is the exact one if and only if the exact one fits. -/
theorem after64_eq_iff {now s : Int} : after64 now s = after now s ↔ FitsInt64 (after now s) := by
  rw [after64, mul64, add64_wrap64_right]
  exact wrap64_eq_self_iff

/-! ### The engine with an addition -/

section

variable (plus : Int → Int → Int)

variable [Zero P] [Add P] [Sub P] [Mul P] [IntCast P] [LT P] [DecidableLT P] [LE P] [DecidableLE P]
  [OfScientific P]

/-- The engine after a call. -/
def MatchingEngine.applyWith (e : MatchingEngine P) : EngineCall P → MatchingEngine P
  | .submitOrder now clock request => ((submitOrderWith plus now clock request).exec e).2
  | call => e.apply call

/-- The engine after some calls. -/
def MatchingEngine.runWith (e : MatchingEngine P) (calls : List (EngineCall P)) :
    MatchingEngine P :=
  calls.foldl (MatchingEngine.applyWith plus) e

/-- The orders that a call reports as expired. -/
def expiredBy (e : MatchingEngine P) : EngineCall P → List (Order P)
  | .tryReleaseWaitingOrders order now clock fullScan =>
    ((tryReleaseWaitingOrders order now clock fullScan).exec e).1.expired
  | _ => []

/-- A call that looks at the clock does so before an instant. -/
def EngineCall.Before (t : Int) : EngineCall P → Prop
  | .submitOrder now _ _ => now < t
  | .tryReleaseWaitingOrders _ now _ _ => now < t
  | _ => True

end

section

variable [Zero P] [Add P] [Sub P] [Mul P] [IntCast P] [LT P] [DecidableLT P] [LE P] [DecidableLE P]
  [OfScientific P] {plus : Int → Int → Int} {e : MatchingEngine P}

/-- The outcomes of a submission, up to counters and published events. -/
theorem submitOrderWith_cases (plus : Int → Int → Int) (now : Int) (clock : Nat → Int)
    (request : OrderRequest P) (e : MatchingEngine P) :
    let order := buildOrderWith plus request e.nextOrderId now
    let e' := ((submitOrderWith plus now clock request).exec e).2
    (e.Admits request ∧ e.Ready now order ∧ e'.core = (matched clock order e.withId).core) ∨
      (e.Admits request ∧ e'.core = (enqueue order e.withId).core) ∨
      e'.core = e.withId.core := by
  intro order e'
  have outcome : e' = _ := congrArg Prod.snd (exec_submitOrderWith plus now clock request e)
  dsimp only at outcome
  cases valid : e.invalidReason request with
  | some reason =>
      rw [valid] at outcome
      exact .inr (.inr (outcome ▸ rfl))
  | none =>
      rw [valid] at outcome
      dsimp only at outcome
      by_cases passes : e.passesRiskCheck request.client request.side request.kind request.symbol
          request.quantity request.price = true
      · rw [if_neg (not_not.mpr passes)] at outcome
        by_cases ready : e.Ready now order
        · rw [if_pos ready] at outcome
          refine .inl ⟨⟨valid, passes⟩, ready, ?_⟩
          rw [outcome, core_matchAndSettle, core_matched]
          rfl
        · rw [if_neg ready] at outcome
          exact .inr (.inl ⟨⟨valid, passes⟩, outcome ▸ rfl⟩)
      · rw [if_pos passes] at outcome
        exact .inr (.inr (outcome ▸ rfl))

/-! ### What a call touches -/

/-- From one engine to the other the trades name orders with the given ids or orders that
rested before, and so do the resting orders. -/
structure Touches (e e' : MatchingEngine P) (ids : List Nat) : Prop where
  names : ∃ ts, e'.emitted = e.emitted ++ ts ∧ ∀ t ∈ ts, ∀ side,
    t.orderId side ∈ ids ∨ ∃ r ∈ e.allResting, t.orderId side = r.id
  rests : ∀ r ∈ e'.allResting, r.id ∈ ids ∨ ∃ r' ∈ e.allResting, r.id = r'.id

namespace Touches

section

omit [Zero P] [Add P] [Sub P] [Mul P] [IntCast P] [LT P] [DecidableLT P] [LE P] [DecidableLE P]
  [OfScientific P]

variable {e' e'' : MatchingEngine P} {ids ids' : List Nat}

/-- No trade, and no new order in a book. -/
theorem of_subset (emitted : e'.emitted = e.emitted) (rests : e'.allResting ⊆ e.allResting) :
    Touches e e' ids where
  names := ⟨[], emitted.trans (List.append_nil _).symm, fun _ mem => nomatch mem⟩
  rests := fun r mem => .inr ⟨r, rests mem, rfl⟩

theorem trans (first : Touches e e' ids) (second : Touches e' e'' ids') :
    Touches e e'' (ids ++ ids') where
  names := by
    obtain ⟨ts, emitted, names⟩ := first.names
    obtain ⟨ts', emitted', names'⟩ := second.names
    refine ⟨ts ++ ts', by rw [emitted', emitted, List.append_assoc], fun t mem side => ?_⟩
    rcases List.mem_append.mp mem with old | new
    · exact (names t old side).imp_left fun mem => List.mem_append_left _ mem
    · rcases names' t new side with own | ⟨r, hr, eq⟩
      · exact .inl (List.mem_append_right _ own)
      · rw [eq]
        exact (first.rests r hr).imp_left fun mem => List.mem_append_left _ mem
  rests := by
    intro r mem
    rcases second.rests r mem with own | ⟨r', hr', eq⟩
    · exact .inl (List.mem_append_right _ own)
    · rw [eq]
      exact (first.rests r' hr').imp_left fun mem => List.mem_append_left _ mem

/-- Counters and published events do not matter. -/
theorem of_core (touches : Touches e e' ids) (same : e''.core = e'.core) : Touches e e'' ids where
  names := by
    rw [emitted_of_core same]
    exact touches.names
  rests := by
    unfold allResting
    rw [books_of_core same]
    exact touches.rests

end

variable [IsStrictOrder P (· < ·)]

omit [LE P] [DecidableLE P] [OfScientific P] [IsStrictOrder P (· < ·)] in
/-- A match touches its order and the book. -/
theorem matched {pending : List (Order P)} {o : Order P} (inv : EngineInvariant e pending)
    (clock : Nat → Int) : Touches e (matched clock o e) [o.id] where
  names := by
    refine ⟨_, EngineInvariant.emitted_matched clock o e, fun t mem side => ?_⟩
    exact (inv.trade_names mem side).imp_left List.mem_singleton.mpr
  rests := by
    intro r mem
    obtain ⟨s, mem⟩ := mem_allResting.mp mem
    rw [bookFor_matched] at mem
    by_cases here : s = o.symbol
    · subst here
      rw [bookFor_withBook] at mem
      obtain ⟨side, mem⟩ := mem_restingOrders.mp mem
      rcases mem_restingIn_matchOrder mem with ⟨-, -, q, -, rfl⟩ | ⟨r', hr', q, -, rfl⟩
      · exact .inl (List.mem_singleton_self _)
      · exact .inr ⟨r', mem_allResting.mpr ⟨_, mem_restingOrders.mpr ⟨side, hr'⟩⟩, rfl⟩
    · rw [bookFor_withBook_ne _ _ _ here] at mem
      exact .inr ⟨r, mem_allResting.mpr ⟨s, mem⟩, rfl⟩

omit [LE P] [DecidableLE P] [OfScientific P] in
theorem matchedAll (clock : Nat → Nat → Int) : ∀ (n : Nat) (orders : List (Order P))
    {e : MatchingEngine P}, EngineInvariant e orders →
      Touches e (matchedAll clock n orders e) (orders.map Order.id)
  | _, [], _, _ => of_subset rfl (List.Subset.refl _)
  | n, _ :: orders, _, inv =>
      (matched inv (clock n)).trans (matchedAll clock (n + 1) orders (inv.matched (clock n)))

omit [Zero P] [Add P] [Sub P] [Mul P] [IntCast P] [LT P] [DecidableLT P] [LE P] [DecidableLE P]
  [OfScientific P] [IsStrictOrder P (· < ·)] in
/-- A cancellation touches nothing. -/
theorem cancelledIn {symbol : Symbol} {id : Nat} {f : OrderBook P → Bool × OrderBook P}
    (one : CancelsOne id (e.bookFor symbol) (f (e.bookFor symbol))) :
    Touches e (e.cancelledIn symbol f).2 [] := by
  unfold MatchingEngine.cancelledIn
  split
  · refine of_subset rfl fun r mem => ?_
    obtain ⟨s, mem⟩ := mem_allResting.mp mem
    change r ∈ ((e.withBook symbol (f (e.bookFor symbol)).2).bookFor s).restingOrders at mem
    by_cases here : s = symbol
    · subst here
      refine mem_allResting.mpr ⟨s, ?_⟩
      rw [bookFor_withBook] at mem
      rcases one with missed | ⟨t, ls', removed, found⟩
      · rwa [missed] at mem
      · rw [found] at mem
        obtain ⟨side, mem⟩ := mem_restingOrders.mp mem
        exact mem_restingOrders.mpr ⟨side, removed.subset side mem⟩
    · rw [bookFor_withBook_ne _ _ _ here] at mem
      exact mem_allResting.mpr ⟨s, mem⟩
  · exact of_subset rfl (List.Subset.refl _)

end Touches

/-! ### Calls -/

/-- The ids of the orders that a call matches. -/
def matchedIds (plus : Int → Int → Int) (e : MatchingEngine P) : EngineCall P → List Nat
  | .submitOrder now _ request =>
    if e.Ready now (buildOrderWith plus request e.nextOrderId now) then [e.nextOrderId] else []
  | .tryReleaseWaitingOrders order now _ fullScan =>
    (e.releaseScan order now fullScan).2.released.map Order.id
  | _ => []

section

variable [IsStrictOrder P (· < ·)]

/-- What a submission leads to: a state that the invariant holds of, with the new order waiting,
or matched if it is ready. -/
structure Submitted (plus : Int → Int → Int) (now : Int) (request : OrderRequest P)
    (e e' : MatchingEngine P) : Prop where
  invariant : EngineInvariant e' []
  next : e'.nextOrderId = e.nextOrderId + 1
  touches : Touches e e'
    (if e.Ready now (buildOrderWith plus request e.nextOrderId now) then [e.nextOrderId] else [])
  waits : ∀ w ∈ e'.waitingOrders,
    w ∈ e.waitingOrders ∨ w = buildOrderWith plus request e.nextOrderId now

theorem submitted_submitOrderWith (plus : Int → Int → Int) (inv : EngineInvariant e [])
    (now : Int) (clock : Nat → Int) (request : OrderRequest P) :
    Submitted plus now request e ((submitOrderWith plus now clock request).exec e).2 := by
  have pending : e.Admits request →
      EngineInvariant e.withId [buildOrderWith plus request e.nextOrderId now] := by
    intro admits
    obtain ⟨pos, -, known⟩ := EngineInvariant.valid_of_admits admits
    exact inv.arrive rfl pos known
  have unchanged : ∀ ids, Touches e e.withId ids := fun _ => .of_subset rfl (List.Subset.refl _)
  rcases submitOrderWith_cases plus now clock request e with ⟨admits, ready, same⟩ |
    ⟨admits, same⟩ | same
  · refine ⟨((pending admits).matched clock).of_core same, ?_, ?_, fun w mem => .inl ?_⟩
    · rw [nextOrderId_of_core same, matched_nextOrderId]
      rfl
    · rw [if_pos ready]
      exact ((unchanged []).trans (.matched (pending admits) clock)).of_core same
    · rw [waitingOrders, registry_of_core same] at mem
      exact waitingOrders_matched clock _ e.withId ▸ mem
  · refine ⟨(pending admits).enqueue.of_core same, nextOrderId_of_core same, ?_, fun w mem => ?_⟩
    · have queued : ∀ ids, Touches e (enqueue (buildOrderWith plus request e.nextOrderId now)
          e.withId) ids := fun _ => .of_subset rfl (List.Subset.refl _)
      exact (queued _).of_core same
    · rw [waitingOrders, registry_of_core same] at mem
      rcases List.mem_cons.mp ((pending admits).waitingOrders_enqueue.mem_iff.mp mem) with rfl | old
      · exact .inr rfl
      · exact .inl old
  · refine ⟨inv.skip.of_core same, nextOrderId_of_core same, ?_, fun w mem => .inl ?_⟩
    · exact (unchanged _).of_core same
    · rw [waitingOrders, registry_of_core same] at mem
      exact mem

theorem EngineInvariant.applyWith (plus : Int → Int → Int) (inv : EngineInvariant e [])
    (call : EngineCall P) : EngineInvariant (e.applyWith plus call) [] := by
  cases call with
  | submitOrder now clock request =>
      exact (submitted_submitOrderWith plus inv now clock request).invariant
  | _ => exact inv.apply _

theorem EngineInvariant.runWith (plus : Int → Int → Int) (calls : List (EngineCall P)) :
    ∀ {e : MatchingEngine P}, EngineInvariant e [] → EngineInvariant (e.runWith plus calls) [] := by
  induction calls with
  | nil => exact fun inv => inv
  | cons call calls ih => exact fun inv => ih (inv.applyWith plus call)

theorem Touches.applyWith (inv : EngineInvariant e []) (call : EngineCall P) :
    Touches e (e.applyWith plus call) (matchedIds plus e call) := by
  cases call with
  | submitOrder now clock request =>
      exact (submitted_submitOrderWith plus inv now clock request).touches
  | tryReleaseWaitingOrders order now clock fullScan =>
      refine Touches.of_core ?_ (core_apply e _)
      have scanned : Touches e (e.scanned order now fullScan) [] :=
        .of_subset rfl (List.Subset.refl _)
      exact scanned.trans (.matchedAll clock 0 _ (inv.scanned order now fullScan))
  | cancelOrderAt symbol side price orderId =>
      exact Touches.of_core (.cancelledIn (cancelAtPrice_one _ side price orderId)) (core_apply e _)
  | cancelOrder symbol orderId =>
      exact Touches.of_core (.cancelledIn (cancel_one (inv.book symbol) orderId)) (core_apply e _)
  | cancelWaitingOrder orderId =>
      have kept : Touches e (EngineCall.effect (.cancelWaitingOrder orderId) e) [] :=
        .of_subset rfl (List.Subset.refl _)
      exact kept.of_core (core_apply e _)

omit [LE P] [DecidableLE P] [OfScientific P] [IsStrictOrder P (· < ·)] in
theorem registry_matchedAll (clock : Nat → Nat → Int) : ∀ (n : Nat) (orders : List (Order P))
    (e : MatchingEngine P), (matchedAll clock n orders e).registry = e.registry
  | _, [], _ => rfl
  | n, order :: orders, e => by
      rw [matchedAll, registry_matchedAll clock (n + 1) orders, matched, settleAll_registry]
      rfl

omit [Zero P] [Add P] [Sub P] [Mul P] [IntCast P] [LT P] [DecidableLT P] [LE P] [DecidableLE P]
  [OfScientific P] [IsStrictOrder P (· < ·)] in
theorem registry_cancelledIn (symbol : Symbol) (f : OrderBook P → Bool × OrderBook P)
    (e : MatchingEngine P) : (e.cancelledIn symbol f).2.registry = e.registry := by
  unfold MatchingEngine.cancelledIn
  split <;> rfl

/-- What waits after a call waited before, or is the new order. -/
theorem mem_waiting_applyWith (inv : EngineInvariant e []) {call : EngineCall P} {w : Order P}
    (mem : w ∈ (e.applyWith plus call).waitingOrders) :
    w ∈ e.waitingOrders ∨ w.id = e.nextOrderId := by
  have old : ∀ c : EngineCall P, w ∈ (e.apply c).waitingOrders →
      w ∈ (c.effect e).registry.allWaiting := fun c waits =>
        registry_of_core (core_apply e c) ▸ waits
  cases call with
  | submitOrder now clock request =>
      refine ((submitted_submitOrderWith plus inv now clock request).waits w mem).imp_right ?_
      rintro rfl
      rfl
  | tryReleaseWaitingOrders order now clock fullScan =>
      have waits := old _ mem
      rw [EngineCall.effect, released, registry_matchedAll] at waits
      exact .inl ((inv.releaseScan_exact order now fullScan).split.mem_iff.mpr
        (List.mem_append_left _ waits))
  | cancelOrderAt symbol side price orderId =>
      have waits := old _ mem
      rw [EngineCall.effect, registry_cancelledIn] at waits
      exact .inl waits
  | cancelOrder symbol orderId =>
      have waits := old _ mem
      rw [EngineCall.effect, registry_cancelledIn] at waits
      exact .inl waits
  | cancelWaitingOrder orderId => exact .inl (inv.registry.cancel_subset orderId (old _ mem))

theorem nextOrderId_applyWith (inv : EngineInvariant e []) (call : EngineCall P) :
    e.nextOrderId ≤ (e.applyWith plus call).nextOrderId := by
  have same : ∀ c : EngineCall P, (c.effect e).nextOrderId = e.nextOrderId →
      e.nextOrderId ≤ (e.apply c).nextOrderId :=
    fun c unchanged => (unchanged.symm.trans (nextOrderId_of_core (core_apply e c)).symm).le
  cases call with
  | submitOrder now clock request =>
      have next := (submitted_submitOrderWith plus inv now clock request).next
      exact (Nat.le_succ _).trans next.symm.le
  | tryReleaseWaitingOrders order now clock fullScan =>
      refine same _ ?_
      rw [EngineCall.effect, released, matchedAll_nextOrderId]
      rfl
  | cancelOrderAt symbol side price orderId =>
      refine same _ ?_
      unfold EngineCall.effect MatchingEngine.cancelledIn
      dsimp only
      split <;> rfl
  | cancelOrder symbol orderId =>
      refine same _ ?_
      unfold EngineCall.effect MatchingEngine.cancelledIn
      dsimp only
      split <;> rfl
  | cancelWaitingOrder orderId => exact same _ rfl

/-! ### An order before its deadline -/

/-- The order was given its id, and only it may wait under that id. -/
structure Held (o : Order P) (e : MatchingEngine P) : Prop where
  invariant : EngineInvariant e []
  given : o.id < e.nextOrderId
  waits : ∀ w ∈ e.waitingOrders, w.id = o.id → w = o

namespace Held

variable {o : Order P}

theorem applyWith (held : Held o e) (call : EngineCall P) : Held o (e.applyWith plus call) where
  invariant := held.invariant.applyWith plus call
  given := lt_of_lt_of_le held.given (nextOrderId_applyWith held.invariant call)
  waits := by
    intro w mem same
    rcases mem_waiting_applyWith held.invariant mem with old | fresh
    · exact held.waits w old same
    · exact absurd (same.symm.trans fresh) (ne_of_lt held.given)

theorem runWith (calls : List (EngineCall P)) : ∀ {e : MatchingEngine P}, Held o e →
    Held o (e.runWith plus calls) := by
  induction calls with
  | nil => exact fun held => held
  | cons call calls ih => exact fun held => ih (held.applyWith call)

omit [OfScientific P] [IsStrictOrder P (· < ·)] in
/-- **No pass before its expiry expires the order.** -/
theorem not_expired (held : Held o e) {t : Int} (expires : o.expiresAt = some t)
    {call : EngineCall P} (before : call.Before t) : ∀ r ∈ expiredBy e call, r.id ≠ o.id := by
  intro r mem same
  cases call with
  | tryReleaseWaitingOrders order now clock fullScan =>
      rw [expiredBy, exec_tryReleaseWaitingOrders] at mem
      have exact' := held.invariant.releaseScan_exact order now fullScan
      obtain ⟨waited, test⟩ := List.mem_filter.mp (exact'.expired.mem_iff.mp mem)
      obtain rfl := held.waits r waited same
      have passed : r.isExpired now := (of_decide_eq_true test).2
      rw [Order.isExpired, expires] at passed
      exact absurd passed (not_le.mpr before)
  | _ => cases mem

omit [Add P] [Sub P] [Mul P] [IntCast P] [DecidableLT P] [OfScientific P]
  [IsStrictOrder P (· < ·)] in
/-- **No call before its start matches the order.** -/
theorem not_matched (held : Held o e) {t : Int} (starts : o.notBefore = some t)
    {call : EngineCall P} (before : call.Before t) : o.id ∉ matchedIds plus e call := by
  intro mem
  cases call with
  | submitOrder now clock request =>
      rw [matchedIds] at mem
      split at mem
      · exact absurd (List.mem_singleton.mp mem) (ne_of_lt held.given)
      · cases mem
  | tryReleaseWaitingOrders order now clock fullScan =>
      obtain ⟨r, hr, same⟩ := List.mem_map.mp mem
      have exact' := held.invariant.releaseScan_exact order now fullScan
      obtain ⟨waited, test⟩ := List.mem_filter.mp (exact'.released.mem_iff.mp hr)
      obtain rfl := held.waits r waited same
      have started : r.isStarted now := (of_decide_eq_true test).2.2.1
      rw [Order.isStarted, starts] at started
      exact absurd started (not_le.mpr before)
  | _ => cases mem

end Held

/-- The order is held, it does not rest, and the trades since an engine do not name it. -/
structure Untraded (o : Order P) (start e : MatchingEngine P) : Prop where
  held : Held o e
  rests : ∀ r ∈ e.allResting, r.id ≠ o.id
  trades : ∃ ts, e.emitted = start.emitted ++ ts ∧ ∀ t ∈ ts, ∀ side, t.orderId side ≠ o.id

namespace Untraded

variable {o : Order P} {start : MatchingEngine P}

theorem applyWith (untraded : Untraded o start e) {t : Int} (starts : o.notBefore = some t)
    {call : EngineCall P} (before : call.Before t) :
    Untraded o start (e.applyWith plus call) := by
  have touches : Touches e (e.applyWith plus call) (matchedIds plus e call) :=
    .applyWith untraded.held.invariant call
  have absent : o.id ∉ matchedIds plus e call := untraded.held.not_matched starts before
  refine ⟨untraded.held.applyWith call, fun r mem same => ?_, ?_⟩
  · rcases touches.rests r mem with own | ⟨r', hr', eq⟩
    · exact absent (same ▸ own)
    · exact untraded.rests r' hr' (eq.symm.trans same)
  · obtain ⟨ts, emitted, unnamed⟩ := untraded.trades
    obtain ⟨ts', emitted', names⟩ := touches.names
    refine ⟨ts ++ ts', by rw [emitted', emitted, List.append_assoc], fun t mem side same => ?_⟩
    rcases List.mem_append.mp mem with old | new
    · exact unnamed t old side same
    · rcases names t new side with own | ⟨r, hr, eq⟩
      · exact absent (same ▸ own)
      · exact untraded.rests r hr (eq.symm.trans same)

theorem runWith {t : Int} (starts : o.notBefore = some t) (calls : List (EngineCall P)) :
    ∀ {e : MatchingEngine P}, Untraded o start e → (∀ call ∈ calls, call.Before t) →
      Untraded o start (e.runWith plus calls) := by
  induction calls with
  | nil => exact fun untraded _ => untraded
  | cons call calls ih =>
      intro e untraded before
      obtain ⟨first, later⟩ := List.forall_mem_cons.mp before
      exact ih (untraded.applyWith starts first) later

end Untraded

/-! ### Deadlines of requests -/

/-- An order that was just submitted, whatever became of it. -/
theorem held_submitOrderWith (plus : Int → Int → Int) (inv : EngineInvariant e []) (now : Int)
    (clock : Nat → Int) (request : OrderRequest P) :
    Held (buildOrderWith plus request e.nextOrderId now)
      (e.applyWith plus (.submitOrder now clock request)) := by
  have submitted := submitted_submitOrderWith plus inv now clock request
  refine ⟨submitted.invariant, submitted.next.symm ▸ Nat.lt_succ_self _, fun w mem same => ?_⟩
  rcases submitted.waits w mem with old | rfl
  · -- nothing that waited has the new id
    have given := inv.given w.id (List.mem_map_of_mem (List.mem_append_right _
      (List.mem_append_right _ old)))
    exact absurd same (ne_of_lt given)
  · rfl

/-- An order that is submitted before its start. -/
theorem untraded_submitOrderWith (plus : Int → Int → Int) (inv : EngineInvariant e [])
    {now t : Int} (clock : Nat → Int) {request : OrderRequest P}
    (starts : (buildOrderWith plus request e.nextOrderId now).notBefore = some t)
    (before : now < t) :
    Untraded (buildOrderWith plus request e.nextOrderId now) e
      (e.applyWith plus (.submitOrder now clock request)) := by
  have held := held_submitOrderWith plus inv now clock request
  have touches := (submitted_submitOrderWith plus inv now clock request).touches
  have waits : ¬e.Ready now (buildOrderWith plus request e.nextOrderId now) := by
    intro ready
    have started := ready.1
    rw [Order.isStarted, starts] at started
    exact absurd started (not_le.mpr before)
  rw [if_neg waits] at touches
  have given : ∀ r ∈ e.allResting, r.id ≠ e.nextOrderId := fun r mem =>
    ne_of_lt (inv.given r.id (List.mem_map_of_mem (List.mem_append_right _
      (List.mem_append_left _ mem))))
  refine ⟨held, fun r mem same => ?_, ?_⟩
  · rcases touches.rests r mem with own | ⟨r', hr', eq⟩
    · cases own
    · exact given r' hr' (eq.symm.trans same)
  · obtain ⟨ts, emitted, names⟩ := touches.names
    refine ⟨ts, emitted, fun t mem side same => ?_⟩
    rcases names t mem side with own | ⟨r, hr, eq⟩
    · cases own
    · exact given r hr (eq.symm.trans same)

end

end

/-- What a client is promised of a number of seconds, at the time of its submission: the instant
fits, no pass before it expires an order that expires then, and no call before it matches an
order that starts then. -/
structure DeadlinesHold (P : Type) [Zero P] [Add P] [Sub P] [Mul P] [IntCast P] [LT P]
    [DecidableLT P] [LE P] [DecidableLE P] [OfScientific P] (now s : Int) : Prop where
  fits : FitsInt64 (after now s)
  expiry : ∀ (setup : List (SetupCall P)) (earlier : List (EngineCall P)) (clock : Nat → Int)
    (request : OrderRequest P) (later : List (EngineCall P)) (call : EngineCall P),
    request.expiresIn = some s → call.Before (after now s) →
    let e := (setUp setup).runWith after64 earlier
    ∀ o ∈ expiredBy (e.runWith after64 (.submitOrder now clock request :: later)) call,
      o.id ≠ e.nextOrderId
  start : ∀ (setup : List (SetupCall P)) (earlier : List (EngineCall P)) (clock : Nat → Int)
    (request : OrderRequest P) (later : List (EngineCall P)), request.notBeforeIn = some s →
    (∀ call ∈ EngineCall.submitOrder now clock request :: later, call.Before (after now s)) →
    let e := (setUp setup).runWith after64 earlier
    ∃ ts, (e.runWith after64 (.submitOrder now clock request :: later)).emitted = e.emitted ++ ts ∧
      ∀ t ∈ ts, ∀ side, t.orderId side ≠ e.nextOrderId

theorem fitsInt64_after_iff {now s : Int} : FitsInt64 (after now s) ↔
    -((2 ^ 63 + now) / 1000000000) ≤ s ∧ s ≤ (2 ^ 63 - 1 - now) / 1000000000 := by
  unfold FitsInt64 after
  omega

section

variable [Zero P] [Add P] [Sub P] [Mul P] [IntCast P] [LT P] [DecidableLT P] [LE P] [DecidableLE P]
  [OfScientific P] [IsStrictOrder P (· < ·)]

/-- **The promise is kept exactly for numbers of seconds within range.** -/
theorem deadlinesHold_iff_bounds (now s : Int) : DeadlinesHold P now s ↔
    -((2 ^ 63 + now) / 1000000000) ≤ s ∧ s ≤ (2 ^ 63 - 1 - now) / 1000000000 := by
  rw [← fitsInt64_after_iff]
  refine ⟨DeadlinesHold.fits, fun fits => ⟨fits, ?_, ?_⟩⟩
  · intro setup earlier clock request later call asked before e
    have inv : EngineInvariant e [] := (idle_setUp setup).invariant.runWith after64 earlier
    have held : Held (buildOrderWith after64 request e.nextOrderId now)
        (e.runWith after64 (.submitOrder now clock request :: later)) :=
      (held_submitOrderWith after64 inv now clock request).runWith later
    have expires : (buildOrderWith after64 request e.nextOrderId now).expiresAt
        = some (after now s) := by
      rw [← after64_eq_iff.mpr fits]
      exact congrArg (Option.map (after64 now)) asked
    exact held.not_expired expires before
  · intro setup earlier clock request later asked before e
    have inv : EngineInvariant e [] := (idle_setUp setup).invariant.runWith after64 earlier
    obtain ⟨first, rest⟩ := List.forall_mem_cons.mp before
    have starts : (buildOrderWith after64 request e.nextOrderId now).notBefore
        = some (after now s) := by
      rw [← after64_eq_iff.mpr fits]
      exact congrArg (Option.map (after64 now)) asked
    have untraded := untraded_submitOrderWith after64 inv clock starts first
    exact (untraded.runWith starts later rest).trades

end

end StockMarket
