import StockMarket.MatchingEngine
import StockMarket.Registry.Scan

/-!
The methods of the engine when they run alone.

`exec` of each method has a closed form. It is stated up to counters and
published events (`core`), which no method reads: `core_submitOrder` has the three
outcomes of a submission, `core_tryReleaseWaitingOrders` says that a release pass
is a scan of the registry followed by one match for each released order.
-/

namespace StockMarket

open Atomic

variable {P : Type}

namespace MatchingEngine

/-- The engine without counters and published events. -/
def core (e : MatchingEngine P) : MatchingEngine P :=
  { e with metrics := {}, published := [] }

@[simp] theorem core_count (f : Metrics → Metrics) (e : MatchingEngine P) :
    (count f e).core = e.core := rfl

@[simp] theorem core_publish (event : Event P) (e : MatchingEngine P) :
    (publish event e).core = e.core := rfl

section

variable {e e' : MatchingEngine P}

theorem emitted_of_core (same : e'.core = e.core) : e'.emitted = e.emitted := by
  have cores : e'.core.emitted = e.core.emitted := by rw [same]
  exact cores

theorem books_of_core (same : e'.core = e.core) : e'.books = e.books := by
  have cores : e'.core.books = e.core.books := by rw [same]
  exact cores

theorem registry_of_core (same : e'.core = e.core) : e'.registry = e.registry := by
  have cores : e'.core.registry = e.core.registry := by rw [same]
  exact cores

theorem nextOrderId_of_core (same : e'.core = e.core) : e'.nextOrderId = e.nextOrderId := by
  have cores : e'.core.nextOrderId = e.core.nextOrderId := by rw [same]
  exact cores

end

section

variable [Zero P] [Add P] [Sub P] [Mul P] [IntCast P]

/-- Settle a trade, note its price and mark its symbol. -/
def settleTrade (e : MatchingEngine P) (t : Trade P) : MatchingEngine P :=
  markDirty t.symbol (setLastPrice t.symbol t.price (settle t e))

/-- The same for some trades, one after the other. -/
def settleAll (trades : List (Trade P)) (e : MatchingEngine P) : MatchingEngine P :=
  trades.foldl settleTrade e

theorem settleAll_cons (t : Trade P) (ts : List (Trade P)) (e : MatchingEngine P) :
    settleAll (t :: ts) e = settleAll ts (settleTrade e t) := rfl

theorem core_settleAll : ∀ (ts : List (Trade P)) (e : MatchingEngine P),
    (settleAll ts e).core = settleAll ts e.core
  | [], _ => rfl
  | t :: ts, e => core_settleAll ts (settleTrade e t)

section

variable {ts : List (Trade P)} {e : MatchingEngine P}

@[simp] theorem settleAll_books : (settleAll ts e).books = e.books := by
  induction ts generalizing e with
  | nil => rfl
  | cons t ts ih => exact ih

@[simp] theorem settleAll_registry : (settleAll ts e).registry = e.registry := by
  induction ts generalizing e with
  | nil => rfl
  | cons t ts ih => exact ih

@[simp] theorem settleAll_nextOrderId : (settleAll ts e).nextOrderId = e.nextOrderId := by
  induction ts generalizing e with
  | nil => rfl
  | cons t ts ih => exact ih

@[simp] theorem settleAll_emitted : (settleAll ts e).emitted = e.emitted := by
  induction ts generalizing e with
  | nil => rfl
  | cons t ts ih => exact ih

@[simp] theorem settleAll_discarded : (settleAll ts e).discarded = e.discarded := by
  induction ts generalizing e with
  | nil => rfl
  | cons t ts ih => exact ih

end

variable [LT P] [DecidableLT P]

/-- What `match_and_settle` does to the engine. -/
def matched (clock : Nat → Int) (order : Order P) (e : MatchingEngine P) : MatchingEngine P :=
  settleAll (matchBook clock order e).1 (matchBook clock order e).2

/-- What it does for some orders, one after the other. -/
def matchedAll (clock : Nat → Nat → Int) :
    Nat → List (Order P) → MatchingEngine P → MatchingEngine P
  | _, [], e => e
  | n, order :: orders, e => matchedAll clock (n + 1) orders (matched (clock n) order e)

@[simp] theorem matched_nextOrderId (clock : Nat → Int) (order : Order P) (e : MatchingEngine P) :
    (matched clock order e).nextOrderId = e.nextOrderId := by
  rw [matched, settleAll_nextOrderId]
  rfl

@[simp] theorem matchedAll_nextOrderId (clock : Nat → Nat → Int) : ∀ (n : Nat)
    (orders : List (Order P)) (e : MatchingEngine P),
    (matchedAll clock n orders e).nextOrderId = e.nextOrderId
  | _, [], _ => rfl
  | n, order :: orders, e => by
      rw [matchedAll, matchedAll_nextOrderId clock (n + 1) orders, matched_nextOrderId]

omit [Zero P] [Add P] [Sub P] [Mul P] [IntCast P] in
theorem core_matchBook (clock : Nat → Int) (order : Order P) (e : MatchingEngine P) :
    matchBook clock order e.core
      = ((matchBook clock order e).1, (matchBook clock order e).2.core) := rfl

theorem core_matched (clock : Nat → Int) (order : Order P) (e : MatchingEngine P) :
    (matched clock order e).core = matched clock order e.core := by
  rw [matched, core_settleAll, matched, core_matchBook]

theorem core_matchedAll (clock : Nat → Nat → Int) : ∀ (n : Nat) (orders : List (Order P))
    (e : MatchingEngine P), (matchedAll clock n orders e).core = matchedAll clock n orders e.core
  | _, [], _ => rfl
  | n, order :: orders, e => by
      rw [matchedAll, core_matchedAll clock (n + 1) orders, core_matched, matchedAll]

/-! ### Closed forms -/

omit [LT P] [DecidableLT P] in
theorem core_settleTrades : ∀ (ts : List (Trade P)) (e : MatchingEngine P),
    ((settleTrades ts).exec e).2.core = settleAll ts e.core
  | [], _ => rfl
  | t :: ts, e => core_settleTrades ts (publish (.trade t) (settleTrade e t))

theorem core_matchAndSettle (clock : Nat → Int) (order : Order P) (e : MatchingEngine P) :
    ((matchAndSettle clock order).exec e).2.core = matched clock order e.core := by
  simp only [matchAndSettle, Prog.exec_bind, Prog.exec_step, Prog.exec_modify, Prog.exec_pure,
    core_count, core_settleTrades, core_publish]
  rw [matched, core_matchBook]

theorem result_matchAndSettle (clock : Nat → Int) (order : Order P) (e : MatchingEngine P) :
    ((matchAndSettle clock order).exec e).1 =
      { accepted := true
        orderId := order.id
        filledQuantity := tradedQuantity (matchBook clock order e).1
        trades := (matchBook clock order e).1 } := by
  simp only [matchAndSettle, Prog.exec_bind, Prog.exec_step, Prog.exec_modify, Prog.exec_pure]

theorem core_releaseAll (clock : Nat → Nat → Int) : ∀ (n : Nat) (orders : List (Order P))
    (e : MatchingEngine P),
    ((releaseAll clock n orders).exec e).2.core = matchedAll clock n orders e.core
  | _, [], _ => rfl
  | n, order :: orders, e => by
      simp only [releaseAll, Prog.exec_bind, Prog.exec_pure]
      rw [core_releaseAll clock (n + 1) orders, core_matchAndSettle, matchedAll]

theorem emitted_matchAndSettle (clock : Nat → Int) (order : Order P) (e : MatchingEngine P) :
    ((matchAndSettle clock order).exec e).2.emitted = e.emitted ++ (matchBook clock order e).1 := by
  have after := congrArg MatchingEngine.emitted (core_matchAndSettle clock order e)
  rw [matched, settleAll_emitted] at after
  exact after

/-- The results of a release pass name the released orders, and each reports the
quantity that it traded. Their trades are those that the books emitted. -/
theorem result_releaseAll (clock : Nat → Nat → Int) : ∀ (n : Nat) (orders : List (Order P))
    (e : MatchingEngine P),
    ((releaseAll clock n orders).exec e).1.map SubmitResult.orderId = orders.map Order.id ∧
      (∀ r ∈ ((releaseAll clock n orders).exec e).1, r.filledQuantity = tradedQuantity r.trades) ∧
      ((releaseAll clock n orders).exec e).2.emitted
        = e.emitted ++ ((releaseAll clock n orders).exec e).1.flatMap SubmitResult.trades
  | _, [], e => ⟨rfl, by simp [releaseAll], by simp [releaseAll]⟩
  | n, order :: orders, e => by
      obtain ⟨ids, filled, emitted⟩ := result_releaseAll clock (n + 1) orders
        ((matchAndSettle (clock n) order).exec e).2
      simp only [releaseAll, Prog.exec_bind, Prog.exec_pure]
      refine ⟨?_, ?_, ?_⟩
      · rw [List.map_cons, List.map_cons, ids, result_matchAndSettle]
      · intro r mem
        rcases List.mem_cons.mp mem with rfl | mem
        · rw [result_matchAndSettle]
        · exact filled r mem
      · rw [emitted, emitted_matchAndSettle, List.flatMap_cons, result_matchAndSettle,
          List.append_assoc]

variable [LE P] [DecidableLE P]

omit [Zero P] [Add P] [Sub P] [Mul P] [IntCast P] [LT P] [DecidableLT P] [LE P] [DecidableLE P] in
theorem core_reportExpired : ∀ (orders : List (Order P)) (e : MatchingEngine P),
    ((reportExpired orders).exec e).2.core = e.core
  | [], _ => rfl
  | _ :: orders, _ => core_reportExpired orders _

omit [Add P] [Sub P] [Mul P] [IntCast P] [LT P] [DecidableLT P] in
/-- A scan action by action is the scan of the registry. -/
theorem exec_scanSymbolsStep (order : Symbol → IterationOrder Nat (Order P)) (now : Int) :
    ∀ (symbols : List Symbol) (result : ScanResult P) (e : MatchingEngine P),
      (scanSymbolsStep order now symbols result).exec e =
        let scan := OrderRegistry.scanSymbols order now e.lastPrice symbols (e.registry, result)
        (scan.2, { e with registry := scan.1 })
  | [], _, _ => rfl
  | s :: symbols, result, e => by
      simp only [scanSymbolsStep, Prog.exec_bind, Prog.exec_step]
      rw [exec_scanSymbolsStep order now symbols]
      rfl

variable [OfScientific P]

/-- The request passes every check of `submit_order`. -/
def Admits (e : MatchingEngine P) (request : OrderRequest P) : Prop :=
  e.invalidReason request = none ∧
    e.passesRiskCheck request.client request.side request.kind request.symbol request.quantity
      request.price = true

instance (e : MatchingEngine P) (request : OrderRequest P) : Decidable (e.Admits request) := by
  unfold Admits
  infer_instance

/-- The order is matched as soon as it is submitted. -/
def Ready (e : MatchingEngine P) (now : Int) (order : Order P) : Prop :=
  order.isStarted now ∧ order.releaseBandContains (e.lastPrice order.symbol)

instance (e : MatchingEngine P) (now : Int) (order : Order P) : Decidable (e.Ready now order) := by
  unfold Ready
  infer_instance

/-- The engine after the id of a new order was taken. -/
def withId (e : MatchingEngine P) : MatchingEngine P :=
  { e with nextOrderId := e.nextOrderId + 1 }

/-- The engine on which `submit_order` makes its checks. -/
def started (e : MatchingEngine P) : MatchingEngine P :=
  count (fun m => { m with ordersSubmitted := m.ordersSubmitted + 1 }) e.withId

section

variable (plus : Int → Int → Int)

omit [Zero P] [Add P] [Sub P] [Mul P] [IntCast P] [LT P] [DecidableLT P] [LE P] [DecidableLE P]
  [OfScientific P] in
/-- `MatchingEngine::build_order`, with the addition of the clock. -/
def buildOrderWith (request : OrderRequest P) (id : Nat) (now : Int) : Order P :=
  { buildOrder request id now with
    notBefore := request.notBeforeIn.map (plus now)
    expiresAt := request.expiresIn.map (plus now) }

/-- `MatchingEngine::submit_order`, with the addition of the clock. -/
def submitOrderWith (now : Int) (clock : Nat → Int) (request : OrderRequest P) :
    Prog (MatchingEngine P) (SubmitResult P) := do
  .modify (count fun m => { m with ordersSubmitted := m.ordersSubmitted + 1 })
  let id ← .step fetchOrderId
  match ← .read (invalidReason · request) with
  | some reason => reject id request.client reason
  | none =>
    let passes ← .read (passesRiskCheck · request.client request.side request.kind
      request.symbol request.quantity request.price)
    if ¬passes then
      reject id request.client
        (if request.side = .buy then "insufficient cash" else "insufficient holdings")
    else
      let order := buildOrderWith plus request id now
      let referencePrice ← .read (lastPrice · order.symbol)
      if order.isStarted now ∧ order.releaseBandContains referencePrice then
        matchAndSettle clock order
      else
        .modify (count fun m => { m with ordersQueued := m.ordersQueued + 1 })
        .modify (enqueue order)
        .modify (publish (.orderQueued id request.client request.symbol))
        return { accepted := true, queued := true, orderId := id }

end

/-- **A submission** is rejected, matched or queued. -/
theorem exec_submitOrderWith (plus : Int → Int → Int) (now : Int) (clock : Nat → Int)
    (request : OrderRequest P) (e : MatchingEngine P) :
    (submitOrderWith plus now clock request).exec e =
      let id := e.nextOrderId
      let order := buildOrderWith plus request id now
      match e.invalidReason request with
      | some reason => (reject id request.client reason).exec e.started
      | none =>
        if ¬e.passesRiskCheck request.client request.side request.kind request.symbol
            request.quantity request.price then
          (reject id request.client
            (if request.side = .buy then "insufficient cash" else "insufficient holdings")).exec
              e.started
        else if e.Ready now order then (matchAndSettle clock order).exec e.started
        else
          ({ accepted := true, queued := true, orderId := id },
            publish (.orderQueued id request.client request.symbol) (enqueue order
              (count (fun m => { m with ordersQueued := m.ordersQueued + 1 }) e.started))) := by
  have fetched : fetchOrderId (count (fun m => { m with ordersSubmitted := m.ordersSubmitted + 1 })
      e) = (e.nextOrderId, e.started) := rfl
  unfold submitOrderWith
  rw [Prog.exec_bind, Prog.exec_modify, Prog.exec_bind, Prog.exec_step, fetched,
    Prog.exec_read_bind]
  change Prog.exec (match e.invalidReason request with | some reason => _ | none => _) _ = _
  cases e.invalidReason request with
  | some reason => rfl
  | none =>
      simp only [Prog.exec_read_bind, Prog.exec_ite]
      rfl

/-- A request that passes every check. -/
theorem exec_submitOrderWith_of_admits (plus : Int → Int → Int) (now : Int) (clock : Nat → Int)
    {request : OrderRequest P} {e : MatchingEngine P} (admits : e.Admits request) :
    (submitOrderWith plus now clock request).exec e =
      let id := e.nextOrderId
      let order := buildOrderWith plus request id now
      if e.Ready now order then (matchAndSettle clock order).exec e.started
      else
        ({ accepted := true, queued := true, orderId := id },
          publish (.orderQueued id request.client request.symbol) (enqueue order
            (count (fun m => { m with ordersQueued := m.ordersQueued + 1 }) e.started))) := by
  rw [exec_submitOrderWith, admits.1, admits.2]
  rfl

theorem exec_submitOrder_of_admits (now : Int) (clock : Nat → Int) {request : OrderRequest P}
    {e : MatchingEngine P} (admits : e.Admits request) :
    (submitOrder now clock request).exec e =
      let id := e.nextOrderId
      let order := buildOrder request id now
      if e.Ready now order then (matchAndSettle clock order).exec e.started
      else
        ({ accepted := true, queued := true, orderId := id },
          publish (.orderQueued id request.client request.symbol) (enqueue order
            (count (fun m => { m with ordersQueued := m.ordersQueued + 1 }) e.started))) :=
  exec_submitOrderWith_of_admits after now clock admits

/-- A request that fails a check. -/
theorem exec_submitOrderWith_of_rejects (plus : Int → Int → Int) (now : Int) (clock : Nat → Int)
    {request : OrderRequest P} {e : MatchingEngine P} (rejects : ¬e.Admits request) : ∃ reason,
    (submitOrderWith plus now clock request).exec e
      = (reject e.nextOrderId request.client reason).exec e.started := by
  rw [exec_submitOrderWith]
  cases valid : e.invalidReason request with
  | some reason => exact ⟨reason, rfl⟩
  | none =>
      have fails : ¬e.passesRiskCheck request.client request.side request.kind request.symbol
          request.quantity request.price := fun passes => rejects ⟨valid, passes⟩
      exact ⟨_, if_pos fails⟩

theorem exec_submitOrder_of_rejects (now : Int) (clock : Nat → Int) {request : OrderRequest P}
    {e : MatchingEngine P} (rejects : ¬e.Admits request) : ∃ reason,
    (submitOrder now clock request).exec e
      = (reject e.nextOrderId request.client reason).exec e.started :=
  exec_submitOrderWith_of_rejects after now clock rejects

/-- Whether a request is accepted does not depend on the clock. -/
theorem accepted_submitOrderWith (plus : Int → Int → Int) (now : Int) (clock : Nat → Int)
    (request : OrderRequest P) (e : MatchingEngine P) :
    ((submitOrderWith plus now clock request).exec e).1.accepted = true ↔ e.Admits request := by
  by_cases admits : e.Admits request
  · refine iff_of_true ?_ admits
    rw [exec_submitOrderWith_of_admits plus now clock admits]
    dsimp only
    split
    · rw [result_matchAndSettle]
    · rfl
  · obtain ⟨reason, outcome⟩ := exec_submitOrderWith_of_rejects plus now clock admits
    rw [outcome]
    exact iff_of_false Bool.noConfusion admits

/-- What a submission does to the engine. -/
def submitted (now : Int) (clock : Nat → Int) (request : OrderRequest P) (e : MatchingEngine P) :
    MatchingEngine P :=
  let order := buildOrder request e.nextOrderId now
  if e.Admits request then
    if e.Ready now order then matched clock order e.withId else enqueue order e.withId
  else e.withId

/-- The three outcomes of a submission. -/
theorem submitted_cases (now : Int) (clock : Nat → Int) (request : OrderRequest P)
    (e : MatchingEngine P) :
    (e.Admits request ∧ e.Ready now (buildOrder request e.nextOrderId now) ∧
        e.submitted now clock request
          = matched clock (buildOrder request e.nextOrderId now) e.withId) ∨
      (e.Admits request ∧ ¬e.Ready now (buildOrder request e.nextOrderId now) ∧
        e.submitted now clock request
          = enqueue (buildOrder request e.nextOrderId now) e.withId) ∨
      ¬e.Admits request ∧ e.submitted now clock request = e.withId := by
  unfold submitted
  by_cases admits : e.Admits request
  · by_cases ready : e.Ready now (buildOrder request e.nextOrderId now)
    · exact .inl ⟨admits, ready, (if_pos admits).trans (if_pos ready)⟩
    · exact .inr (.inl ⟨admits, ready, (if_pos admits).trans (if_neg ready)⟩)
  · exact .inr (.inr ⟨admits, if_neg admits⟩)

theorem core_submitOrder (now : Int) (clock : Nat → Int) (request : OrderRequest P)
    (e : MatchingEngine P) :
    ((submitOrder now clock request).exec e).2.core = (submitted now clock request e).core := by
  rcases submitted_cases now clock request e with ⟨admits, ready, eq⟩ | ⟨admits, waits, eq⟩ |
    ⟨rejects, eq⟩
  · rw [exec_submitOrder_of_admits now clock admits, eq, core_matched]
    dsimp only
    rw [if_pos ready, core_matchAndSettle]
    rfl
  · rw [exec_submitOrder_of_admits now clock admits, eq]
    dsimp only
    rw [if_neg waits]
    rfl
  · obtain ⟨reason, outcome⟩ := exec_submitOrder_of_rejects now clock rejects
    rw [outcome, eq]
    rfl

/-- A submission is accepted exactly when its request passes every check, and
reports the quantity that it traded. -/
theorem result_submitOrder (now : Int) (clock : Nat → Int) (request : OrderRequest P)
    (e : MatchingEngine P) :
    let result := ((submitOrder now clock request).exec e).1
    let order := buildOrder request e.nextOrderId now
    (result.accepted = true ↔ e.Admits request) ∧ result.orderId = e.nextOrderId ∧
      result.filledQuantity = tradedQuantity result.trades ∧
      result.trades = if e.Admits request ∧ e.Ready now order then (matchBook clock order e).1
        else [] := by
  intro result order
  by_cases admits : e.Admits request
  · have outcome := exec_submitOrder_of_admits now clock admits
    by_cases ready : e.Ready now order
    · rw [if_pos ready] at outcome
      have eq : result = _ := (congrArg Prod.fst outcome).trans (result_matchAndSettle _ _ _)
      rw [eq, if_pos ⟨admits, ready⟩]
      exact ⟨iff_of_true rfl admits, rfl, rfl, rfl⟩
    · rw [if_neg ready] at outcome
      have eq : result = _ := congrArg Prod.fst outcome
      rw [eq, if_neg fun h => ready h.2]
      exact ⟨iff_of_true rfl admits, rfl, rfl, rfl⟩
  · obtain ⟨reason, outcome⟩ := exec_submitOrder_of_rejects now clock admits
    have eq : result = _ := congrArg Prod.fst outcome
    rw [eq, if_neg fun h => admits h.1]
    exact ⟨iff_of_false (by simp [reject]) admits, rfl, rfl, rfl⟩

/-- The symbols a release pass scans. -/
def scannedSymbols (order : ReleaseOrder P) (fullScan : Bool) (e : MatchingEngine P) :
    List Symbol :=
  if fullScan then (order.symbols.walk e.registry.waitingBySymbol).map fun entry => entry.1
  else (order.dirty.walk e.dirtySymbols).map fun entry => entry.1

/-- The scan of a release pass. -/
def releaseScan (order : ReleaseOrder P) (now : Int) (fullScan : Bool) (e : MatchingEngine P) :
    OrderRegistry P × ScanResult P :=
  OrderRegistry.scanSymbols order.bucket now e.lastPrice (e.scannedSymbols order fullScan)
    (e.registry, {})

/-- The engine after the scan of a release pass, before any match. -/
def scanned (order : ReleaseOrder P) (now : Int) (fullScan : Bool) (e : MatchingEngine P) :
    MatchingEngine P :=
  { e with
    registry := (e.releaseScan order now fullScan).1
    dirtySymbols := if fullScan then e.dirtySymbols else ∅ }

omit [OfScientific P] in
/-- **A release pass** scans the registry and then matches what it released. -/
theorem exec_tryReleaseWaitingOrders (order : ReleaseOrder P) (now : Int)
    (clock : Nat → Nat → Int) (fullScan : Bool) (e : MatchingEngine P) :
    (tryReleaseWaitingOrders order now clock fullScan).exec e =
      let scan := (e.releaseScan order now fullScan).2
      let results := (releaseAll clock 0 scan.released).exec (e.scanned order now fullScan)
      ({ released := results.1, expired := scan.expired },
        ((reportExpired scan.expired).exec results.2).2) := by
  unfold tryReleaseWaitingOrders symbolsToScan
  simp only [Prog.exec_bind, exec_scanSymbolsStep]
  cases fullScan <;> rfl

/-- What a release pass does to the engine. -/
def released (order : ReleaseOrder P) (now : Int) (clock : Nat → Nat → Int) (fullScan : Bool)
    (e : MatchingEngine P) : MatchingEngine P :=
  matchedAll clock 0 (e.releaseScan order now fullScan).2.released (e.scanned order now fullScan)

omit [OfScientific P] in
theorem core_tryReleaseWaitingOrders (order : ReleaseOrder P) (now : Int)
    (clock : Nat → Nat → Int) (fullScan : Bool) (e : MatchingEngine P) :
    ((tryReleaseWaitingOrders order now clock fullScan).exec e).2.core
      = (released order now clock fullScan e).core := by
  rw [exec_tryReleaseWaitingOrders, core_reportExpired, core_releaseAll, released, core_matchedAll]

/-- A book operation that may cancel an order. -/
def cancelledIn (symbol : Symbol) (f : OrderBook P → Bool × OrderBook P) (e : MatchingEngine P) :
    Bool × MatchingEngine P :=
  if e.symbolExists symbol then
    ((f (e.bookFor symbol)).1,
      { e with books := e.books.insert symbol (f (e.bookFor symbol)).2 })
  else (false, e)

omit [Zero P] [Add P] [Sub P] [Mul P] [IntCast P] [LE P] [DecidableLE P] [OfScientific P] in
theorem exec_cancelOrderAt (symbol : Symbol) (side : Side) (price : P) (orderId : Nat)
    (e : MatchingEngine P) : (cancelOrderAt symbol side price orderId).exec e
      = cancelledIn symbol (OrderBook.cancelAtPrice · side price orderId) e := by
  unfold cancelOrderAt cancelledIn
  rw [Prog.exec_read_bind, Prog.exec_ite]
  rfl

omit [Zero P] [Add P] [Sub P] [Mul P] [IntCast P] [LE P] [DecidableLE P] [OfScientific P] in
theorem exec_cancelOrder (symbol : Symbol) (orderId : Nat) (e : MatchingEngine P) :
    (cancelOrder symbol orderId).exec e
      = cancelledIn symbol (OrderBook.cancel · orderId) e := by
  unfold cancelOrder cancelledIn
  rw [Prog.exec_read_bind, Prog.exec_ite]
  rfl

end

end MatchingEngine

section

variable [Zero P] [Add P] [Sub P] [Mul P] [IntCast P] [LT P] [DecidableLT P] [LE P] [DecidableLE P]
  [OfScientific P]

/-- What a call does to the engine, counters and events apart. -/
def EngineCall.effect : EngineCall P → MatchingEngine P → MatchingEngine P
  | .submitOrder now clock request, e => e.submitted now clock request
  | .tryReleaseWaitingOrders order now clock fullScan, e => e.released order now clock fullScan
  | .cancelOrderAt symbol side price orderId, e =>
      (e.cancelledIn symbol (OrderBook.cancelAtPrice · side price orderId)).2
  | .cancelOrder symbol orderId, e =>
      (e.cancelledIn symbol (OrderBook.cancel · orderId)).2
  | .cancelWaitingOrder orderId, e =>
      { e with registry := (e.registry.cancel orderId).2 }

/-- **Every call** does what its effect says. -/
theorem MatchingEngine.core_apply (e : MatchingEngine P) (call : EngineCall P) :
    (e.apply call).core = (call.effect e).core := by
  rw [MatchingEngine.apply]
  cases call with
  | submitOrder now clock request =>
      rw [EngineCall.program, Prog.exec_bind]
      exact core_submitOrder now clock request e
  | tryReleaseWaitingOrders order now clock fullScan =>
      rw [EngineCall.program, Prog.exec_bind]
      exact core_tryReleaseWaitingOrders order now clock fullScan e
  | cancelOrderAt symbol side price orderId =>
      rw [EngineCall.program, Prog.exec_bind, exec_cancelOrderAt]
      rfl
  | cancelOrder symbol orderId =>
      rw [EngineCall.program, Prog.exec_bind, exec_cancelOrder]
      rfl
  | cancelWaitingOrder orderId => rfl

end

end StockMarket
