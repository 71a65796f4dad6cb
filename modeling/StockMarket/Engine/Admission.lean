import StockMarket.Engine.Deadlines
import StockMarket.Engine.LastPrice
import StockMarket.Engine.ReleaseScan

/-!
The two ways of an order into the book, and its release band.

`submit_order` and the scan of the registry each decide by a rule of their own
whether an order goes to the book. The scan drops an order first if its expiry is due,
a submission does not ask, so the rules agree unless an order is due already when it is
submitted and could be matched at once (`same_rule_iff`). The expiry is a sum in 64 bits,
which is due at once for a number of seconds below one and for one so large that the sum
wraps.

A release pass reads the last price of a symbol once, when it scans it, and matches the
released orders afterwards. Each of them is in its band when it is scanned, and still
when it is matched unless those that were matched before it traded its symbol out of the
band (`released_in_band_iff`).
-/

namespace StockMarket

open Atomic MatchingEngine OrderRegistry

variable {P : Type}

/-! ### Immediate and queued release -/

/-- The order was not queued but sent to the book. -/
def SubmitResult.sentToBook (result : SubmitResult P) : Prop :=
  result.accepted = true ∧ result.queued = false

instance (result : SubmitResult P) : Decidable result.sentToBook :=
  inferInstanceAs (Decidable (_ ∧ _))

section

variable [LE P] [DecidableLE P]

/-- What a scan releases from a registry that holds one order. -/
def releasedAlone (scan : ScanOrder P) (now : Int) (price : Symbol → P) (o : Order P) :
    List (Order P) :=
  (scanAndRelease scan now price (OrderRegistry.add {} o)).2.released

theorem releasedAlone_eq (scan : ScanOrder P) (now : Int) (price : Symbol → P) (o : Order P) :
    releasedAlone scan now price o = if o.isReleasable now (price o.symbol) then [o] else [] := by
  have none : ∀ w : Order P, ({} : OrderRegistry P).Waits w → w.id ≠ o.id := by
    intro w waits
    cases waits
  have inv := RegistryInvariant.empty.add none
  have alone : (OrderRegistry.add {} o).allWaiting = [o] :=
    List.perm_singleton.mp (RegistryInvariant.empty.allWaiting_add none)
  have released := (inv.scanAndRelease_exact scan now price).released
  rw [alone, List.filter_singleton] at released
  unfold releasedAlone
  by_cases releasable : o.isReleasable now (price o.symbol)
  · rw [if_pos releasable]
    rw [decide_eq_true ⟨trivial, releasable⟩] at released
    exact List.perm_singleton.mp released
  · rw [if_neg releasable]
    rw [decide_eq_false fun both => releasable both.2] at released
    exact List.perm_nil.mp released

end

theorem Order.isExpired.mono {o : Order P} {now later : Int} (due : o.isExpired now)
    (le : now ≤ later) : o.isExpired later := by
  unfold Order.isExpired at due ⊢
  cases expiry : o.expiresAt with
  | none =>
      rw [expiry] at due
      exact due
  | some t =>
      rw [expiry] at due
      exact Int.le_trans due le

/-- The expiry is due when the order is submitted. -/
theorem buildOrderWith_isExpired (plus : Int → Int → Int) (request : OrderRequest P) (id : Nat)
    (now : Int) : (buildOrderWith plus request id now).isExpired now ↔
      ∃ s ∈ request.expiresIn, plus now s ≤ now := by
  unfold Order.isExpired buildOrderWith
  cases request.expiresIn with
  | none => simp
  | some s => simp

section

variable [Zero P] [Add P] [Sub P] [Mul P] [IntCast P] [LT P] [DecidableLT P] [LE P] [DecidableLE P]
  [OfScientific P]

/-- A submission and a scan of a registry with just the new order treat it alike: it is
sent to the book exactly when the scan releases it, and if its expiry is due neither
does, nor any later scan. -/
structure SameRule (e : MatchingEngine P) (scan : ScanOrder P) (now : Int) (clock : Nat → Int)
    (request : OrderRequest P) : Prop where
  sent : ((submitOrderWith after64 now clock request).exec e).1.sentToBook ↔
    buildOrderWith after64 request e.nextOrderId now
      ∈ releasedAlone scan now e.lastPrice (buildOrderWith after64 request e.nextOrderId now)
  due : (buildOrderWith after64 request e.nextOrderId now).isExpired now →
    ¬((submitOrderWith after64 now clock request).exec e).1.sentToBook ∧
      ∀ later price, now ≤ later →
        releasedAlone scan later price (buildOrderWith after64 request e.nextOrderId now) = []

/-- A submission sends an order to the book that is started and in its band. -/
theorem sentToBook_iff (plus : Int → Int → Int) {e : MatchingEngine P} {now : Int}
    (clock : Nat → Int) {request : OrderRequest P}
    (accepted : ((submitOrderWith plus now clock request).exec e).1.accepted) :
    ((submitOrderWith plus now clock request).exec e).1.sentToBook ↔
      e.Ready now (buildOrderWith plus request e.nextOrderId now) := by
  have admits := (accepted_submitOrderWith plus now clock request e).mp accepted
  rw [exec_submitOrderWith_of_admits plus now clock admits]
  by_cases ready : e.Ready now (buildOrderWith plus request e.nextOrderId now)
  · have result :=
      result_matchAndSettle clock (buildOrderWith plus request e.nextOrderId now) e.started
    dsimp only
    rw [if_pos ready, result]
    exact iff_of_true ⟨rfl, rfl⟩ ready
  · dsimp only
    rw [if_neg ready]
    exact iff_of_false (fun sent => Bool.noConfusion sent.2) ready

/-- **When the two rules agree**: the expiry of the order, in the clock's own arithmetic,
is not due at its submission, or the order is to wait for its start or for its band. -/
theorem same_rule_iff (e : MatchingEngine P) (scan : ScanOrder P) (now : Int) (clock : Nat → Int)
    (request : OrderRequest P)
    (accepted : ((submitOrderWith after64 now clock request).exec e).1.accepted) :
    SameRule e scan now clock request ↔
      (∀ s ∈ request.expiresIn, now < wrap64 (now + s * 1000000000)) ∨
        ¬e.Ready now (buildOrderWith after64 request e.nextOrderId now) := by
  have deadline : ∀ s, after64 now s = wrap64 (now + s * 1000000000) := fun s => by
    rw [after64, mul64, add64_wrap64_right, add64]
  have expired := buildOrderWith_isExpired after64 request e.nextOrderId now
  have sent := sentToBook_iff after64 clock accepted
  constructor
  · intro same
    by_contra both
    push Not at both
    obtain ⟨⟨s, mem, soon⟩, ready⟩ := both
    exact (same.due (expired.mpr ⟨s, mem, (deadline s).le.trans soon⟩)).1 (sent.mpr ready)
  · intro apart
    have waits : (buildOrderWith after64 request e.nextOrderId now).isExpired now →
        ¬e.Ready now (buildOrderWith after64 request e.nextOrderId now) := by
      intro due
      obtain ⟨s, mem, soon⟩ := expired.mp due
      rw [deadline] at soon
      exact apart.resolve_left fun later => absurd (later s mem) (not_lt.mpr soon)
    refine ⟨?_, fun due => ⟨fun straight => waits due (sent.mp straight), fun t price later => ?_⟩⟩
    · rw [sent, releasedAlone_eq]
      by_cases due : (buildOrderWith after64 request e.nextOrderId now).isExpired now
      · rw [if_neg fun releasable => releasable.1 due]
        exact iff_of_false (waits due) List.not_mem_nil
      · by_cases ready : e.Ready now (buildOrderWith after64 request e.nextOrderId now)
        · rw [if_pos ⟨due, ready⟩]
          exact iff_of_true ready List.mem_cons_self
        · rw [if_neg fun releasable => ready releasable.2]
          exact iff_of_false ready List.not_mem_nil
    · rw [releasedAlone_eq]
      exact if_neg fun releasable => releasable.1 (due.mono later)

end

/-- A LIMIT order that is in its band at once, with an expiry of some seconds. -/
def limitExpiring (seconds : Int) : OrderRequest ℚ :=
  { request 1 .buy .limit "AAPL" 5 100 with expiresIn := some seconds }

theorem same_rule_expiresLater :
    SameRule (setUp buyerAndSeller) storedOrder.toScanOrder 0 (fun _ => 0) (limitExpiring 60) :=
  (same_rule_iff _ _ 0 _ (limitExpiring 60) (by decide +kernel)).mpr (.inl (by decide))

/-- An order that has already expired is matched. -/
theorem expired_sentToBook : ¬∀ (e : MatchingEngine ℚ) (scan : ScanOrder ℚ) (now : Int)
    (clock : Nat → Int) (request : OrderRequest ℚ),
    ((submitOrderWith after64 now clock request).exec e).1.accepted →
      SameRule e scan now clock request := by
  intro claim
  have same := claim (setUp buyerAndSeller) storedOrder.toScanOrder 0 (fun _ => 0)
    (limitExpiring 0) (by decide +kernel)
  exact (same.due (by decide)).1 (by decide +kernel)

/-! ### Bands of released orders -/

theorem lastTradePrice_trans (reference : P) (ts us : List (Trade P)) :
    lastTradePrice (lastTradePrice reference ts) us = lastTradePrice reference (ts ++ us) := by
  unfold lastTradePrice
  rw [List.getLast?_append]
  cases us.getLast? <;> rfl

/-- Only the prices of the trades matter. -/
theorem lastTradePrice_congr (reference : P) {ts us : List (Trade P)}
    (same : ts.map Trade.untimed = us) : lastTradePrice reference ts
    = lastTradePrice reference us := by
  subst same
  unfold lastTradePrice
  rw [List.getLast?_map, Option.map_map]
  rfl

/-- Every released order was in its band when the pass scanned it. -/
theorem releaseBandContains_of_released [Zero P] [LE P] [DecidableLE P] {e : MatchingEngine P}
    {order : ReleaseOrder P} {now : Int} {fullScan : Bool} {o : Order P}
    (registry : RegistryInvariant e.registry)
    (released : o ∈ (e.releaseScan order now fullScan).2.released) :
    o.releaseBandContains (e.lastPrice o.symbol) := by
  have exact : ScanExact e.registry (· ∈ e.scannedSymbols order fullScan) now e.lastPrice
      (e.releaseScan order now fullScan) :=
    registry.scanSymbols_exact (EngineInvariant.nodup_scannedSymbols order fullScan e)
      fun _ _ => Iff.rfl
  exact (of_decide_eq_true (List.mem_filter.mp (exact.released.mem_iff.mp released)).2).2.2.2

section

variable [LT P] [DecidableLT P]

/-- The trades of some orders that are matched with a book one after the other, and the
book that they leave. -/
def OrderBook.matchEach (b : OrderBook P) : List (Order P) → List (Trade P) × OrderBook P
  | [] => ([], b)
  | o :: orders =>
    let first := b.matchOrder (fun _ => 0) o
    let rest := OrderBook.matchEach first.2 orders
    (first.1 ++ rest.1, rest.2)

variable [Zero P]

/-- The book and the last price of a symbol after some of its orders were matched. -/
structure Replayed (s : Symbol) (e e' : MatchingEngine P) (own : List (Order P)) : Prop where
  book : e'.bookFor s = ((e.bookFor s).matchEach own).2
  price : e'.lastPrice s = lastTradePrice (e.lastPrice s) ((e.bookFor s).matchEach own).1

omit [Zero P] in
theorem Replayed.refl [Zero P] (s : Symbol) (e : MatchingEngine P) : Replayed s e e [] :=
  ⟨rfl, rfl⟩

/-- An order of the symbol, and then some more. -/
theorem Replayed.cons {s : Symbol} {e e' e'' : MatchingEngine P} {o : Order P}
    {own : List (Order P)} (first : Replayed s e e' [o]) (rest : Replayed s e' e'' own) :
    Replayed s e e'' (o :: own) where
  book := by
    rw [rest.book, first.book]
    rfl
  price := by
    rw [rest.price, first.price, first.book, lastTradePrice_trans]
    simp only [OrderBook.matchEach, List.append_nil]

variable [Add P] [Sub P] [Mul P] [IntCast P]

omit [LT P] [DecidableLT P] in
/-- Settling trades of other symbols leaves the price, settling its own that of the last. -/
theorem lastPrice_settleAll {s symbol : Symbol} : ∀ (ts : List (Trade P)) (e : MatchingEngine P),
    (∀ t ∈ ts, t.symbol = symbol) → (settleAll ts e).lastPrice s
      = if s = symbol then lastTradePrice (e.lastPrice s) ts else e.lastPrice s
  | [], _, _ => (ite_self _).symm
  | t :: ts, e, traded => by
      obtain rfl := traded t List.mem_cons_self
      have price : (settleTrade e t).lastPrice s
          = if s = t.symbol then t.price else e.lastPrice s := by
        change ((e.lastPrices.insert t.symbol t.price).lookup s).getD 0 = _
        by_cases own : s = t.symbol
        · rw [if_pos own, own, AList.lookup_insert, Option.getD_some]
        · rw [if_neg own, AList.lookup_insert_ne own]
          rfl
      rw [settleAll_cons, lastPrice_settleAll ts _ fun u mem =>
        traded u (List.mem_cons_of_mem _ mem),
        price]
      by_cases own : s = t.symbol
      · have last : lastTradePrice t.price ts = lastTradePrice (e.lastPrice s) (t :: ts) :=
          lastTradePrice_trans (e.lastPrice s) [t] ts
        rw [if_pos own, if_pos own, if_pos own, last]
      · rw [if_neg own, if_neg own, if_neg own]

/-- The engine on which a release pass matches the order of the given place. -/
def turn [LE P] [DecidableLE P] (e : MatchingEngine P) (order : ReleaseOrder P) (now : Int)
    (clock : Nat → Nat → Int) (fullScan : Bool) (place : Nat) : MatchingEngine P :=
  ((releaseAll clock 0 ((e.releaseScan order now fullScan).2.released.take place)).exec
    (e.scanned order now fullScan)).2

variable {e : MatchingEngine P} {pending : List (Order P)} {o : Order P}

/-- A match is a step of the book of its own symbol and of no other. -/
theorem replayed_matched (inv : EngineInvariant e (o :: pending))
    (clock : Nat → Int) (s : Symbol) :
    Replayed s e (matched clock o e) (if o.symbol = s then [o] else []) := by
  have traded : ∀ t ∈ (matchBook clock o e).1, t.symbol = o.symbol := by
    intro t mem
    rw [inv.matchBook_trades] at mem
    obtain ⟨f, -, now, rfl⟩ := mem_fillTrades mem
    exact tradeOf_symbol ..
  have before : (matchBook clock o e).2.lastPrice s = e.lastPrice s := rfl
  have price := lastPrice_settleAll (s := s) _ (matchBook clock o e).2 traded
  rw [before] at price
  by_cases own : o.symbol = s
  · subst own
    rw [if_pos rfl]
    refine ⟨?_, price.trans ?_⟩
    · rw [bookFor_matched, bookFor_withBook]
      exact OrderBook.matchOrder_clock ..
    · have same := lastTradePrice_congr (e.lastPrice o.symbol)
        ((e.bookFor o.symbol).untimed_matchOrder clock o)
      rw [if_pos rfl]
      simp only [OrderBook.matchEach, List.append_nil]
      exact same
  · rw [if_neg own]
    refine ⟨?_, price.trans (if_neg fun h => own h.symm)⟩
    rw [bookFor_matched, bookFor_withBook_ne _ _ _ fun h => own h.symm, OrderBook.matchEach]

variable [IsStrictOrder P (· < ·)]

/-- Matches one after the other replay, symbol by symbol, on the books. -/
theorem replayed_matchedAll (clock : Nat → Nat → Int) (s : Symbol)
    (rest : List (Order P)) : ∀ (n : Nat) (orders : List (Order P)) {e : MatchingEngine P},
      EngineInvariant e (orders ++ rest) →
        Replayed s e (matchedAll clock n orders e) (orders.filter fun o => o.symbol = s)
  | _, [], e, _ => .refl s e
  | n, o :: orders, e, inv => by
      have first := replayed_matched inv (clock n) s
      have others := replayed_matchedAll clock s rest (n + 1) orders (inv.matched (clock n))
      rw [matchedAll, List.filter_cons]
      by_cases own : o.symbol = s
      · rw [if_pos own] at first
        rw [if_pos (decide_eq_true own)]
        exact first.cons others
      · rw [if_neg own] at first
        rw [if_neg fun h => own (of_decide_eq_true h)]
        exact ⟨others.book.trans (by rw [first.book]; rfl), others.price.trans (by
          rw [first.price, first.book]; rfl)⟩

variable [LE P] [DecidableLE P] {order : ReleaseOrder P} {now : Int} {clock : Nat → Nat → Int}
  {fullScan : Bool} {place : Nat}

/-- The trades of a symbol that a release pass has made when the turn of a place comes. -/
def tradesBefore (e : MatchingEngine P) (order : ReleaseOrder P) (now : Int) (fullScan : Bool)
    (place : Nat) (s : Symbol) : List (Trade P) :=
  ((e.bookFor s).matchEach
    (((e.releaseScan order now fullScan).2.released.take place).filter fun o => o.symbol = s)).1

/-- The last price when the turn of an order comes. -/
theorem lastPrice_turn (inv : EngineInvariant e []) (clock : Nat → Nat → Int)
    (s : Symbol) : (turn e order now clock fullScan place).lastPrice s
      = lastTradePrice (e.lastPrice s) (tradesBefore e order now fullScan place s) := by
  have arrives := inv.scanned order now fullScan
  rw [← List.take_append_drop place (e.releaseScan order now fullScan).2.released] at arrives
  have replayed := replayed_matchedAll clock s _ 0 _ arrives
  have same : (turn e order now clock fullScan place).core.lastPrice s = _ :=
    congrArg (lastPrice · s) (core_releaseAll clock 0 _ (e.scanned order now fullScan))
  have scanned : (matchedAll clock 0 ((e.releaseScan order now fullScan).2.released.take place)
      (e.scanned order now fullScan)).core.lastPrice s = _ := replayed.price
  rw [core_matchedAll] at scanned
  exact same.trans scanned

/-- **Released orders enter the book inside their bands** if and only if none of them is
released after orders whose trades, on the book of the symbol as the pass finds it, leave
the price out of its band. -/
theorem released_in_band_iff (inv : EngineInvariant e []) (order : ReleaseOrder P) (now : Int)
    (clock : Nat → Nat → Int) (fullScan : Bool) :
    (∀ (place : Nat) (o : Order P), (e.releaseScan order now fullScan).2.released[place]? = some o →
        o.releaseBandContains ((turn e order now clock fullScan place).lastPrice o.symbol)) ↔
      ∀ (place : Nat) (o : Order P),
      (e.releaseScan order now fullScan).2.released[place]? = some o →
        ∀ t ∈ (tradesBefore e order now fullScan place o.symbol).getLast?,
          o.releaseBandContains t.price := by
  refine forall_congr' fun place => forall_congr' fun o => forall_congr' fun released => ?_
  rw [lastPrice_turn inv clock]
  unfold lastTradePrice
  cases last : (tradesBefore e order now fullScan place o.symbol).getLast? with
  | none =>
      have scanned := releaseBandContains_of_released inv.registry (List.mem_of_getElem? released)
      exact iff_of_true scanned fun t mem => nomatch mem
  | some t => simp

end

/-- Two BUY orders wait for the price to reach 104, the first only up to some price. A
trade at 105 takes it there, and then the shares on offer cost 120. -/
def twoTriggered (upper : ℚ) : List (EngineCall ℚ) :=
  [.submitOrder 0 (fun _ => 0)
      { request 1 .buy .limitStop "AAPL" 1 130 with
        triggerLower := some 104
        triggerUpper := some upper },
    .submitOrder 0 (fun _ => 0)
      { request 1 .buy .stop "AAPL" 1 130 with triggerUpper := some 104 },
    .submitOrder 0 (fun _ => 0) (request 2 .sell .limit "AAPL" 1 105),
    .submitOrder 0 (fun _ => 0) (request 1 .buy .limit "AAPL" 1 105),
    .submitOrder 0 (fun _ => 0) (request 2 .sell .limit "AAPL" 5 120)]

/-- The first waits for at most 125, and is matched second, at 120. -/
theorem released_in_band_wide :
    ∃ o, (((setUp buyerAndSeller).run (twoTriggered 125)).releaseScan storedOrder 0
        true).2.released[1]? = some o ∧ o.releaseBandContains
      ((turn ((setUp buyerAndSeller).run (twoTriggered 125)) storedOrder 0 (fun _ _ => 0) true
        1).lastPrice o.symbol) := by
  have inv := EngineInvariant.run (twoTriggered 125) (idle_setUp buyerAndSeller).invariant
  obtain ⟨first, released⟩ : ∃ o, (((setUp buyerAndSeller).run (twoTriggered 125)).releaseScan
      storedOrder 0 true).2.released[1]? = some o :=
    Option.isSome_iff_exists.mp (by decide +kernel)
  have each : ∀ entry ∈ (((setUp buyerAndSeller).run (twoTriggered 125)).releaseScan storedOrder 0
      true).2.released.zipIdx, ∀ t ∈ (tradesBefore ((setUp buyerAndSeller).run (twoTriggered 125))
        storedOrder 0 true entry.2 entry.1.symbol).getLast?,
      entry.1.releaseBandContains t.price := by decide +kernel
  refine ⟨first, released, (released_in_band_iff inv storedOrder 0 (fun _ _ => 0) true).mpr ?_ 1
    first released⟩
  exact fun place o released => each (o, place) (List.mem_zipIdx_iff_getElem?.mpr released)

/-- The first waits for at most 110, and is matched when the price is 120. -/
theorem released_outOfBand : ¬∀ (setup : List (SetupCall ℚ)) (calls : List (EngineCall ℚ))
    (order : ReleaseOrder ℚ) (now : Int) (clock : Nat → Nat → Int) (fullScan : Bool) (place : Nat),
    ∀ o ∈ (((setUp setup).run calls).releaseScan order now fullScan).2.released[place]?,
      o.releaseBandContains
        ((turn ((setUp setup).run calls) order now clock fullScan place).lastPrice o.symbol) := by
  intro claim
  have holds := claim buyerAndSeller (twoTriggered 110) storedOrder 0 (fun _ _ => 0) true 1
  exact absurd holds (by decide +kernel)

end StockMarket
