import StockMarket.Book.Renaming
import StockMarket.Engine.ExactCash
import StockMarket.Engine.OpenOrders
import StockMarket.Lib.Independent

/-!
A release pass over the dirty symbols releases what a full pass releases.

`Quiet` is the invariant behind it: a symbol that is not marked dirty has no
order waiting that its last price would release. So the two scans take the same
orders out, symbol by symbol, and differ in the order of the symbols only.
Matches of different symbols touch different books and prices, so both passes make the
same trades of each symbol (`market_matchedAll`). A client's cash is the same balance with the
same amounts, but the passes may add them in another order, and additions of doubles
round.
-/

namespace StockMarket

open Atomic MatchingEngine

/-! ### Symbols that are not dirty -/

section

variable {P : Type} [Zero P] [LE P]

/-- No order waits that the last price of its symbol would release, unless the symbol
is marked dirty or the order has a start date. -/
def Quiet (e : MatchingEngine P) : Prop :=
  ∀ o, e.registry.Waits o → o.notBefore = none → o.symbol ∉ e.dirtySymbols →
    ¬o.releaseBandContains (e.lastPrice o.symbol)

namespace Quiet

variable {e e' : MatchingEngine P}

/-- It is enough that no order came to wait and that symbols which are not dirty were
not dirty before and kept their price. -/
theorem mono (quiet : Quiet e) (waits : ∀ o, e'.registry.Waits o → e.registry.Waits o)
    (clean : ∀ s, s ∉ e'.dirtySymbols → s ∉ e.dirtySymbols ∧ e'.lastPrice s = e.lastPrice s) :
    Quiet e' := by
  intro o mem undated notDirty
  obtain ⟨before, price⟩ := clean o.symbol notDirty
  rw [price]
  exact quiet o (waits o mem) undated before

theorem of_core (quiet : Quiet e) (same : e'.core = e.core) : Quiet e' := by
  have core : Quiet e.core := quiet
  rw [← same] at core
  exact core

omit [LE P] in
theorem clean_settleAll [Add P] [Sub P] [Mul P] [IntCast P] {s : Symbol} {ts : List (Trade P)}
    {e : MatchingEngine P} (notDirty : s ∉ (settleAll ts e).dirtySymbols) :
    s ∉ e.dirtySymbols ∧ (settleAll ts e).lastPrice s = e.lastPrice s := by
  induction ts generalizing e with
  | nil => exact ⟨notDirty, rfl⟩
  | cons t ts ih =>
      obtain ⟨marked, price⟩ := ih notDirty
      have entries : s ∉ e.dirtySymbols.insert t.symbol () := marked
      rw [AList.mem_insert, not_or] at entries
      have kept : (settleTrade e t).lastPrice s = e.lastPrice s := by
        have look : (settleTrade e t).lastPrices.lookup s = e.lastPrices.lookup s :=
          AList.lookup_insert_ne entries.1
        rw [lastPrice, look, lastPrice]
      exact ⟨entries.2, price.trans kept⟩

section

variable [Add P] [Sub P] [Mul P] [IntCast P] [LT P] [DecidableLT P]

/-- A match marks the symbols whose prices it moves. -/
theorem matched (quiet : Quiet e) (clock : Nat → Int) (o : Order P) :
    Quiet (matched clock o e) := by
  refine quiet.mono (fun w waits => ?_) fun s notDirty => clean_settleAll notDirty
  rw [MatchingEngine.matched, settleAll_registry] at waits
  exact waits

theorem matchedAll (clock : Nat → Nat → Int) (orders : List (Order P)) :
    ∀ (n : Nat) {e : MatchingEngine P}, Quiet e → Quiet (matchedAll clock n orders e) := by
  induction orders with
  | nil => exact fun n e quiet => quiet
  | cons o orders ih => exact fun n e quiet => ih (n + 1) (quiet.matched (clock n) o)

end

/-- An order that is queued without a start date is outside its band. -/
theorem enqueue [DecidableLE P] (quiet : Quiet e) (registry : RegistryInvariant e.registry)
    {o : Order P} (fresh : ∀ w, e.registry.Waits w → w.id ≠ o.id) {now : Int}
    (waits : ¬e.Ready now o) : Quiet (enqueue o e) := by
  intro w mem undated notDirty
  rcases (registry.waits_add fresh).mp mem with rfl | old
  · intro inBand
    have started : w.isStarted now := by
      unfold Order.isStarted
      rw [undated]
      trivial
    exact waits ⟨started, inBand⟩
  · exact quiet w old undated notDirty

omit [LE P] [Zero P] in
theorem mem_scannedSymbols (order : ReleaseOrder P) {s : Symbol} :
    s ∈ e.scannedSymbols order false ↔ s ∈ e.dirtySymbols := by
  have walked : e.scannedSymbols order false
      = (order.dirty.walk e.dirtySymbols).map fun entry => entry.1 := rfl
  rw [walked, List.mem_map]
  constructor
  · rintro ⟨⟨s, u⟩, mem, rfl⟩
    exact AList.lookup_isSome.mp (Option.isSome_iff_exists.mpr ⟨u, order.dirty.mem_walk.mp mem⟩)
  · intro mem
    obtain ⟨u, look⟩ := Option.isSome_iff_exists.mp (AList.lookup_isSome.mpr mem)
    exact ⟨⟨s, u⟩, order.dirty.mem_walk.mpr look, rfl⟩

/-- After a scan the symbols that were dirty are quiet: what is in its band left. -/
theorem scanned [DecidableLE P] (quiet : Quiet e) (order : ReleaseOrder P) (now : Int)
    (fullScan : Bool) : Quiet (e.scanned order now fullScan) := by
  intro o mem undated notDirty
  obtain ⟨waited, stays⟩ := (RegistryInvariant.waits_scanSymbols
    (EngineInvariant.nodup_scannedSymbols order fullScan e)).mp mem
  cases fullScan with
  | true => exact quiet o waited undated notDirty
  | false =>
      by_cases dirty : o.symbol ∈ e.dirtySymbols
      · intro inBand
        have started : o.isStarted now := by
          unfold Order.isStarted
          rw [undated]
          trivial
        refine stays ⟨(mem_scannedSymbols order).mpr dirty, ?_⟩
        by_cases expired : o.isExpired now
        · exact .inl expired
        · exact .inr ⟨expired, started, inBand⟩
      · exact quiet o waited undated dirty

theorem cancelledWaiting (quiet : Quiet e) (registry : RegistryInvariant e.registry) (id : Nat) :
    Quiet { e with registry := (e.registry.cancel id).2 } := by
  refine quiet.mono (fun o waits => ?_) fun s notDirty => ⟨notDirty, rfl⟩
  have left : o ∈ (e.registry.cancel id).2.allWaiting :=
    (registry.cancel id).mem_allWaiting.mpr waits
  exact registry.mem_allWaiting.mp (registry.cancel_subset id left)

variable [Add P] [Sub P] [Mul P] [IntCast P] [LT P] [DecidableLT P] [DecidableLE P]
  [OfScientific P]

/-- **Every call keeps it.** -/
theorem effect (quiet : Quiet e) (inv : EngineInvariant e []) (call : EngineCall P) :
    Quiet (call.effect e) := by
  have taken : Quiet e.withId := quiet
  cases call with
  | submitOrder now clock request =>
      rw [EngineCall.effect]
      rcases submitted_cases now clock request e with ⟨-, -, eq⟩ | ⟨admits, waits, eq⟩ | ⟨-, eq⟩
      · rw [eq]
        exact taken.matched clock _
      · rw [eq]
        exact taken.enqueue inv.registry (inv.admitted now admits).unseen waits
      · rw [eq]
        exact taken
  | tryReleaseWaitingOrders order now clock fullScan =>
      exact (quiet.scanned order now fullScan).matchedAll clock _ 0
  | cancelOrderAt symbol side price orderId =>
      rw [EngineCall.effect, cancelledIn]
      split
      · exact quiet
      · exact quiet
  | cancelOrder symbol orderId =>
      rw [EngineCall.effect, cancelledIn]
      split
      · exact quiet
      · exact quiet
  | cancelWaitingOrder orderId => exact quiet.cancelledWaiting inv.registry orderId

/-- **Every run keeps it.** -/
theorem run [IsStrictOrder P (· < ·)] (calls : List (EngineCall P)) :
    ∀ {e : MatchingEngine P}, EngineInvariant e [] → Quiet e → Quiet (e.run calls) := by
  induction calls with
  | nil => exact fun inv quiet => quiet
  | cons call calls ih =>
      intro e inv quiet
      exact ih (inv.apply call) ((quiet.effect inv call).of_core (core_apply e call))

end Quiet

theorem Quiet.of_idle {e : MatchingEngine P} (idle : Idle e) : Quiet e := by
  intro o waits
  rw [idle.registry] at waits
  cases waits

end

/-! ### What a match does to its symbol -/

/-- What the orders of one symbol see and leave. -/
structure Market (P : Type) where
  book : Option (OrderBook P)
  lastPrice : Option P
  traded : List (Trade P)

section

variable {P : Type} [LT P] [DecidableLT P]

/-- An order is matched. -/
def Market.matched (m : Market P) (o : Order P) : Market P :=
  let out := (m.book.getD (OrderBook.new o.symbol)).matchOrder (fun _ => 0) o
  { book := some out.2
    lastPrice := out.1.foldl (fun _ t => some t.price) m.lastPrice
    traded := m.traded ++ out.1 }

end

namespace MatchingEngine

section

variable {P : Type}

/-- The market of a symbol, after some trades. -/
def market (e : MatchingEngine P) (s : Symbol) (traded : List (Trade P)) : Market P where
  book := e.books.lookup s
  lastPrice := e.lastPrices.lookup s
  traded := traded

/-- The trades of one symbol, whenever they happened. -/
def tradesIn (s : Symbol) (ts : List (Trade P)) : List (Trade P) :=
  (ts.filter fun t => t.symbol = s).map Trade.untimed

theorem tradesIn_append (s : Symbol) (ts us : List (Trade P)) :
    tradesIn s (ts ++ us) = tradesIn s ts ++ tradesIn s us := by
  rw [tradesIn, List.filter_append, List.map_append]
  rfl

theorem tradesIn_cons (s : Symbol) (t : Trade P) (ts : List (Trade P)) : tradesIn s (t :: ts)
    = if t.symbol = s then t.untimed :: tradesIn s ts else tradesIn s ts := by
  by_cases here : t.symbol = s
  · rw [if_pos here, tradesIn, List.filter_cons_of_pos (by rwa [decide_eq_true_eq])]
    rfl
  · rw [if_neg here, tradesIn, List.filter_cons_of_neg (by rwa [decide_eq_true_eq])]
    rfl

theorem tradesIn_of_ne {s : Symbol} {ts : List (Trade P)} (other : ∀ t ∈ ts, t.symbol ≠ s) :
    tradesIn s ts = [] := by
  refine List.map_eq_nil_iff.mpr (List.filter_eq_nil_iff.mpr fun t mem => ?_)
  rw [decide_eq_true_eq]
  exact other t mem

variable [Zero P] [Add P] [Sub P] [Mul P] [IntCast P]

theorem lastPrices_settleAll (s : Symbol) : ∀ (ts : List (Trade P)) (e : MatchingEngine P),
    (settleAll ts e).lastPrices.lookup s
      = (tradesIn s ts).foldl (fun _ t => some t.price) (e.lastPrices.lookup s)
  | [], _ => rfl
  | t :: ts, e => by
      rw [settleAll_cons, lastPrices_settleAll s ts, tradesIn_cons]
      by_cases here : t.symbol = s
      · subst here
        have now : (settleTrade e t).lastPrices.lookup t.symbol = some t.price :=
          AList.lookup_insert _
        rw [if_pos rfl, now]
        rfl
      · have kept : (settleTrade e t).lastPrices.lookup s = e.lastPrices.lookup s :=
          AList.lookup_insert_ne (Ne.symm here)
        rw [if_neg here, kept]

theorem portfolios_settleAll (ts : List (Trade P)) : ∀ {e e' : MatchingEngine P},
    e'.portfolios = e.portfolios → (settleAll ts e').portfolios = (settleAll ts e).portfolios := by
  induction ts with
  | nil => exact fun same => same
  | cons t ts ih =>
      intro e e' same
      rw [settleAll_cons, settleAll_cons]
      refine ih ?_
      change (settle t e').portfolios = (settle t e).portfolios
      rw [settle, settle, same]

variable [LT P] [DecidableLT P]

/-- The trades of some matches, one after the other. -/
def tradesAll (clock : Nat → Nat → Int) : Nat → List (Order P) → MatchingEngine P → List (Trade P)
  | _, [], _ => []
  | n, o :: orders, e =>
    (matchBook (clock n) o e).1 ++ tradesAll clock (n + 1) orders (matched (clock n) o e)

theorem tradesAll_core (clock : Nat → Nat → Int) : ∀ (n : Nat) (orders : List (Order P))
    (e : MatchingEngine P), tradesAll clock n orders e.core = tradesAll clock n orders e
  | _, [], _ => rfl
  | n, o :: orders, e => by
      rw [tradesAll, ← core_matched, tradesAll_core clock (n + 1) orders, core_matchBook, tradesAll]

/-- They are what a pass reports. -/
theorem trades_releaseAll (clock : Nat → Nat → Int) : ∀ (n : Nat) (orders : List (Order P))
    (e : MatchingEngine P), ((releaseAll clock n orders).exec e).1.flatMap SubmitResult.trades
      = tradesAll clock n orders e
  | _, [], _ => by rw [releaseAll, tradesAll]; rfl
  | n, o :: orders, e => by
      simp only [releaseAll, Prog.exec_bind, Prog.exec_pure]
      rw [List.flatMap_cons, trades_releaseAll clock (n + 1) orders, result_matchAndSettle,
        ← tradesAll_core, core_matchAndSettle, ← core_matched, tradesAll_core, tradesAll]

/-- A pass settles its trades. -/
theorem portfolios_matchedAll (clock : Nat → Nat → Int) : ∀ (n : Nat) (orders : List (Order P))
    (e : MatchingEngine P), (matchedAll clock n orders e).portfolios
      = (settleAll (tradesAll clock n orders e) e).portfolios
  | _, [], _ => rfl
  | n, o :: orders, e => by
      have split : ∀ ts us : List (Trade P), settleAll (ts ++ us) e
      = settleAll us (settleAll ts e) :=
        fun ts us => List.foldl_append
      rw [matchedAll, portfolios_matchedAll clock (n + 1) orders, tradesAll, split]
      exact portfolios_settleAll _ (portfolios_settleAll _ rfl)

end

end MatchingEngine

namespace EngineInvariant

variable {P : Type} [Zero P] [Add P] [Sub P] [Mul P] [IntCast P] [LT P] [DecidableLT P]
  {e : MatchingEngine P} {pending : List (Order P)} {o : Order P}

/-- **A match on its market**: the clock shows in the time stamps of trades only. -/
theorem market_matched (inv : EngineInvariant e (o :: pending)) (clock : Nat → Int) (s : Symbol)
    (ts : List (Trade P)) :
    (MatchingEngine.matched clock o e).market s (ts ++ tradesIn s (matchBook clock o e).1)
      = if o.symbol = s then (e.market s ts).matched o else e.market s ts := by
  have traded : ∀ t ∈ (matchBook clock o e).1, t.symbol = o.symbol := by
    intro t mem
    rw [inv.matchBook_trades] at mem
    obtain ⟨f, -, now, rfl⟩ := mem_fillTrades mem
    exact tradeOf_symbol ..
  have prices := lastPrices_settleAll s (matchBook clock o e).1 (matchBook clock o e).2
  rw [MatchingEngine.matched, market, prices, settleAll_books]
  by_cases here : o.symbol = s
  · subst here
    have all : (matchBook clock o e).1.filter (fun t => t.symbol = o.symbol)
        = (matchBook clock o e).1 :=
      List.filter_eq_self.mpr fun t mem => decide_eq_true (traded t mem)
    have untimed : tradesIn o.symbol (matchBook clock o e).1
        = ((e.bookFor o.symbol).matchOrder (fun _ => 0) o).1 := by
      rw [tradesIn, all]
      exact OrderBook.untimed_matchOrder ..
    have book : (matchBook clock o e).2.books.lookup o.symbol
        = some ((e.bookFor o.symbol).matchOrder (fun _ => 0) o).2 := by
      rw [OrderBook.matchOrder_clock _ (fun _ => 0) clock o]
      exact AList.lookup_insert _
    rw [if_pos rfl, untimed, book]
    rfl
  · have none : tradesIn s (matchBook clock o e).1 = [] :=
      tradesIn_of_ne fun t mem => by rwa [traded t mem]
    have book : (matchBook clock o e).2.books.lookup s = e.books.lookup s :=
      AList.lookup_insert_ne (Ne.symm here)
    rw [if_neg here, none, book, List.append_nil]
    rfl

/-- **The orders of a symbol decide its market.** -/
theorem market_matchedAll [IsStrictOrder P (· < ·)] (clock : Nat → Nat → Int) (s : Symbol)
    (orders : List (Order P)) :
    ∀ (n : Nat) {e : MatchingEngine P} (ts : List (Trade P)), EngineInvariant e orders →
      (MatchingEngine.matchedAll clock n orders e).market s
          (ts ++ tradesIn s (tradesAll clock n orders e))
        = (orders.filter fun o => o.symbol = s).foldl Market.matched (e.market s ts) := by
  induction orders with
  | nil =>
      intro n e ts inv
      rw [tradesAll, tradesIn_of_ne (by simp), List.append_nil]
      rfl
  | cons o orders ih =>
      intro n e ts inv
      rw [MatchingEngine.matchedAll, tradesAll, tradesIn_append, ← List.append_assoc,
        ih (n + 1) _ (inv.matched (clock n)), inv.market_matched]
      by_cases here : o.symbol = s
      · rw [if_pos here, List.filter_cons_of_pos (by rwa [decide_eq_true_eq]), List.foldl_cons]
      · rw [if_neg here, List.filter_cons_of_neg (by rwa [decide_eq_true_eq])]

end EngineInvariant

/-! ### What settlements do to holdings -/

section

variable {P : Type}

/-- The holdings of the clients, on lookups. -/
def MatchingEngine.holdings (e : MatchingEngine P) (client : ClientId) :
    Option (Symbol → Option Int) :=
  (e.portfolios.lookup client).map fun p s => p.holdings.lookup s

/-- The shares of a trade change hands. -/
def deliver (v : ClientId → Option (Symbol → Option Int)) (t : Trade P) :
    ClientId → Option (Symbol → Option Int) :=
  Table.touch t.seller (fun _ => none) (Table.touch t.symbol 0 (· + -t.quantity))
    (Table.touch t.buyer (fun _ => none) (Table.touch t.symbol 0 (· + t.quantity)) v)

/-- Deliveries may be swapped. -/
instance : RightCommutative (deliver (P := P)) where
  right_comm := by
    intro v t u
    have swap : ∀ (s s' : Symbol) (q q' : Int) (k k' : ClientId)
        (m : ClientId → Option (Symbol → Option Int)),
        Table.touch k (fun _ => none) (Table.touch s 0 (· + q))
            (Table.touch k' (fun _ => none) (Table.touch s' 0 (· + q')) m)
          = Table.touch k' (fun _ => none) (Table.touch s' 0 (· + q'))
            (Table.touch k (fun _ => none) (Table.touch s 0 (· + q)) m) := by
      intro s s' q q' k k' m
      exact Table.touch_comm (Table.touch_comm (fun v => add_right_comm v q' q) s s') k k' m
    unfold deliver
    -- the two legs of `u` go past the two legs of `t`
    rw [swap u.symbol t.symbol, swap u.symbol t.symbol, swap u.symbol t.symbol,
      swap u.symbol t.symbol]

variable [Zero P] [Add P] [Sub P] [Mul P] [IntCast P]

theorem MatchingEngine.holdings_settle (t : Trade P) (e : MatchingEngine P) :
    (settle t e).holdings = deliver e.holdings t := by
  have leg : ∀ (c : ClientId) (f : Portfolio P → Portfolio P) (q : Int)
      (m : Table ClientId (Portfolio P)),
      (∀ p, (f p).holdings = Table.update t.symbol 0 (· + q) p.holdings) →
      (fun k => ((Table.update c default f m).lookup k).map fun p s => p.holdings.lookup s)
        = Table.touch c (fun _ => none) (Table.touch t.symbol 0 (· + q))
            fun k => (m.lookup k).map fun p s => p.holdings.lookup s := by
    intro c f q m moved
    funext k
    rw [Table.lookup_update_eq_touch]
    unfold Table.touch
    by_cases here : k = c
    · subst here
      have owner : ((m.lookup k).map fun p s => p.holdings.lookup s).getD (fun _ => none)
          = fun s => ((m.lookup k).getD default).holdings.lookup s :=
        Option.getD_map (fun (p : Portfolio P) s => p.holdings.lookup s) default _
      rw [Function.update_self, Function.update_self, Option.map_some, moved, owner]
      exact congrArg some (funext (Table.lookup_update_eq_touch t.symbol 0 (· + q) _))
    · rw [Function.update_of_ne here, Function.update_of_ne here]
  have bought := leg t.buyer _ t.quantity e.portfolios fun p =>
    (rfl : (debit t.symbol ((t.quantity : P) * t.price) t.quantity p).holdings = _)
  have sold := leg t.seller _ (-t.quantity) (Table.update t.buyer default
    (debit t.symbol ((t.quantity : P) * t.price) t.quantity) e.portfolios) fun p =>
    (rfl : (credit t.symbol ((t.quantity : P) * t.price) t.quantity p).holdings = _)
  rw [bought] at sold
  exact sold

theorem MatchingEngine.holdings_settleAll : ∀ (ts : List (Trade P)) (e : MatchingEngine P),
    (settleAll ts e).holdings = ts.foldl deliver e.holdings
  | [], _ => rfl
  | t :: ts, e => by
      have first : (settleTrade e t).holdings = deliver e.holdings t := holdings_settle t e
      rw [settleAll_cons, holdings_settleAll ts, first, List.foldl_cons]

omit [Zero P] [Add P] [Sub P] [Mul P] [IntCast P] in
theorem foldl_deliver_untimed (ts : List (Trade P)) (v : ClientId → Option (Symbol → Option Int)) :
    (ts.map Trade.untimed).foldl deliver v = ts.foldl deliver v := by
  rw [List.foldl_map]
  rfl

end

/-! ### What settlements do to cash -/

/-- A client's cash is moved by its own trades only, whenever they happened. -/
theorem foldl_settleCash {client : ClientId} {s : Symbol} : ∀ {ts : List (Trade Double)},
    (∀ t ∈ ts, client = t.buyer ∨ client = t.seller → t.symbol = s) → ∀ cash : Double,
      ts.foldl (fun cash t => t.settleCash client cash) cash
        = (tradesIn s ts).foldl (fun cash t => t.settleCash client cash) cash
  | [], _, _ => rfl
  | t :: ts, own, cash => by
      have rest := foldl_settleCash fun u mem => own u (List.mem_cons_of_mem _ mem)
      rw [List.foldl_cons, rest, tradesIn_cons]
      by_cases here : t.symbol = s
      · rw [if_pos here]
        rfl
      · have stranger := mt (own t List.mem_cons_self) here
        rw [not_or] at stranger
        rw [if_neg here, Trade.settleCash_of_ne stranger.1 stranger.2]

/-! ### What the two scans take out -/

section

variable {P : Type}

/-- The part of a scan's report that comes from one symbol. -/
theorem RegistryInvariant.filter_symbol {r : OrderRegistry P} (inv : RegistryInvariant r)
    (orders : Symbol → IterationOrder Nat (Order P)) (test : Symbol → Order P → Bool) (k : Symbol)
    {symbols : List Symbol} (distinct : symbols.Nodup) :
    ((symbols.flatMap fun s => (r.walked (orders s) s).filter (test s)).filter
        fun o => o.symbol = k)
      = if k ∈ symbols then (r.walked (orders k) k).filter (test k) else [] := by
  induction symbols with
  | nil => rfl
  | cons s symbols ih =>
      obtain ⟨notMem, rest⟩ := List.nodup_cons.mp distinct
      rw [List.flatMap_cons, List.filter_append, ih rest]
      by_cases here : k = s
      · subst here
        have own : ((r.walked (orders k) k).filter (test k)).filter (fun o => o.symbol = k)
            = (r.walked (orders k) k).filter (test k) := by
          refine List.filter_eq_self.mpr fun o mem => ?_
          exact decide_eq_true (inv.mem_walked.mp (List.mem_filter.mp mem).1).2
        rw [own, if_neg notMem, if_pos List.mem_cons_self, List.append_nil]
      · have other : ((r.walked (orders s) s).filter (test s)).filter (fun o => o.symbol = k)
            = [] := by
          refine List.filter_eq_nil_iff.mpr fun o mem => ?_
          have symbol := (inv.mem_walked.mp (List.mem_filter.mp mem).1).2
          rw [symbol, decide_eq_true_eq]
          exact Ne.symm here
        rw [other, List.nil_append]
        simp only [List.mem_cons, here, false_or]

variable {e : MatchingEngine P}

/-- No waiting order has a start date or an expiry. -/
def Undated (e : MatchingEngine P) : Prop :=
  ∀ o ∈ e.waitingOrders, o.notBefore = none ∧ o.expiresAt = none

namespace Undated

variable [LE P]

/-- A scan then releases what is in its band and expires nothing, whatever the time. -/
theorem releasable (undated : Undated e) (registry : RegistryInvariant e.registry) {o : Order P}
    (waits : e.registry.Waits o) (now : Int) (price : P) :
    ¬o.isExpired now ∧ (o.isReleasable now price ↔ o.releaseBandContains price) ∧
      (o.leaves now price ↔ o.releaseBandContains price) := by
  obtain ⟨notBefore, expiresAt⟩ := undated o (registry.mem_allWaiting.mpr waits)
  have lasts : ¬o.isExpired now := by
    unfold Order.isExpired
    rw [expiresAt]
    exact not_false
  have started : o.isStarted now := by
    unfold Order.isStarted
    rw [notBefore]
    trivial
  have ready : o.isReleasable now price ↔ o.releaseBandContains price :=
    ⟨fun h => h.2.2, fun band => ⟨lasts, started, band⟩⟩
  exact ⟨lasts, ready, (or_iff_right lasts).trans ready⟩

variable [Zero P]

/-- A symbol that a pass does not scan has nothing to release. -/
theorem stays (undated : Undated e) (registry : RegistryInvariant e.registry) (quiet : Quiet e)
    (order : ReleaseOrder P) (fullScan : Bool) {o : Order P} (waits : e.registry.Waits o)
    (skipped : o.symbol ∉ e.scannedSymbols order fullScan) :
    ¬o.releaseBandContains (e.lastPrice o.symbol) := by
  cases fullScan with
  | true =>
      refine absurd ?_ skipped
      have all : e.scannedSymbols order true
          = (order.symbols.walk e.registry.waitingBySymbol).map fun entry => entry.1 := rfl
      rw [all]
      exact ((order.symbols.perm _).map _).mem_iff.mpr (mem_symbols_of_waits waits)
  | false =>
      rw [Quiet.mem_scannedSymbols] at skipped
      exact quiet o waits (undated o (registry.mem_allWaiting.mpr waits)).1 skipped

variable [DecidableLE P]

/-- **What a pass releases of one symbol** does not depend on the kind of the pass. -/
theorem released_symbol (undated : Undated e) (registry : RegistryInvariant e.registry)
    (quiet : Quiet e) (order : ReleaseOrder P) (now : Int) (fullScan : Bool) (k : Symbol) :
    (e.releaseScan order now fullScan).2.released.filter (fun o => o.symbol = k)
      = (e.registry.walked (order.bucket k) k).filter
          fun o => o.releaseBandContains (e.lastPrice k) := by
  have distinct := EngineInvariant.nodup_scannedSymbols order fullScan e
  have bands : (e.registry.walked (order.bucket k) k).filter
        (fun o => o.isReleasable now (e.lastPrice k))
      = (e.registry.walked (order.bucket k) k).filter
          fun o => o.releaseBandContains (e.lastPrice k) := by
    refine List.filter_congr fun o mem => ?_
    have waits := (registry.mem_walked.mp mem).1
    exact decide_eq_decide.mpr (undated.releasable registry waits now _).2.1
  rw [releaseScan, scanSymbols_result distinct, List.nil_append,
    registry.filter_symbol order.bucket (fun s o => decide (o.isReleasable now (e.lastPrice s))) k
      distinct, bands]
  by_cases scanned : k ∈ e.scannedSymbols order fullScan
  · rw [if_pos scanned]
  · rw [if_neg scanned, eq_comm, List.filter_eq_nil_iff]
    intro o mem
    obtain ⟨waits, rfl⟩ := registry.mem_walked.mp mem
    rw [decide_eq_true_eq]
    exact undated.stays registry quiet order fullScan waits scanned

theorem expired (undated : Undated e) (registry : RegistryInvariant e.registry)
    (order : ReleaseOrder P) (now : Int) (fullScan : Bool) :
    (e.releaseScan order now fullScan).2.expired = [] := by
  rw [releaseScan, scanSymbols_result (EngineInvariant.nodup_scannedSymbols order fullScan e)]
  refine List.flatMap_eq_nil_iff.mpr fun s mem => List.filter_eq_nil_iff.mpr fun o walked => ?_
  rw [decide_eq_true_eq]
  exact (undated.releasable registry (registry.mem_walked.mp walked).1 now 0).1

/-- **What a pass leaves waiting** does not depend on the kind of the pass. -/
theorem lookup_bucket (undated : Undated e) (registry : RegistryInvariant e.registry)
    (quiet : Quiet e) (order : ReleaseOrder P) (now : Int) (fullScan : Bool) (k : Symbol)
    (id : Nat) : ((e.releaseScan order now fullScan).1.bucket k).lookup id
      = ((e.registry.bucket k).lookup id).filter
          fun o => ¬o.releaseBandContains (e.lastPrice k) := by
  rw [releaseScan, lookup_bucket_scanSymbols id k
    (EngineInvariant.nodup_scannedSymbols order fullScan e)]
  cases look : (e.registry.bucket k).lookup id with
  | none =>
      split
      · rfl
      · rfl
  | some o =>
      obtain ⟨waits, rfl, rfl⟩ := registry.waits.mp look
      have leaves := (undated.releasable registry waits now (e.lastPrice o.symbol)).2.2
      by_cases scanned : o.symbol ∈ e.scannedSymbols order fullScan
      · rw [if_pos scanned]
        simp only [Option.filter, leaves]
      · have stays := undated.stays registry quiet order fullScan waits scanned
        rw [if_neg scanned]
        simp only [Option.filter, stays, not_false_eq_true, decide_true, if_true]

end Undated

end

/-! ### The two passes -/

/-- Two engines that cannot be told apart by looking up books, prices, holdings and
waiting orders. -/
structure Agree (e e' : MatchingEngine Double) : Prop where
  books : ∀ s, e.books.lookup s = e'.books.lookup s
  lastPrices : ∀ s, e.lastPrices.lookup s = e'.lastPrices.lookup s
  holdings : ∀ c, e.holdings c = e'.holdings c
  waiting : ∀ s id, (e.registry.bucket s).lookup id = (e'.registry.bucket s).lookup id
  index : ∀ id, e.registry.orderSymbolIndex.lookup id = e'.registry.orderSymbolIndex.lookup id

section

variable {e : MatchingEngine Double}

/-- The trades that the matches of a pass make. -/
def passTrades (order : ReleaseOrder Double) (now : Int) (clock : Nat → Nat → Int)
    (fullScan : Bool) (e : MatchingEngine Double) : List (Trade Double) :=
  tradesAll clock 0 (e.releaseScan order now fullScan).2.released
    (e.scanned order now fullScan)

theorem registry_released (order : ReleaseOrder Double) (now : Int) (clock : Nat → Nat → Int)
    (fullScan : Bool) : (e.released order now clock fullScan).registry
      = (e.releaseScan order now fullScan).1 := by
  have kept : ∀ (orders : List (Order Double)) (n : Nat) (e : MatchingEngine Double),
      (matchedAll clock n orders e).registry = e.registry := by
    intro orders
    induction orders with
    | nil => exact fun n e => rfl
    | cons o orders ih =>
        intro n e
        rw [matchedAll, ih (n + 1), matched, settleAll_registry]
        rfl
  exact kept _ 0 _

/-- The market of a symbol after a pass. -/
theorem market_released (inv : EngineInvariant e []) (undated : Undated e) (quiet : Quiet e)
    (order : ReleaseOrder Double) (now : Int) (clock : Nat → Nat → Int) (fullScan : Bool)
    (s : Symbol) : (e.released order now clock fullScan).market s
        (tradesIn s (passTrades order now clock fullScan e))
      = ((e.registry.walked (order.bucket s) s).filter
          fun o => o.releaseBandContains (e.lastPrice s)).foldl Market.matched (e.market s []) := by
  have matched := EngineInvariant.market_matchedAll clock s _ 0 [] (inv.scanned order now fullScan)
  rw [undated.released_symbol inv.registry quiet, List.nil_append] at matched
  exact matched

/-- Passes of either kind, at any times, make the same trades of each symbol and leave engines
that agree. -/
theorem agree_released (inv : EngineInvariant e []) (undated : Undated e) (quiet : Quiet e)
    (order : ReleaseOrder Double) (now now' : Int) (clock clock' : Nat → Nat → Int)
    (fullScan fullScan' : Bool) :
    (∀ s, tradesIn s (passTrades order now clock fullScan e)
      = tradesIn s (passTrades order now' clock' fullScan' e)) ∧
    Agree (e.released order now clock fullScan) (e.released order now' clock' fullScan') := by
  have markets : ∀ s, (e.released order now clock fullScan).market s
        (tradesIn s (passTrades order now clock fullScan e))
      = (e.released order now' clock' fullScan').market s
        (tradesIn s (passTrades order now' clock' fullScan' e)) := by
    intro s
    rw [market_released inv undated quiet, market_released inv undated quiet]
  have traded : ∀ s, tradesIn s (passTrades order now clock fullScan e)
      = tradesIn s (passTrades order now' clock' fullScan' e) := fun s =>
    congrArg Market.traded (markets s)
  have holdings : (e.released order now clock fullScan).holdings
      = (e.released order now' clock' fullScan').holdings := by
    have settled : ∀ now clock fullScan, (e.released order now clock fullScan).holdings
        = ((passTrades order now clock fullScan e).map Trade.untimed).foldl deliver e.holdings := by
      intro now clock fullScan
      rw [foldl_deliver_untimed, ← holdings_settleAll]
      funext c
      unfold MatchingEngine.holdings
      rw [released, portfolios_matchedAll]
      exact congrArg (fun t : Table ClientId (Portfolio Double) => (t.lookup c).map _)
        (portfolios_settleAll _ rfl)
    rw [settled, settled]
    refine List.Perm.foldl_eq (Independent.perm_of_filter_eq Trade.symbol fun s => ?_) _
    rw [List.filter_map, List.filter_map]
    exact traded s
  have waiting : ∀ s id, ((e.released order now clock fullScan).registry.bucket s).lookup id
      = ((e.released order now' clock' fullScan').registry.bucket s).lookup id := by
    intro s id
    rw [registry_released, registry_released, undated.lookup_bucket inv.registry quiet,
      undated.lookup_bucket inv.registry quiet]
  refine ⟨traded, ?_⟩
  constructor
  · exact fun s => congrArg Market.book (markets s)
  · exact fun s => congrArg Market.lastPrice (markets s)
  · exact congrFun holdings
  · exact waiting
  · intro id
    have known : ∀ now fullScan, RegistryInvariant (e.releaseScan order now fullScan).1 :=
      fun now fullScan => inv.registry.scanSymbols
    refine Option.ext fun s => ?_
    rw [registry_released, registry_released]
    simp only [registry_released] at waiting
    rw [(known now fullScan).index, (known now' fullScan').index, waiting]

/-- The result of a pass: the ids of what its scan released, their trades, and what it expired. -/
theorem result_tryReleaseWaitingOrders (order : ReleaseOrder Double) (now : Int)
    (clock : Nat → Nat → Int) (fullScan : Bool) (e : MatchingEngine Double) :
    let summary := ((tryReleaseWaitingOrders order now clock fullScan).exec e).1
    summary.released.map SubmitResult.orderId
        = (e.releaseScan order now fullScan).2.released.map Order.id ∧
      summary.released.flatMap SubmitResult.trades = passTrades order now clock fullScan e ∧
      summary.expired = (e.releaseScan order now fullScan).2.expired := by
  rw [exec_tryReleaseWaitingOrders]
  exact ⟨(result_releaseAll clock 0 _ _).1, trades_releaseAll clock 0 _ _, rfl⟩

end

/-- What a pass returned and the engine that it left. -/
abbrev Pass : Type :=
  ReleaseSummary Double × MatchingEngine Double

/-- The trades that a pass reports. -/
def Pass.trades (pass : Pass) : List (Trade Double) :=
  pass.1.released.flatMap SubmitResult.trades

/-- Two passes from one engine release the same, make the same trades of each symbol and leave
engines that agree. Cash is the balance before with each pass's own order of the additions. -/
structure SameRelease (e : MatchingEngine Double) (one two : Pass) : Prop where
  released : (one.1.released.map SubmitResult.orderId).Perm
    (two.1.released.map SubmitResult.orderId)
  expired : one.1.expired = [] ∧ two.1.expired = []
  agree : Agree one.2 two.2
  trades : ∀ s, tradesIn s one.trades = tradesIn s two.trades
  cash : ∀ c, one.2.balanceOf c
      = one.trades.foldl (fun cash t => t.settleCash c cash) (e.balanceOf c) ∧
    two.2.balanceOf c = two.trades.foldl (fun cash t => t.settleCash c cash) (e.balanceOf c)

namespace SameRelease

variable {e : MatchingEngine Double} {one two : Pass} {client : ClientId}

/-- A client that trades in one symbol has the same cash after both. -/
theorem cash_oneSymbol (same : SameRelease e one two) {s : Symbol}
    (own : ∀ t ∈ one.trades, client = t.buyer ∨ client = t.seller → t.symbol = s)
    (own' : ∀ t ∈ two.trades, client = t.buyer ∨ client = t.seller → t.symbol = s) :
    one.2.balanceOf client = two.2.balanceOf client := by
  rw [(same.cash client).1, (same.cash client).2, foldl_settleCash own, foldl_settleCash own',
    same.trades]

theorem perm_trades (same : SameRelease e one two) :
    (one.trades.map Trade.untimed).Perm (two.trades.map Trade.untimed) := by
  refine Independent.perm_of_filter_eq Trade.symbol fun s => ?_
  rw [List.filter_map, List.filter_map]
  exact same.trades s

/-- So has a client whose settlements do not round. -/
theorem cash_exact (same : SameRelease e one two) (fin : (e.balanceOf client).IsFinite)
    (exact : ExactlySettled client one.trades (e.balanceOf client))
    (exact' : ExactlySettled client two.trades (e.balanceOf client)) :
    one.2.balanceOf client = two.2.balanceOf client := by
  obtain ⟨fin₁, value₁⟩ := exact.foldl fin
  obtain ⟨fin₂, value₂⟩ := exact'.foldl fin
  have untimed : ∀ ts : List (Trade Double), ts.map (fun t : Trade Double => t.changeFor client)
      = (ts.map Trade.untimed).map fun t : Trade Double => t.changeFor client := by
    intro ts
    rw [List.map_map]
    rfl
  have sums : (one.trades.map fun t : Trade Double => t.changeFor client).sum
      = (two.trades.map fun t : Trade Double => t.changeFor client).sum := by
    rw [untimed, untimed two.trades]
    exact (same.perm_trades.map _).sum_eq
  rw [(same.cash client).1, (same.cash client).2, fin₁.eq_value, fin₂.eq_value, value₁, value₂,
    sums]

end SameRelease

theorem Agree.of_core {e e' f f' : MatchingEngine Double} (agree : Agree e f)
    (same : e'.core = e.core) (same' : f'.core = f.core) : Agree e' f' := by
  have cores : Agree e.core f.core := ⟨agree.1, agree.2, agree.3, agree.4, agree.5⟩
  rw [← same, ← same'] at cores
  exact ⟨cores.1, cores.2, cores.3, cores.4, cores.5⟩

/-- The cash after a pass. -/
theorem balanceOf_tryReleaseWaitingOrders (order : ReleaseOrder Double) (now : Int)
    (clock : Nat → Nat → Int) (fullScan : Bool) (e : MatchingEngine Double) (c : ClientId) :
    let pass : Pass := (tryReleaseWaitingOrders order now clock fullScan).exec e
    pass.2.balanceOf c
      = pass.trades.foldl (fun cash t => t.settleCash c cash) (e.balanceOf c) := by
  intro pass
  have trades : pass.trades = passTrades order now clock fullScan e :=
    (result_tryReleaseWaitingOrders order now clock fullScan e).2.1
  have after := congrArg MatchingEngine.portfolios
    (core_tryReleaseWaitingOrders order now clock fullScan e)
  have settled : pass.2.portfolios
      = (settleAll (passTrades order now clock fullScan e) e).portfolios := by
    have moved : (e.released order now clock fullScan).portfolios = _ :=
      portfolios_matchedAll clock 0 (e.releaseScan order now fullScan).2.released
        (e.scanned order now fullScan)
    exact (after.trans moved).trans (portfolios_settleAll _ rfl)
  rw [trades, ← balanceOf_settleAll]
  exact congrArg (fun t : Table ClientId (Portfolio Double) => ((t.lookup c).getD default).cash)
    settled

/-- **The scan of the dirty symbols misses nothing**: from every state of a run in
which no waiting order has dates, a pass over the dirty symbols and a full pass
release the same orders, make the same trades of each symbol and leave engines that agree. -/
theorem partial_scan_complete (setup : List (SetupCall Double)) (calls : List (EngineCall Double))
    (undated : Undated ((setUp setup).run calls)) (order : ReleaseOrder Double) (now now' : Int)
    (clock clock' : Nat → Nat → Int) :
    SameRelease ((setUp setup).run calls)
      ((tryReleaseWaitingOrders order now clock false).exec ((setUp setup).run calls))
      ((tryReleaseWaitingOrders order now' clock' true).exec ((setUp setup).run calls)) := by
  have idle := idle_setUp setup
  have inv : EngineInvariant ((setUp setup).run calls) [] :=
    EngineInvariant.run calls idle.invariant
  have quiet : Quiet ((setUp setup).run calls) :=
    Quiet.run calls idle.invariant (Quiet.of_idle idle)
  generalize (setUp setup).run calls = e at undated inv quiet
  obtain ⟨ids, trades, expired⟩ := result_tryReleaseWaitingOrders order now clock false e
  obtain ⟨ids', trades', expired'⟩ := result_tryReleaseWaitingOrders order now' clock' true e
  have same : ∀ k, (e.releaseScan order now false).2.released.filter (fun o => o.symbol = k)
      = (e.releaseScan order now' true).2.released.filter (fun o => o.symbol = k) := by
    intro k
    rw [undated.released_symbol inv.registry quiet, undated.released_symbol inv.registry quiet]
  obtain ⟨traded, agree⟩ := agree_released inv undated quiet order now now' clock clock' false true
  refine ⟨?_, ⟨?_, ?_⟩, ?_, fun s => ?_, fun c => ⟨?_, ?_⟩⟩
  · rw [ids, ids']
    exact (Independent.perm_of_filter_eq _ same).map Order.id
  · exact expired.trans (undated.expired inv.registry order now false)
  · exact expired'.trans (undated.expired inv.registry order now' true)
  · exact agree.of_core (core_tryReleaseWaitingOrders order now clock false e)
      (core_tryReleaseWaitingOrders order now' clock' true e)
  · rw [Pass.trades, trades, Pass.trades, trades']
    exact traded s
  · exact balanceOf_tryReleaseWaitingOrders order now clock false e c
  · exact balanceOf_tryReleaseWaitingOrders order now' clock' true e c

/-- Tables are walked in the order they are stored. -/
def storedOrder {P : Type} : ReleaseOrder P where
  symbols := .stored
  bucket := fun _ => .stored
  dirty := .stored

/-- Two symbols, a client with cash 1 and one with shares of both. -/
def twoCheapSymbols : List (SetupCall Double) :=
  [.registerSymbol "AAPL" (.finite 1), .registerSymbol "MSFT" (.finite 1),
    .ensureClient 1 (.finite 1), .ensureClient 2 (.finite 0), .grantInitialHoldings 2 "AAPL" 10,
    .grantInitialHoldings 2 "MSFT" 10, .ensureClient 3 (.finite 10)]

/-- A BUY that waits until the price is at most a half. -/
def waitingBuy (symbol : Symbol) (price : Double) : OrderRequest Double :=
  { request 1 .buy .limitStop symbol 1 price with triggerUpper := some 0.5 }

/-- Two orders wait, and trades take both prices down. -/
def bothTriggered : List (EngineCall Double) :=
  [.submitOrder 0 (fun _ => 0) (waitingBuy "AAPL" 0.3),
    .submitOrder 0 (fun _ => 0) (waitingBuy "MSFT" 0.1),
    .submitOrder 0 (fun _ => 0) (request 2 .sell .limit "MSFT" 2 0.1),
    .submitOrder 0 (fun _ => 0) (request 3 .buy .limit "MSFT" 1 0.1),
    .submitOrder 0 (fun _ => 0) (request 2 .sell .limit "AAPL" 2 0.3),
    .submitOrder 0 (fun _ => 0) (request 3 .buy .limit "AAPL" 1 0.3)]

theorem undated_bothTriggered : Undated ((setUp twoCheapSymbols).run bothTriggered) := by
  unfold Undated
  decide +kernel

theorem partial_scan_complete_bothTriggered :
    let e := (setUp twoCheapSymbols).run bothTriggered
    let dirty := (tryReleaseWaitingOrders storedOrder 1 (fun _ _ => 1) false).exec e
    let full := (tryReleaseWaitingOrders storedOrder 2 (fun _ _ => 2) true).exec e
    SameRelease e dirty full ∧ dirty.1.released.map SubmitResult.orderId = [1, 2] ∧
      full.1.released.map SubmitResult.orderId = [2, 1] :=
  ⟨partial_scan_complete twoCheapSymbols bothTriggered undated_bothTriggered storedOrder 1 2
    (fun _ _ => 1) (fun _ _ => 2), by decide +kernel, by decide +kernel⟩

/-- **The cash may differ**: one pass computes `1 - 0.3 - 0.1`, the other one
`1 - 0.1 - 0.3`. -/
theorem passes_round_apart : ¬∀ (setup : List (SetupCall Double))
    (calls : List (EngineCall Double)),
    Undated ((setUp setup).run calls) → ∀ (order : ReleaseOrder Double) (now now' : Int)
      (clock clock' : Nat → Nat → Int) (client : ClientId),
      ((tryReleaseWaitingOrders order now clock false).exec
          ((setUp setup).run calls)).2.balanceOf client
        = ((tryReleaseWaitingOrders order now' clock' true).exec
          ((setUp setup).run calls)).2.balanceOf client := by
  intro claim
  have same := claim twoCheapSymbols bothTriggered undated_bothTriggered storedOrder 1 2
    (fun _ _ => 1) (fun _ _ => 2) 1
  have differ : ((tryReleaseWaitingOrders storedOrder 1 (fun _ _ => 1) false).exec
        ((setUp twoCheapSymbols).run bothTriggered)).2.balanceOf 1
      ≠ ((tryReleaseWaitingOrders storedOrder 2 (fun _ _ => 2) true).exec
        ((setUp twoCheapSymbols).run bothTriggered)).2.balanceOf 1 := by
    decide +kernel
  exact differ same

end StockMarket
