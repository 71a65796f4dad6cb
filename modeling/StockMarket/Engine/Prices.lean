import StockMarket.Double
import StockMarket.Engine.OpenOrders

/-!
Which prices there are in an engine.

Prices come in with orders. If every priced order that is admitted has a price of some kind
(`Good`), so do the levels of the books and all orders that rest, wait or are on their way
(`PricesAre.run`); and where no two such prices are incomparable, every order rests in the
level of its own price (`AtOwnPrice`).
-/

namespace StockMarket

open MatchingEngine

variable {P : Type}

/-- All prices in the books, and those of the priced orders that wait or are on their way,
are of one kind. -/
structure PricesAre (Good : P → Prop) (e : MatchingEngine P) (pending : List (Order P)) : Prop where
  resting : ∀ o ∈ e.allResting, Good o.price
  levels : ∀ s t, ∀ l ∈ (e.bookFor s).levels t, Good l.price
  arriving : ∀ o ∈ pending ++ e.waitingOrders, o.kind ≠ .market → Good o.price

namespace PricesAre

section

variable {Good : P → Prop} {e e' : MatchingEngine P} {pending pending' : List (Order P)}
  {o : Order P}

/-- The order that rests in a level. -/
theorem of_resting (prices : PricesAre Good e pending) {s : Symbol} {t : Side}
    (mem : o ∈ restingIn ((e.bookFor s).levels t)) : Good o.price :=
  prices.resting o (mem_allResting.mpr ⟨s, mem_restingOrders.mpr ⟨t, mem⟩⟩)

/-- A priced open order. -/
theorem of_open (prices : PricesAre Good e pending) (mem : o ∈ e.openOrders pending)
    (priced : o.kind ≠ .market) : Good o.price := by
  rcases List.mem_append.mp mem with mem | mem
  · exact prices.arriving o (List.mem_append_left _ mem) priced
  · rcases List.mem_append.mp mem with mem | mem
    · exact prices.resting o mem
    · exact prices.arriving o (List.mem_append_right _ mem) priced

/-- Counters and published events do not matter. -/
theorem of_core (prices : PricesAre Good e pending) (same : e'.core = e.core) :
    PricesAre Good e' pending := by
  have core : PricesAre Good e.core pending := ⟨prices.resting, prices.levels, prices.arriving⟩
  rw [← same] at core
  exact ⟨core.resting, core.levels, core.arriving⟩

/-- Fewer orders wait or are on their way. -/
theorem mono (prices : PricesAre Good e pending) (books : e'.books = e.books)
    (arriving : ∀ r ∈ pending' ++ e'.waitingOrders, r ∈ pending ++ e.waitingOrders) :
    PricesAre Good e' pending' where
  resting := by
    unfold allResting
    rw [books]
    exact prices.resting
  levels := by
    unfold bookFor
    rw [books]
    exact prices.levels
  arriving := fun r mem => prices.arriving r (arriving r mem)

/-- An order with such a price is on its way. -/
theorem arrive (prices : PricesAre Good e []) (priced : o.kind ≠ .market → Good o.price) :
    PricesAre Good e.withId [o] := by
  refine ⟨prices.resting, prices.levels, fun r mem => ?_⟩
  rcases List.mem_cons.mp mem with rfl | waits
  · exact priced
  · exact prices.arriving r waits

/-- A set-up engine has no prices in its books. -/
theorem of_idle (idle : Idle e) : PricesAre Good e [] where
  resting := by
    intro o mem
    have opened : o ∈ e.openOrders [] := List.mem_append_right _ (List.mem_append_left _ mem)
    rw [idle.openOrders] at opened
    cases opened
  levels := by
    intro s t l mem
    rw [idle.book s] at mem
    cases t <;> cases mem
  arriving := by
    intro o mem
    have opened : o ∈ e.openOrders [] := List.mem_append_right _ (List.mem_append_right _ mem)
    rw [idle.openOrders] at opened
    cases opened

end

/-! ### Moves -/

section

variable [LT P] [DecidableLT P] {Good : P → Prop} {e : MatchingEngine P}
  {pending : List (Order P)} {o : Order P}

section

variable [Zero P] [Add P] [Sub P] [Mul P] [IntCast P]

omit [Zero P] [Add P] [Sub P] [Mul P] [IntCast P] in
/-- A match trades at the keys of the book. -/
theorem traded {pending' : List (Order P)} (prices : PricesAre Good e pending)
    (inv : EngineInvariant e pending') (o : Order P) (clock : Nat → Int) :
    ∀ t ∈ (matchBook clock o e).1, Good t.price := by
  intro t mem
  rw [inv.matchBook_trades] at mem
  obtain ⟨f, hf, now, rfl⟩ := mem_fillTrades mem
  obtain ⟨l, hl, same, -⟩ := inv.mem_fillFor hf
  rw [tradeOf_price, ← same]
  exact prices.levels _ _ l hl

/-- **A match** rests a priced order. -/
theorem matched (prices : PricesAre Good e (o :: pending)) (clock : Nat → Int) :
    PricesAre Good (matched clock o e) pending := by
  have priced : o.kind ≠ .market → Good o.price := prices.arriving o List.mem_cons_self
  refine ⟨fun r mem => ?_, fun s t l mem => ?_, fun r mem => ?_⟩
  · obtain ⟨s, mem⟩ := mem_allResting.mp mem
    rw [bookFor_matched] at mem
    by_cases here : s = o.symbol
    · subst here
      rw [bookFor_withBook] at mem
      obtain ⟨t, mem⟩ := mem_restingOrders.mp mem
      rcases mem_restingIn_matchOrder mem with ⟨-, kind, q, -, rfl⟩ | ⟨r', mem', q, -, rfl⟩
      · exact priced kind
      · exact prices.of_resting (o := r') mem'
    · rw [bookFor_withBook_ne _ _ _ here] at mem
      exact prices.resting r (mem_allResting.mpr ⟨s, mem⟩)
  · rw [bookFor_matched] at mem
    by_cases here : s = o.symbol
    · subst here
      rw [bookFor_withBook] at mem
      rcases price_of_mem_matchOrder mem with ⟨kind, same⟩ | ⟨l', mem', same⟩
      · exact same ▸ priced kind
      · exact same ▸ prices.levels _ _ l' mem'
    · rw [bookFor_withBook_ne _ _ _ here] at mem
      exact prices.levels s t l mem
  · rw [waitingOrders_matched] at mem
    exact prices.arriving r (List.mem_cons_of_mem _ mem)

theorem matchedAll (clock : Nat → Nat → Int) (orders : List (Order P)) :
    ∀ (n : Nat) {e : MatchingEngine P}, PricesAre Good e orders →
      PricesAre Good (matchedAll clock n orders e) [] := by
  induction orders with
  | nil => exact fun n e prices => prices
  | cons o orders ih => exact fun n e prices => ih (n + 1) (prices.matched (clock n))

end

omit [DecidableLT P] in
/-- A scan makes waiting orders pending. -/
theorem scanned [Zero P] [LE P] [DecidableLE P] (prices : PricesAre Good e [])
    (inv : EngineInvariant e []) (order : ReleaseOrder P) (now : Int) (fullScan : Bool) :
    PricesAre Good (e.scanned order now fullScan)
      (e.releaseScan order now fullScan).2.released := by
  have split := (inv.releaseScan_exact order now fullScan).split
  refine prices.mono rfl fun r mem => split.mem_iff.mpr ?_
  rcases List.mem_append.mp mem with released | waits
  · exact List.mem_append_right _ (List.mem_append_left _ released)
  · exact List.mem_append_left _ waits

omit [LT P] [DecidableLT P] in
/-- A cancellation in a book leaves no new price. -/
theorem cancelledIn (prices : PricesAre Good e []) {s : Symbol} {id : Nat}
    {f : OrderBook P → Bool × OrderBook P}
    (one : CancelsOne id (e.bookFor s) (f (e.bookFor s))) :
    PricesAre Good (e.cancelledIn s f).2 [] := by
  have book : (∀ t, ∀ r ∈ restingIn ((f (e.bookFor s)).2.levels t), Good r.price) ∧
      ∀ t, ∀ l ∈ (f (e.bookFor s)).2.levels t, Good l.price := by
    rcases one with none | ⟨side, ls', removed, found⟩
    · rw [none]
      exact ⟨fun t r mem => prices.of_resting mem, prices.levels s⟩
    · rw [found]
      refine ⟨fun t r mem => prices.of_resting (removed.subset t mem), fun t l mem => ?_⟩
      obtain ⟨l', mem', same⟩ := removed.level t mem
      exact same ▸ prices.levels s t l' mem'
  unfold MatchingEngine.cancelledIn
  split
  · refine ⟨fun r mem => ?_, fun t side l mem => ?_, prices.arriving⟩
    · obtain ⟨t, mem⟩ := mem_allResting.mp mem
      have there : r ∈ ((e.withBook s (f (e.bookFor s)).2).bookFor t).restingOrders := mem
      by_cases here : t = s
      · subst here
        rw [bookFor_withBook] at there
        obtain ⟨side, rests⟩ := mem_restingOrders.mp there
        exact book.1 side r rests
      · rw [bookFor_withBook_ne _ _ _ here] at there
        exact prices.resting r (mem_allResting.mpr ⟨t, there⟩)
    · have there : l ∈ ((e.withBook s (f (e.bookFor s)).2).bookFor t).levels side := mem
      by_cases here : t = s
      · subst here
        rw [bookFor_withBook] at there
        exact book.2 side l there
      · rw [bookFor_withBook_ne _ _ _ here] at there
        exact prices.levels t side l there
  · exact prices

end



/-! ### Runs -/

section

variable [Zero P] [Add P] [Sub P] [Mul P] [IntCast P] [LT P] [DecidableLT P] [LE P] [DecidableLE P]
  [OfScientific P] [IsStrictOrder P (· < ·)] {Good : P → Prop} {e : MatchingEngine P}

/-- **A call** whose priced order has such a price, if it passes the checks. -/
theorem effect (prices : PricesAre Good e []) (inv : EngineInvariant e []) {call : EngineCall P}
    (good : ∀ now clock request, call = .submitOrder now clock request → e.Admits request →
      request.kind ≠ .market → Good request.price) : PricesAre Good (call.effect e) [] := by
  cases call with
  | submitOrder now clock request =>
      rw [EngineCall.effect]
      have arrive : e.Admits request →
          PricesAre Good e.withId [buildOrder request e.nextOrderId now] :=
        fun admits => prices.arrive (good now clock request rfl admits)
      rcases submitted_cases now clock request e with ⟨admits, -, eq⟩ | ⟨admits, -, eq⟩ | ⟨-, eq⟩
      · rw [eq]
        exact (arrive admits).matched clock
      · rw [eq]
        have queued := (inv.admitted now admits).waitingOrders_enqueue
        exact (arrive admits).mono rfl fun r mem => queued.mem_iff.mp mem
      · rw [eq]
        exact prices.mono rfl fun r mem => mem
  | tryReleaseWaitingOrders order now clock fullScan =>
      exact (prices.scanned inv order now fullScan).matchedAll clock _ 0
  | cancelOrderAt symbol side price orderId =>
      exact prices.cancelledIn (cancelAtPrice_one (e.bookFor symbol) side price orderId)
  | cancelOrder symbol orderId =>
      exact prices.cancelledIn (cancel_one (inv.book symbol) orderId)
  | cancelWaitingOrder orderId =>
      exact prices.mono rfl fun _ mem => inv.registry.cancel_subset orderId mem

/-- The guard of `submit_order` keeps every price that is not positive out of the engine. -/
theorem run_guard (calls : List (EngineCall P)) : ∀ {e : MatchingEngine P},
    PricesAre (fun price => ¬price ≤ 0) e [] → EngineInvariant e [] →
      PricesAre (fun price => ¬price ≤ 0) (e.run calls) [] := by
  induction calls with
  | nil => exact fun prices inv => prices
  | cons call calls ih =>
      intro e prices inv
      have guarded : PricesAre (fun price => ¬price ≤ 0) (call.effect e) [] :=
        prices.effect inv fun now clock request _ admits kind =>
          (EngineInvariant.valid_of_admits admits).2.1 kind
      exact ih (guarded.of_core (core_apply e call)) (inv.apply call)

end

end PricesAre

/-! ### Orders in the level of their price -/

/-- Every order rests in the level of its own price. -/
def OrderBook.AtOwnPrice (b : OrderBook P) : Prop :=
  ∀ s, ∀ l ∈ b.levels s, ∀ o ∈ l.queue, o.price = l.price

section

variable [LT P] {Good : P → Prop} {b : OrderBook P}

/-- Two prices of the kind are comparable. -/
def Comparable (Good : P → Prop) : Prop :=
  ∀ x y, Good x → Good y → ¬x < y → ¬y < x → x = y

theorem comparable_isPositive : Comparable Double.IsPositive :=
  fun _ _ hx hy => hx.1.eq_of_not_lt hy.1

omit [LT P] in
theorem OrderBook.AtOwnPrice.removed (own : b.AtOwnPrice) {s : Side} {id : Nat}
    {ls' : List (Level P)} (removed : Removed id (b.levels s) ls') :
    (b.setLevels s ls').AtOwnPrice := by
  intro s' l' mem o ho
  by_cases here : s' = s
  · subst here
    rw [OrderBook.levels_setLevels] at mem
    obtain ⟨l, hl, key, rfl | ⟨-, sub⟩⟩ := removed.mem mem
    · exact own s' l' hl o ho
    · rw [key]
      exact own s' l hl o (sub.subset ho)
  · rw [OrderBook.levels_setLevels_of_ne _ here] at mem
    exact own s' l' mem o ho

/-- **A match** puts the order into the level of its price, if prices are comparable. -/
theorem OrderBook.AtOwnPrice.matchOrder [DecidableLT P] (own : b.AtOwnPrice)
    (comparable : Comparable Good) (levels : ∀ s, ∀ l ∈ b.levels s, Good l.price)
    {incoming : Order P} (priced : incoming.kind ≠ .market → Good incoming.price)
    (clock : Nat → Int) : (b.matchOrder clock incoming).2.AtOwnPrice := by
  intro s l' mem o ho
  by_cases side : s = incoming.side
  · subst side
    rw [OrderBook.matchOrder_levels_side] at mem
    dsimp only at mem
    split at mem
    · rename_i rests
      have good := priced rests.2
      rcases mem_pushBack mem with old | rfl | ⟨l, hl, h, h', rfl⟩
      · exact own _ l' old o ho
      · rw [List.mem_singleton.mp ho]
      · rcases List.mem_append.mp ho with old | new
        · exact own _ l hl o old
        · rw [List.mem_singleton.mp new]
          have known := levels _ l hl
          cases side : incoming.side with
          | buy =>
              rw [side] at h h'
              exact comparable _ _ good known h h'
          | sell =>
              rw [side] at h h'
              exact comparable _ _ good known h' h
    · exact own _ l' mem o ho
  · obtain rfl := Side.eq_opposite_of_ne side
    rw [OrderBook.matchOrder_levels_opposite] at mem
    obtain ⟨l, hl, same, rfl | ⟨-, spec⟩⟩ := mem_matchLevels_left mem
    · exact own _ l' hl o ho
    · rw [same]
      rcases spec o ho with old | ⟨r, hr, a, -, -, rfl⟩
      · exact own _ l hl o old
      · exact own _ l hl r hr

/-- Every order of every book rests in the level of its own price. -/
def OwnPrices (e : MatchingEngine P) : Prop :=
  ∀ s, (e.bookFor s).AtOwnPrice

namespace OwnPrices

variable {e : MatchingEngine P} {pending : List (Order P)} {o : Order P}

omit [LT P] in
theorem of_idle (idle : Idle e) : OwnPrices e := by
  intro s t l mem
  rw [idle.book s] at mem
  cases t <;> cases mem

omit [LT P] in
theorem cancelledIn (own : OwnPrices e) {s : Symbol} {id : Nat}
    {f : OrderBook P → Bool × OrderBook P}
    (one : CancelsOne id (e.bookFor s) (f (e.bookFor s))) : OwnPrices (e.cancelledIn s f).2 := by
  have book : (f (e.bookFor s)).2.AtOwnPrice := by
    rcases one with none | ⟨side, ls', removed, found⟩
    · rw [none]
      exact own s
    · rw [found]
      exact (own s).removed removed
  intro t
  unfold MatchingEngine.cancelledIn
  split
  · by_cases here : t = s
    · subst here
      exact (bookFor_withBook e t _).symm ▸ book
    · exact (bookFor_withBook_ne e s _ here).symm ▸ own t
  · exact own t

variable [DecidableLT P] [Zero P] [Add P] [Sub P] [Mul P] [IntCast P]

theorem matched (own : OwnPrices e) (comparable : Comparable Good)
    (prices : PricesAre Good e (o :: pending)) (clock : Nat → Int) :
    OwnPrices (MatchingEngine.matched clock o e) := by
  intro s
  rw [bookFor_matched]
  by_cases here : s = o.symbol
  · subst here
    rw [bookFor_withBook]
    exact (own o.symbol).matchOrder comparable (prices.levels o.symbol)
      (prices.arriving o List.mem_cons_self) clock
  · rw [bookFor_withBook_ne _ _ _ here]
    exact own s

end OwnPrices

end

/-! ### Quantities -/

namespace EngineInvariant

variable [LT P] [DecidableLT P] {e : MatchingEngine P} {pending : List (Order P)} {o r : Order P}

/-- A match takes no more of an order than there is. -/
theorem fill_le (inv : EngineInvariant e pending) {f : (P × Order P) × Int}
    (mem : f ∈ e.fillFor o) : f.2 ≤ f.1.2.quantity := by
  refine (Greedy.amount_bounds (fun x hx => ?_) mem).2.2
  obtain ⟨l, hl, -, hq⟩ := mem_entries.mp hx
  exact (inv.book o.symbol).positive x.2 (mem_restingOrders.mpr
    ⟨_, mem_restingIn.mpr ⟨l, List.takeWhile_subset _ hl, hq⟩⟩)

/-- What rests after a match has no more quantity than before. -/
theorem resting_le (inv : EngineInvariant e (o :: pending)) (clock : Nat → Int) {t : Side}
    (mem : r ∈ restingIn (((e.bookFor o.symbol).matchOrder clock o).2.levels t)) :
    (o.kind ≠ .market ∧ ∃ q ≤ o.quantity, r = o.withQuantity q) ∨
      ∃ r' ∈ restingIn ((e.bookFor o.symbol).levels t), ∃ q ≤ r'.quantity,
        r = r'.withQuantity q := by
  have unchanged : ∀ r : Order P, r = r.withQuantity r.quantity := fun _ => rfl
  by_cases own : t = o.side
  · subst own
    rw [OrderBook.matchOrder_levels_side] at mem
    dsimp only at mem
    split at mem
    · rename_i rests
      rcases List.mem_cons.mp ((restingIn_pushBack _).subset mem) with rfl | old
      · refine .inl ⟨rests.2, _, ?_, rfl⟩
        have taken : 0 ≤ filledOf o.side o ((e.bookFor o.symbol).levels o.side.opposite) := by
          refine List.sum_nonneg fun n hn => ?_
          obtain ⟨f, hf, rfl⟩ := List.mem_map.mp hn
          obtain ⟨-, -, -, -, -, pos⟩ := inv.mem_fillFor (f := f) hf
          exact pos.le
        omega
      · exact .inr ⟨r, old, r.quantity, le_rfl, unchanged r⟩
    · exact .inr ⟨r, mem, r.quantity, le_rfl, unchanged r⟩
  · obtain rfl := Side.eq_opposite_of_ne own
    rw [OrderBook.matchOrder_levels_opposite] at mem
    obtain ⟨l', hl', hr⟩ := mem_restingIn.mp mem
    obtain ⟨l, hl, -, rfl | ⟨-, spec⟩⟩ := mem_matchLevels_left hl'
    · exact .inr ⟨r, mem_restingIn.mpr ⟨l', hl, hr⟩, r.quantity, le_rfl, unchanged r⟩
    · rcases spec r hr with old | ⟨r', hr', a, pos, -, eq⟩
      · exact .inr ⟨r, mem_restingIn.mpr ⟨l, hl, old⟩, r.quantity, le_rfl, unchanged r⟩
      · exact .inr ⟨r', mem_restingIn.mpr ⟨l, hl, hr'⟩, _, by omega, eq⟩

end EngineInvariant

end StockMarket
