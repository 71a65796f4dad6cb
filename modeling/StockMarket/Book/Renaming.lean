import StockMarket.Book.Sweep

/-!
Matching looks at neither ids nor dates.

A map of orders that keeps the client, the terms and the quantity may be applied before a match
or after it (`matchOrder_map`): the book is the same, and the trades settle in the same way. In
particular the book after a match does not depend on the clock (`matchOrder_clock`).
-/

namespace StockMarket

variable {P : Type}

/-- The map changes ids and dates at most. -/
structure KeepsTerms (f : Order P → Order P) : Prop where
  client : ∀ o, (f o).client = o.client
  side : ∀ o, (f o).side = o.side
  kind : ∀ o, (f o).kind = o.kind
  symbol : ∀ o, (f o).symbol = o.symbol
  quantity : ∀ o, (f o).quantity = o.quantity
  price : ∀ o, (f o).price = o.price
  withQuantity : ∀ o q, f (o.withQuantity q) = (f o).withQuantity q

theorem KeepsTerms.id : KeepsTerms (id : Order P → Order P) :=
  ⟨fun _ => rfl, fun _ => rfl, fun _ => rfl, fun _ => rfl, fun _ => rfl, fun _ => rfl,
    fun _ _ => rfl⟩

/-- The level with other orders. -/
def Level.map (f : Order P → Order P) (l : Level P) : Level P :=
  { l with queue := l.queue.map f }

/-- The book with other orders. -/
def OrderBook.map (f : Order P → Order P) (b : OrderBook P) : OrderBook P where
  symbol := b.symbol
  bids := b.bids.map (Level.map f)
  asks := b.asks.map (Level.map f)

@[simp] theorem OrderBook.levels_map (f : Order P → Order P) (b : OrderBook P) (s : Side) :
    (b.map f).levels s = (b.levels s).map (Level.map f) := by
  cases s <;> rfl

theorem OrderBook.map_setLevels (f : Order P → Order P) (b : OrderBook P) (s : Side)
    (ls : List (Level P)) :
    (b.setLevels s ls).map f = (b.map f).setLevels s (ls.map (Level.map f)) := by
  cases s <;> rfl

theorem Level.map_id (l : Level P) : l.map id = l := by
  rw [Level.map, List.map_id]

theorem OrderBook.map_id (b : OrderBook P) : b.map id = b := by
  have levels : Level.map (id : Order P → Order P) = id := funext Level.map_id
  rw [OrderBook.map, levels, List.map_id, List.map_id]

theorem Level.map_congr {f g : Order P → Order P} {l : Level P} (same : ∀ o ∈ l.queue, f o = g o) :
    l.map f = l.map g := by
  rw [Level.map, Level.map, List.map_congr_left same]

/-- The two maps agree on the orders of the book. -/
theorem OrderBook.map_congr {f g : Order P → Order P} {b : OrderBook P}
    (same : ∀ o ∈ b.restingOrders, f o = g o) : b.map f = b.map g := by
  have levels : ∀ s, (b.levels s).map (Level.map f) = (b.levels s).map (Level.map g) := by
    intro s
    refine List.map_congr_left fun l level => Level.map_congr fun o mem => same o ?_
    exact mem_restingOrders.mpr ⟨s, List.mem_flatMap.mpr ⟨l, level, mem⟩⟩
  rw [OrderBook.map, OrderBook.map]
  exact congrArg₂ (OrderBook.mk b.symbol) (levels .buy) (levels .sell)

/-- What settlement looks at in a trade. -/
def Trade.terms (t : Trade P) : ClientId × ClientId × Symbol × Int × P :=
  (t.buyer, t.seller, t.symbol, t.quantity, t.price)

/-- A fold over trades that looks at their terms only. -/
theorem foldl_eq_of_terms {β : Type} {f : β → Trade P → β}
    (sees : ∀ v t u, t.terms = u.terms → f v t = f v u) {ts us : List (Trade P)}
    (same : ts.map Trade.terms = us.map Trade.terms) (v : β) : ts.foldl f v = us.foldl f v := by
  induction ts generalizing us v with
  | nil =>
      obtain rfl := List.map_eq_nil_iff.mp same.symm
      rfl
  | cons t ts ih =>
      obtain ⟨u, us, rfl, head, tail⟩ := List.map_eq_cons_iff.mp same.symm
      rw [List.foldl_cons, List.foldl_cons, sees v t u head.symm, ih tail.symm]

/-- The same sweep with other orders. -/
structure Sweep.Follows {α β : Type} (f : Order P → Order P) (g : α → β) (r : Sweep P α)
    (r' : Sweep P β) : Prop where
  trades : r'.trades.map Trade.terms = r.trades.map Trade.terms
  incoming : r'.incoming = f r.incoming
  left : r'.left = g r.left

section

variable {f : Order P → Order P} (keeps : KeepsTerms f) (aggressor : Side) (symbol : Symbol)
  (clock clock' : Nat → Int)

include keeps

theorem KeepsTerms.tradeOf (incoming resting : Order P) (quantity : Int) (price : P)
    (now now' : Int) :
    (tradeOf aggressor symbol (f incoming) (f resting) quantity price now').terms
      = (tradeOf aggressor symbol incoming resting quantity price now).terms := by
  cases aggressor <;>
    simp [StockMarket.tradeOf, Trade.terms, keeps.client incoming, keeps.client resting]

theorem matchQueue_map (levelPrice : P) (queue : List (Order P)) :
    ∀ (n n' : Nat) (incoming : Order P),
      Sweep.Follows f (List.map f) (matchQueue aggressor symbol levelPrice clock n incoming queue)
        (matchQueue aggressor symbol levelPrice clock' n' (f incoming) (queue.map f)) := by
  induction queue with
  | nil => exact fun n n' incoming => ⟨rfl, rfl, rfl⟩
  | cons resting queue ih =>
      intro n n' incoming
      have traded := keeps.tradeOf aggressor symbol incoming resting
        (min incoming.quantity resting.quantity) levelPrice (clock n) (clock' n')
      simp only [List.map_cons, matchQueue, keeps.quantity, ← keeps.withQuantity]
      by_cases live : 0 < incoming.quantity
      · simp only [if_pos live]
        by_cases used : (resting.withQuantity (resting.quantity
            - min incoming.quantity resting.quantity)).quantity = 0
        · simp only [if_pos used]
          obtain ⟨trades, rest, left⟩ := ih (n + 1) (n' + 1)
            (incoming.withQuantity (incoming.quantity - min incoming.quantity resting.quantity))
          exact ⟨congrArg₂ List.cons traded trades, rest, left⟩
        · simp only [if_neg used]
          exact ⟨congrArg (· :: []) traded, rfl, rfl⟩
      · simp only [if_neg live]
        exact ⟨rfl, rfl, rfl⟩

section

variable [LT P]

theorem KeepsTerms.refuses (incoming : Order P) (price : P) :
    StockMarket.refuses aggressor (f incoming) price
      ↔ StockMarket.refuses aggressor incoming price := by
  unfold StockMarket.refuses
  rw [keeps.kind, keeps.price]

variable [DecidableLT P]

theorem matchLevels_map (ls : List (Level P)) : ∀ (n n' : Nat) (incoming : Order P),
    Sweep.Follows f (List.map (Level.map f)) (matchLevels aggressor symbol clock n incoming ls)
      (matchLevels aggressor symbol clock' n' (f incoming) (ls.map (Level.map f))) := by
  induction ls with
  | nil => exact fun n n' incoming => ⟨rfl, rfl, rfl⟩
  | cons level levels ih =>
      intro n n' incoming
      obtain ⟨trades, rest, left⟩ := matchQueue_map keeps aggressor symbol clock clock' level.price
        level.queue n n' incoming
      have queue : (level.map f).queue = level.queue.map f := rfl
      have price : (level.map f).price = level.price := rfl
      simp only [List.map_cons, matchLevels, keeps.quantity, keeps.refuses, queue, price, left,
        rest, List.map_eq_nil_iff]
      by_cases live : 0 < incoming.quantity
      · simp only [if_pos live]
        by_cases stops : StockMarket.refuses aggressor incoming level.price
        · simp only [if_pos stops]
          exact ⟨rfl, rfl, rfl⟩
        · simp only [if_neg stops]
          by_cases emptied :
              (matchQueue aggressor symbol level.price clock n incoming level.queue).left = []
          · simp only [if_pos emptied]
            obtain ⟨later, rest', left'⟩ := ih
              (n + (matchQueue aggressor symbol level.price clock n incoming
                level.queue).trades.length)
              (n' + (matchQueue aggressor symbol level.price clock' n' (f incoming)
                (level.queue.map f)).trades.length)
              (matchQueue aggressor symbol level.price clock n incoming level.queue).incoming
            refine ⟨?_, rest', left'⟩
            rw [List.map_append, List.map_append, trades, later]
          · simp only [if_neg emptied]
            exact ⟨trades, rfl, rfl⟩
      · simp only [if_neg live]
        exact ⟨rfl, rfl, rfl⟩

omit clock clock' symbol in
theorem pushBack_map (o : Order P) (ls : List (Level P)) :
    pushBack aggressor (f o) (ls.map (Level.map f))
      = (pushBack aggressor o ls).map (Level.map f) := by
  induction ls with
  | nil => simp [pushBack, Level.map, keeps.price]
  | cons level levels ih =>
      have price : (level.map f).price = level.price := rfl
      simp only [List.map_cons, pushBack, keeps.price, price, ih]
      by_cases deeper : aggressor.before level.price o.price
      · simp only [if_pos deeper, List.map_cons]
      · by_cases better : aggressor.before o.price level.price
        · simp only [if_neg deeper, if_pos better, List.map_cons, Level.map, List.map_nil]
        · simp only [if_neg deeper, if_neg better, List.map_cons, Level.map, List.map_append,
            List.map_nil]

end

end

namespace OrderBook

variable [LT P] [DecidableLT P] (b : OrderBook P) (clock clock' : Nat → Int) (incoming : Order P)

/-- **Ids and dates may be changed before a match or after it.** -/
theorem matchOrder_map {f : Order P → Order P} (keeps : KeepsTerms f) :
    ((b.map f).matchOrder clock' (f incoming)).2 = (b.matchOrder clock incoming).2.map f ∧
      ((b.map f).matchOrder clock' (f incoming)).1.map Trade.terms
        = (b.matchOrder clock incoming).1.map Trade.terms := by
  obtain ⟨trades, rest, left⟩ := matchLevels_map keeps incoming.side b.symbol clock clock'
    (b.levels incoming.side.opposite) 0 0 incoming
  have symbol : (b.map f).symbol = b.symbol := rfl
  rw [matchOrder_eq, matchOrder_eq, keeps.side]
  simp only [matchIncoming, symbol, levels_map, left, rest, keeps.quantity, keeps.kind,
    ← map_setLevels, pushBack_map keeps]
  by_cases rests : 0 < (matchLevels incoming.side b.symbol clock 0 incoming
        (b.levels incoming.side.opposite)).incoming.quantity ∧
      (matchLevels incoming.side b.symbol clock 0 incoming
        (b.levels incoming.side.opposite)).incoming.kind ≠ .market
  · simp only [if_pos rests, true_and]
    exact trades
  · simp only [if_neg rests, true_and]
    exact trades

/-- The book after a match does not depend on the clock. -/
theorem matchOrder_clock :
    (b.matchOrder clock incoming).2 = (b.matchOrder clock' incoming).2 := by
  have same := (b.matchOrder_map clock' clock incoming KeepsTerms.id).1
  rwa [map_id, map_id] at same

end OrderBook

end StockMarket
