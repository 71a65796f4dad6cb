import StockMarket.Book.Account
import StockMarket.Book.Cancelling
import StockMarket.Book.Depth

/-!
A book looks at prices through comparisons only.

A map of prices that keeps `<` on some set of prices may be applied before a call or after it,
as long as the prices of the book and of the order are in the set (`matchOrder_withPrices`,
`cancel_withPrices`, `cancelAtPrice_withPrices`). Prices outside of it are comparable to
nothing, as NaN is; a cancellation may name one. So a run on the one book is a run on the other
(`run_withPrices`), and what the report shows of the two is the same up to the map
(`orderBookFinal_withPrices`).
-/

namespace StockMarket

variable {P Q : Type}

/-! ### Other prices -/

section

variable (f : P → Q)

def Order.withPrices (o : Order P) : Order Q where
  id := o.id
  client := o.client
  side := o.side
  kind := o.kind
  symbol := o.symbol
  quantity := o.quantity
  price := f o.price
  releaseLower := o.releaseLower.map f
  releaseUpper := o.releaseUpper.map f
  submittedAt := o.submittedAt
  notBefore := o.notBefore
  expiresAt := o.expiresAt

def Trade.withPrices (t : Trade P) : Trade Q :=
  ⟨t.buyOrderId, t.sellOrderId, t.buyer, t.seller, t.symbol, t.quantity, f t.price, t.timestamp⟩

def Level.withPrices (l : Level P) : Level Q :=
  ⟨f l.price, l.queue.map (Order.withPrices f)⟩

def OrderBook.withPrices (b : OrderBook P) : OrderBook Q :=
  ⟨b.symbol, b.bids.map (Level.withPrices f), b.asks.map (Level.withPrices f)⟩

def BookOp.withPrices : BookOp P → BookOp Q
  | .submit clock order => .submit clock (order.withPrices f)
  | .cancelAtPrice side price id => .cancelAtPrice side (f price) id
  | .cancel id => .cancel id

@[simp] theorem OrderBook.levels_withPrices (b : OrderBook P) (s : Side) :
    (b.withPrices f).levels s = (b.levels s).map (Level.withPrices f) := by
  cases s <;> rfl

theorem OrderBook.withPrices_setLevels (b : OrderBook P) (s : Side) (ls : List (Level P)) :
    (b.setLevels s ls).withPrices f
      = (b.withPrices f).setLevels s (ls.map (Level.withPrices f)) := by
  cases s <;> rfl

theorem restingIn_withPrices (ls : List (Level P)) :
    restingIn (ls.map (Level.withPrices f)) = (restingIn ls).map (Order.withPrices f) := by
  rw [restingIn, restingIn, List.flatMap_map, List.map_flatMap]
  rfl

@[simp] theorem OrderBook.restingOrders_withPrices (b : OrderBook P) :
    (b.withPrices f).restingOrders = b.restingOrders.map (Order.withPrices f) := by
  rw [restingOrders, restingOrders, List.map_append, ← restingIn_withPrices,
    ← restingIn_withPrices]
  rfl

/-- The same sweep with other prices. -/
structure Sweep.Reprices {α β : Type} (g : α → β) (r : Sweep P α) (r' : Sweep Q β) : Prop where
  trades : r'.trades = r.trades.map (Trade.withPrices f)
  incoming : r'.incoming = r.incoming.withPrices f
  left : r'.left = g r.left

theorem tradeOf_withPrices (aggressor : Side) (symbol : Symbol) (incoming resting : Order P)
    (qty : Int) (price : P) (now : Int) :
    tradeOf aggressor symbol (incoming.withPrices f) (resting.withPrices f) qty (f price) now
      = (tradeOf aggressor symbol incoming resting qty price now).withPrices f := by
  cases aggressor <;> rfl

/-- A queue is matched without a look at any price. -/
theorem matchQueue_withPrices (aggressor : Side) (symbol : Symbol) (price : P)
    (clock : Nat → Int) (queue : List (Order P)) : ∀ (n : Nat) (incoming : Order P),
      Sweep.Reprices f (List.map (Order.withPrices f))
        (matchQueue aggressor symbol price clock n incoming queue)
        (matchQueue aggressor symbol (f price) clock n (incoming.withPrices f)
          (queue.map (Order.withPrices f))) := by
  induction queue with
  | nil => exact fun n incoming => ⟨rfl, rfl, rfl⟩
  | cons resting queue ih =>
      intro n incoming
      have traded := tradeOf_withPrices f aggressor symbol incoming resting
        (min incoming.quantity resting.quantity) price (clock n)
      have quantities : (incoming.withPrices f).quantity = incoming.quantity ∧
        (resting.withPrices f).quantity = resting.quantity := ⟨rfl, rfl⟩
      rw [List.map_cons, matchQueue, matchQueue, quantities.1, quantities.2]
      by_cases live : 0 < incoming.quantity
      · rw [if_pos live, if_pos live]
        dsimp only
        by_cases used : (resting.withQuantity (resting.quantity
            - min incoming.quantity resting.quantity)).quantity = 0
        · have rest := ih (n + 1) (incoming.withQuantity
            (incoming.quantity - min incoming.quantity resting.quantity))
          have used' : ((resting.withPrices f).withQuantity (resting.quantity
            - min incoming.quantity resting.quantity)).quantity = 0 := used
          rw [if_pos used, if_pos used', traded]
          exact ⟨congrArg (_ :: ·) rest.trades, rest.incoming, rest.left⟩
        · have used' : ¬((resting.withPrices f).withQuantity (resting.quantity
            - min incoming.quantity resting.quantity)).quantity = 0 := used
          rw [if_neg used, if_neg used', traded]
          exact ⟨rfl, rfl, rfl⟩
      · rw [if_neg live, if_neg live]
        exact ⟨rfl, rfl, rfl⟩

end

/-! ### Calls -/

/-- The map keeps what `<` says of some prices; the others are comparable to nothing. -/
structure KeepsOrder [LT P] [LT Q] (f : P → Q) (Known : P → Prop) : Prop where
  injective : Function.Injective f
  lt_iff : ∀ {x y}, Known x → Known y → (f x < f y ↔ x < y)
  apart : ∀ {x} y, ¬Known x → ¬x < y ∧ ¬y < x

section

variable [LT P] [DecidableLT P] [LT Q] [DecidableLT Q] {f : P → Q} {Known : P → Prop}
  (keeps : KeepsOrder f Known)

include keeps

omit [DecidableLT P] [DecidableLT Q] in
theorem KeepsOrder.before_iff (s : Side) {x y : P} (hx : Known x) (hy : Known y) :
    s.before (f x) (f y) ↔ s.before x y := by
  cases s with
  | buy => exact keeps.lt_iff hy hx
  | sell => exact keeps.lt_iff hx hy

omit [DecidableLT P] [DecidableLT Q] in
theorem KeepsOrder.refuses_iff (aggressor : Side) {incoming : Order P} {price : P}
    (known : incoming.kind ≠ .market → Known incoming.price) (hp : Known price) :
    refuses aggressor (incoming.withPrices f) (f price) ↔ refuses aggressor incoming price := by
  unfold refuses
  refine and_congr_right fun priced => ?_
  cases aggressor with
  | buy => exact keeps.lt_iff (known priced) hp
  | sell => exact keeps.lt_iff hp (known priced)

theorem matchLevels_withPrices (aggressor : Side) (symbol : Symbol) (clock : Nat → Int)
    (ls : List (Level P)) : ∀ (n : Nat) (incoming : Order P),
      (incoming.kind ≠ .market → Known incoming.price) → (∀ l ∈ ls, Known l.price) →
        Sweep.Reprices f (List.map (Level.withPrices f))
          (matchLevels aggressor symbol clock n incoming ls)
          (matchLevels aggressor symbol clock n (incoming.withPrices f)
            (ls.map (Level.withPrices f))) := by
  induction ls with
  | nil => exact fun n incoming _ _ => ⟨rfl, rfl, rfl⟩
  | cons l ls ih =>
      intro n incoming known levels
      obtain ⟨here, later⟩ := List.forall_mem_cons.mp levels
      have stops := keeps.refuses_iff aggressor known here
      have quantity : (incoming.withPrices f).quantity = incoming.quantity := rfl
      have price : (l.withPrices f).price = f l.price := rfl
      rw [List.map_cons, matchLevels, matchLevels, quantity, price]
      by_cases live : 0 < incoming.quantity
      · rw [if_pos live, if_pos live]
        by_cases stop : refuses aggressor incoming l.price
        · rw [if_pos stop, if_pos (stops.mpr stop)]
          exact ⟨rfl, rfl, rfl⟩
        · rw [if_neg stop, if_neg (mt stops.mp stop)]
          have queue := matchQueue_withPrices f aggressor symbol l.price clock l.queue n incoming
          have same : (l.withPrices f).queue = l.queue.map (Order.withPrices f) := rfl
          obtain ⟨trades, rest, left⟩ := queue
          dsimp only
          rw [same, left, trades, rest, List.length_map]
          by_cases emptied : (matchQueue aggressor symbol l.price clock n incoming l.queue).left = []
          · rw [if_pos emptied, if_pos (List.map_eq_nil_iff.mpr emptied)]
            have used := matchQueue_incoming aggressor symbol clock l.price n incoming l.queue
            have further := ih
              (n + (matchQueue aggressor symbol l.price clock n incoming l.queue).trades.length)
              (matchQueue aggressor symbol l.price clock n incoming l.queue).incoming
              (by rw [used]; exact known) later
            refine ⟨?_, further.incoming, further.left⟩
            rw [further.trades, List.map_append]
          · rw [if_neg emptied, if_neg (mt List.map_eq_nil_iff.mp emptied)]
            exact ⟨rfl, rfl, rfl⟩
      · rw [if_neg live, if_neg live]
        exact ⟨rfl, rfl, rfl⟩

theorem pushBack_withPrices (s : Side) {o : Order P} (known : Known o.price)
    (ls : List (Level P)) (levels : ∀ l ∈ ls, Known l.price) :
    pushBack s (o.withPrices f) (ls.map (Level.withPrices f))
      = (pushBack s o ls).map (Level.withPrices f) := by
  induction ls with
  | nil => rfl
  | cons l ls ih =>
      obtain ⟨here, later⟩ := List.forall_mem_cons.mp levels
      have ahead := keeps.before_iff s here known
      have behind := keeps.before_iff s known here
      have prices : (l.withPrices f).price = f l.price ∧ (o.withPrices f).price = f o.price :=
        ⟨rfl, rfl⟩
      rw [List.map_cons, pushBack, pushBack, prices.1, prices.2]
      by_cases first : s.before l.price o.price
      · rw [if_pos first, if_pos (ahead.mpr first), ih later]
        rfl
      · rw [if_neg first, if_neg (mt ahead.mp first)]
        by_cases second : s.before o.price l.price
        · rw [if_pos second, if_pos (behind.mpr second)]
          rfl
        · rw [if_neg second, if_neg (mt behind.mp second), List.map_cons]
          simp [Level.withPrices]

/-- **A match.** -/
theorem matchOrder_withPrices (b : OrderBook P) (clock : Nat → Int) {incoming : Order P}
    (known : incoming.kind ≠ .market → Known incoming.price)
    (levels : ∀ s, ∀ l ∈ b.levels s, Known l.price) :
    (b.withPrices f).matchOrder clock (incoming.withPrices f)
      = ((b.matchOrder clock incoming).1.map (Trade.withPrices f),
          (b.matchOrder clock incoming).2.withPrices f) := by
  have swept := matchLevels_withPrices keeps incoming.side b.symbol clock
    (b.levels incoming.side.opposite) 0 incoming known (levels _)
  have side : (incoming.withPrices f).side = incoming.side := rfl
  have symbol : (b.withPrices f).symbol = b.symbol := rfl
  obtain ⟨trades, rest, left⟩ := swept
  rw [OrderBook.matchOrder_eq, OrderBook.matchOrder_eq, side, OrderBook.matchIncoming,
    OrderBook.matchIncoming, OrderBook.levels_withPrices, symbol]
  rw [trades, rest, left]
  have used : (matchLevels incoming.side b.symbol clock 0 incoming
      (b.levels incoming.side.opposite)).incoming = _ := matchLevels_incoming ..
  set out := matchLevels incoming.side b.symbol clock 0 incoming (b.levels incoming.side.opposite)
  have kept : (out.incoming.withPrices f).quantity = out.incoming.quantity ∧
    (out.incoming.withPrices f).kind = out.incoming.kind := ⟨rfl, rfl⟩
  rw [kept.1, kept.2]
  by_cases rests : 0 < out.incoming.quantity ∧ out.incoming.kind ≠ .market
  · have priced : Known out.incoming.price := by
      have kind := rests.2
      rw [used] at kind ⊢
      exact known kind
    rw [if_pos rests, if_pos rests, OrderBook.withPrices_setLevels,
      OrderBook.withPrices_setLevels, OrderBook.levels_setLevels_of_opposite,
      OrderBook.levels_setLevels_of_opposite, OrderBook.levels_withPrices,
      pushBack_withPrices keeps _ priced _ (levels _)]
  · rw [if_neg rests, if_neg rests, OrderBook.withPrices_setLevels]

omit [LT P] [DecidableLT P] [LT Q] [DecidableLT Q] keeps in
theorem hasId_withPrices (id : Nat) (queue : List (Order P)) :
    hasId id (queue.map (Order.withPrices f)) = hasId id queue := by
  rw [hasId, List.any_map]
  rfl

omit [LT P] [DecidableLT P] [LT Q] [DecidableLT Q] keeps in
theorem eraseId_withPrices (id : Nat) (queue : List (Order P)) :
    eraseId id (queue.map (Order.withPrices f)) = (eraseId id queue).map (Order.withPrices f) := by
  rw [eraseId, List.eraseP_map]
  rfl

theorem cancelAt_withPrices (s : Side) {price : P} (known : Known price) (id : Nat)
    (ls : List (Level P)) (levels : ∀ l ∈ ls, Known l.price) :
    cancelAt s (f price) id (ls.map (Level.withPrices f))
      = (cancelAt s price id ls).map (List.map (Level.withPrices f)) := by
  induction ls with
  | nil => rfl
  | cons l ls ih =>
      obtain ⟨here, later⟩ := List.forall_mem_cons.mp levels
      have ahead := keeps.before_iff s here known
      have behind := keeps.before_iff s known here
      have parts : (l.withPrices f).price = f l.price ∧
        (l.withPrices f).queue = l.queue.map (Order.withPrices f) := ⟨rfl, rfl⟩
      rw [List.map_cons, cancelAt, cancelAt, parts.1, parts.2, hasId_withPrices,
        eraseId_withPrices]
      by_cases first : s.before l.price price
      · rw [if_pos first, if_pos (ahead.mpr first), ih later, Option.map_map, Option.map_map]
        rfl
      · rw [if_neg first, if_neg (mt ahead.mp first)]
        by_cases second : s.before price l.price
        · rw [if_pos second, if_pos (behind.mpr second)]
          rfl
        · rw [if_neg second, if_neg (mt behind.mp second)]
          by_cases empty : eraseId id l.queue = []
          · rw [if_pos empty, if_pos (List.map_eq_nil_iff.mpr empty)]
            split <;> rfl
          · rw [if_neg empty, if_neg (mt List.map_eq_nil_iff.mp empty)]
            split <;> rfl

omit [LT P] [DecidableLT P] [LT Q] [DecidableLT Q] keeps in
theorem dropId_withPrices (id : Nat) (ls : List (Level P)) :
    dropId id (ls.map (Level.withPrices f)) = (dropId id ls).map fun found =>
      (f found.1, found.2.1.map (Order.withPrices f), found.2.2.map (Level.withPrices f)) := by
  induction ls with
  | nil => rfl
  | cons l ls ih =>
      have parts : (l.withPrices f).price = f l.price ∧
        (l.withPrices f).queue = l.queue.map (Order.withPrices f) := ⟨rfl, rfl⟩
      rw [List.map_cons, dropId, dropId, parts.1, parts.2, hasId_withPrices, eraseId_withPrices]
      split
      · rfl
      · rw [ih, Option.map_map, Option.map_map]
        rfl

theorem cancelIn_withPrices (s : Side) (id : Nat) (ls : List (Level P))
    (levels : ∀ l ∈ ls, Known l.price) :
    cancelIn s id (ls.map (Level.withPrices f))
      = (cancelIn s id ls).map (List.map (Level.withPrices f)) := by
  rw [cancelIn, cancelIn, dropId_withPrices, Option.map_map, Option.map_map]
  cases found : dropId id ls with
  | none => rfl
  | some out =>
      obtain ⟨price, queue, rest⟩ := out
      obtain ⟨front, l, back, rfl, -, rfl, rfl, rfl⟩ := dropId_split found
      have own : Known l.price := levels l (by simp)
      have others : ∀ k ∈ front ++ { l with queue := eraseId id l.queue } :: back,
          Known k.price := by
        intro k mem
        rcases List.mem_append.mp mem with mem | mem
        · exact levels k (List.mem_append_left _ mem)
        · rcases List.mem_cons.mp mem with rfl | mem
          · exact own
          · exact levels k (List.mem_append_right _ (List.mem_cons_of_mem _ mem))
      have erased : ∀ ks : List (Level P), (∀ k ∈ ks, Known k.price) →
          eraseLevel s (f l.price) (ks.map (Level.withPrices f))
            = (eraseLevel s l.price ks).map (Level.withPrices f) := by
        intro ks known
        rw [eraseLevel, eraseLevel, List.filter_map]
        refine congrArg _ (List.filter_congr fun k mem => ?_)
        have ahead := keeps.before_iff s (known k mem) own
        have behind := keeps.before_iff s own (known k mem)
        exact decide_eq_decide.mpr (or_congr ahead behind)
      simp only [Option.map_some, Function.comp_apply, List.map_eq_nil_iff]
      split
      · rw [erased _ others]
      · rfl

/-- **A cancellation by id.** -/
theorem cancel_withPrices (b : OrderBook P) (id : Nat)
    (levels : ∀ s, ∀ l ∈ b.levels s, Known l.price) :
    (b.withPrices f).cancel id = ((b.cancel id).1, (b.cancel id).2.withPrices f) := by
  have bids := cancelIn_withPrices keeps .buy id b.bids (levels .buy)
  have asks := cancelIn_withPrices keeps .sell id b.asks (levels .sell)
  have sides : (b.withPrices f).bids = b.bids.map (Level.withPrices f) ∧
    (b.withPrices f).asks = b.asks.map (Level.withPrices f) := ⟨rfl, rfl⟩
  rw [OrderBook.cancel, OrderBook.cancel, sides.1, sides.2, bids, asks]
  cases cancelIn .buy id b.bids with
  | some ls => rfl
  | none =>
      cases cancelIn .sell id b.asks with
      | some ls => rfl
      | none => rfl

/-- **A cancellation at a price.** -/
theorem cancelAtPrice_withPrices (b : OrderBook P) (s : Side) {price : P} (known : Known price)
    (id : Nat) (levels : ∀ s, ∀ l ∈ b.levels s, Known l.price) :
    (b.withPrices f).cancelAtPrice s (f price) id
      = ((b.cancelAtPrice s price id).1, (b.cancelAtPrice s price id).2.withPrices f) := by
  rw [OrderBook.cancelAtPrice, OrderBook.cancelAtPrice, OrderBook.levels_withPrices,
    cancelAt_withPrices keeps s known id _ (levels s)]
  cases cancelAt s price id (b.levels s) with
  | none => rfl
  | some ls => exact Prod.ext rfl (OrderBook.withPrices_setLevels f b s ls).symm

end

/-! ### Runs -/

/-- The order of a call that may come to rest has a known price. -/
def BookOp.Priced (Known : P → Prop) (op : BookOp P) : Prop :=
  ∀ o, op.submitted = some o → o.kind ≠ .market → Known o.price

/-- The prices of a book are known, and its levels are in order. -/
structure OrderBook.Priced [LT P] (Known : P → Prop) (b : OrderBook P) : Prop where
  sorted : ∀ s, LevelsSorted s (b.levels s)
  levels : ∀ s, ∀ l ∈ b.levels s, Known l.price
  orders : ∀ o ∈ b.restingOrders, Known o.price

section

variable [LT P] [DecidableLT P] [IsStrictOrder P (· < ·)] {Known : P → Prop} {b : OrderBook P}

omit [DecidableLT P] [IsStrictOrder P (· < ·)] in
theorem OrderBook.Priced.new (symbol : Symbol) :
    (OrderBook.new symbol : OrderBook P).Priced Known where
  sorted := by
    intro s
    cases s <;> exact List.Pairwise.nil
  levels := by
    intro s l mem
    cases s <;> cases mem
  orders := by
    intro o mem
    cases mem

omit [DecidableLT P] [IsStrictOrder P (· < ·)] in
theorem OrderBook.Priced.removed (priced : b.Priced Known) {s : Side} {id : Nat}
    {ls' : List (Level P)} (removed : Removed id (b.levels s) ls') :
    (b.setLevels s ls').Priced Known where
  sorted := sorted_removed priced.sorted removed
  levels := by
    intro t l' mem
    obtain ⟨l, hl, same⟩ := removed.level t mem
    rw [same]
    exact priced.levels t l hl
  orders := by
    intro o mem
    obtain ⟨t, mem⟩ := mem_restingOrders.mp mem
    exact priced.orders o (mem_restingOrders.mpr ⟨t, removed.subset t mem⟩)

theorem OrderBook.Priced.apply (priced : b.Priced Known) {op : BookOp P} (known : op.Priced Known) :
    (b.apply op).Priced Known := by
  cases op with
  | submit clock o =>
      refine ⟨sorted_matchOrder priced.sorted clock o, fun t l' mem => ?_, fun r mem => ?_⟩
      · rcases price_of_mem_matchOrder mem with ⟨kind, same⟩ | ⟨l, hl, same⟩
        · rw [same]
          exact known o rfl kind
        · rw [same]
          exact priced.levels t l hl
      · obtain ⟨t, mem⟩ := mem_restingOrders.mp mem
        rcases mem_restingIn_matchOrder mem with ⟨-, kind, q, -, rfl⟩ | ⟨r', hr, q, -, rfl⟩
        · exact known o rfl kind
        · exact priced.orders r' (mem_restingOrders.mpr ⟨t, hr⟩)
  | cancelAtPrice s price id =>
      rcases b.cancelAtPrice_cases s price id with eq | ⟨ls', removed, eq⟩
      · have after : b.apply (.cancelAtPrice s price id) = b := congrArg Prod.snd eq
        exact after.symm ▸ priced
      · have after : b.apply (.cancelAtPrice s price id) = b.setLevels s ls' :=
          congrArg Prod.snd eq
        exact after.symm ▸ priced.removed removed
  | cancel id =>
      rcases OrderBook.cancel_cases priced.sorted id with ⟨-, eq⟩ | ⟨s, ls', removed, eq⟩
      · have after : b.apply (.cancel id) = b := congrArg Prod.snd eq
        exact after.symm ▸ priced
      · have after : b.apply (.cancel id) = b.setLevels s ls' := congrArg Prod.snd eq
        exact after.symm ▸ priced.removed removed

theorem OrderBook.Priced.run : ∀ {ops : List (BookOp P)} {b : OrderBook P}, b.Priced Known →
    (∀ op ∈ ops, op.Priced Known) → (b.run ops).Priced Known
  | [], _, priced, _ => priced
  | _ :: _, _, priced, known =>
      (priced.apply (known _ List.mem_cons_self)).run fun op mem =>
        known op (List.mem_cons_of_mem _ mem)

/-- A price that is comparable to nothing is looked for in the first level. -/
theorem cancelAt_apart {price : P} (apart : ∀ y, ¬price < y ∧ ¬y < price) (s : Side) (id : Nat)
    (l : Level P) (ls : List (Level P)) :
    cancelAt s price id (l :: ls) = cancelAt s l.price id (l :: ls) := by
  have neither : ¬s.before l.price price ∧ ¬s.before price l.price := by
    cases s with
    | buy => exact apart l.price
    | sell => exact (apart l.price).symm
  rw [cancelAt, cancelAt, if_neg neither.1, if_neg neither.2, if_neg (before_irrefl s l.price),
    if_neg (before_irrefl s l.price)]

variable [LT Q] [DecidableLT Q] {f : P → Q} (keeps : KeepsOrder f Known)

include keeps

/-- **Every call** on the book with other prices. -/
theorem apply_withPrices (priced : b.Priced Known) {op : BookOp P} (known : op.Priced Known) :
    ∃ op' : BookOp Q, (b.apply op).withPrices f = (b.withPrices f).apply op' ∧
      op'.submitted = op.submitted.map (Order.withPrices f) := by
  cases op with
  | submit clock o =>
      refine ⟨.submit clock (o.withPrices f), ?_, rfl⟩
      exact (congrArg Prod.snd
        (matchOrder_withPrices keeps b clock (known o rfl) priced.levels)).symm
  | cancelAtPrice s price id =>
      by_cases here : Known price
      · refine ⟨.cancelAtPrice s (f price) id, ?_, rfl⟩
        exact (congrArg Prod.snd
          (cancelAtPrice_withPrices keeps b s here id priced.levels)).symm
      · cases levels : b.levels s with
        | nil =>
            refine ⟨.cancelAtPrice s (f price) id, ?_, rfl⟩
            have none : (b.withPrices f).levels s = [] := by
              rw [OrderBook.levels_withPrices, levels, List.map_nil]
            simp only [OrderBook.apply, OrderBook.cancelAtPrice, levels, none, cancelAt]
        | cons l ls =>
            refine ⟨.cancelAtPrice s (f l.price) id, ?_, rfl⟩
            have first : Known l.price := priced.levels s l (levels ▸ List.mem_cons_self)
            have same : b.cancelAtPrice s price id = b.cancelAtPrice s l.price id := by
              have apart := fun y => keeps.apart y here
              rw [OrderBook.cancelAtPrice, OrderBook.cancelAtPrice, levels,
                cancelAt_apart apart s id l ls]
            have mapped := cancelAtPrice_withPrices keeps b s first id priced.levels
            rw [OrderBook.apply, same]
            exact (congrArg Prod.snd mapped).symm
  | cancel id =>
      exact ⟨.cancel id, (congrArg Prod.snd (cancel_withPrices keeps b id priced.levels)).symm, rfl⟩

/-- **Every run** on the book with other prices. -/
theorem run_withPrices : ∀ (ops : List (BookOp P)) {b : OrderBook P}, b.Priced Known →
    (∀ op ∈ ops, op.Priced Known) → ∃ ops' : List (BookOp Q),
      (b.run ops).withPrices f = (b.withPrices f).run ops' ∧
        ops'.filterMap BookOp.submitted
          = (ops.filterMap BookOp.submitted).map (Order.withPrices f)
  | [], _, _, _ => ⟨[], rfl, rfl⟩
  | op :: ops, b, priced, known => by
      obtain ⟨first, later⟩ := List.forall_mem_cons.mp known
      obtain ⟨op', applied, submitted⟩ := apply_withPrices keeps priced first
      obtain ⟨ops', run, orders⟩ := run_withPrices ops (priced.apply first) later
      refine ⟨op' :: ops', ?_, ?_⟩
      · change ((b.apply op).run ops).withPrices f = ((b.withPrices f).apply op').run ops'
        rw [run, applied]
      · rw [List.filterMap_cons, List.filterMap_cons, submitted, orders]
        cases op.submitted <;> rfl

end

/-! ### What is seen of a book -/

section

variable {f : P → Q} (injective : Function.Injective f)

include injective

theorem Order.withPrices_injective : Function.Injective (Order.withPrices f) := by
  intro o o' same
  have bands := Option.map_injective injective
  cases o
  cases o'
  simp only [Order.withPrices, Order.mk.injEq] at same ⊢
  obtain ⟨h1, h2, h3, h4, h5, h6, price, lower, upper, h10, h11, h12⟩ := same
  exact ⟨h1, h2, h3, h4, h5, h6, injective price, bands lower, bands upper, h10, h11, h12⟩

theorem Level.withPrices_injective : Function.Injective (Level.withPrices f) := by
  rintro ⟨price, queue⟩ ⟨price', queue'⟩ same
  obtain ⟨prices, queues⟩ := Level.mk.inj same
  have orders := List.map_injective_iff.mpr (Order.withPrices_injective injective)
  exact congrArg₂ Level.mk (injective prices) (orders queues)

theorem OrderBook.withPrices_injective : Function.Injective (OrderBook.withPrices f) := by
  rintro ⟨symbol, bids, asks⟩ ⟨symbol', bids', asks'⟩ same
  have levels := List.map_injective_iff.mpr (Level.withPrices_injective injective)
  obtain ⟨rfl, bid, ask⟩ := OrderBook.mk.inj same
  exact congrArg₂ (OrderBook.mk symbol) (levels bid) (levels ask)

end

theorem without_withPrices (f : P → Q) (b : OrderBook P) (id : Nat) :
    (b.withPrices f).without id = (b.without id).withPrices f := by
  have levels : ∀ ls : List (Level P), withoutId id (ls.map (Level.withPrices f))
      = (withoutId id ls).map (Level.withPrices f) := by
    intro ls
    unfold withoutId
    rw [List.map_map, List.filter_map, List.filter_map, List.map_map]
    have queue : ∀ l : Level P, ((l.withPrices f).queue.filter fun o => o.id ≠ id)
        = (l.queue.filter fun o => o.id ≠ id).map (Order.withPrices f) := fun l =>
      List.filter_map
    refine congrArg₂ List.map (funext fun l => ?_) (List.filter_congr fun l _ => ?_)
    · exact congrArg (Level.mk (f l.price)) (queue l)
    · refine decide_eq_decide.mpr (not_congr ?_)
      change ((l.withPrices f).queue.filter fun o => o.id ≠ id) = [] ↔ _
      rw [queue]
      exact List.map_eq_nil_iff
  exact congrArg₂ (OrderBook.mk b.symbol) (levels b.bids) (levels b.asks)

section

variable [LT P] [DecidableLT P] [LT Q] [DecidableLT Q] {f : P → Q}
  {Known : P → Prop} (keeps : KeepsOrder f Known) {b : OrderBook P} {id : Nat}

include keeps

/-- Cancellations are surgical if they are with the other prices. -/
theorem CancelsSurgically.of_withPrices (priced : b.Priced Known)
    (surgical : CancelsSurgically (b.withPrices f) id) : CancelsSurgically b id := by
  have cancelled := cancel_withPrices keeps b id priced.levels
  have injective := OrderBook.withPrices_injective keeps.injective
  obtain ⟨finds, misses, removes, takesOne, agrees⟩ := surgical
  rw [cancelled] at finds misses removes agrees
  have rests : (∃ o ∈ (b.withPrices f).restingOrders, o.id = id) ↔
      ∃ o ∈ b.restingOrders, o.id = id := by
    rw [OrderBook.restingOrders_withPrices]
    simp only [List.mem_map, exists_exists_and_eq_and]
    rfl
  rw [OrderBook.restingOrders_withPrices, List.forall_mem_map] at takesOne agrees
  refine ⟨finds.trans rests, fun missed => injective (misses missed), fun found => injective ?_,
    fun o mem same => ?_, fun o mem same => ?_⟩
  · exact (removes found).trans (without_withPrices f b id)
  · have perm := takesOne o mem same
    rw [without_withPrices, OrderBook.restingOrders_withPrices, ← List.map_cons] at perm
    exact (List.map_perm_map_iff (Order.withPrices_injective keeps.injective)).mp perm
  · have both := agrees o mem same
    have known := priced.orders o mem
    have at' := cancelAtPrice_withPrices keeps b o.side known id priced.levels
    have eq := at'.symm.trans both
    exact Prod.ext (congrArg (·.1) eq) (injective (congrArg (·.2) eq))

end

/-! ### The report -/

def BookLevel.withPrices (f : P → Q) (l : BookLevel P) : BookLevel Q :=
  ⟨f l.price, l.quantity⟩

theorem BookLevel.withPrices_injective {f : P → Q} (injective : Function.Injective f) :
    Function.Injective (BookLevel.withPrices f) := by
  rintro ⟨price, quantity⟩ ⟨price', quantity'⟩ same
  obtain ⟨prices, quantities⟩ := BookLevel.mk.inj same
  exact congrArg₂ BookLevel.mk (injective prices) quantities

/-- A snapshot of the book with other prices. -/
theorem snapshot_withPrices (f : P → Q) (plus : Int → Int → Int) (b : OrderBook P) (depth : Nat) :
    (b.withPrices f).snapshot plus depth =
      ⟨(b.snapshot plus depth).bids.map (BookLevel.withPrices f),
        (b.snapshot plus depth).asks.map (BookLevel.withPrices f)⟩ := by
  have shown : ∀ l : Level P, (l.withPrices f).shown plus = (l.shown plus).withPrices f := by
    intro l
    have total : levelTotal plus (l.queue.map (Order.withPrices f)) = levelTotal plus l.queue := by
      rw [levelTotal, List.foldl_map]
      rfl
    exact congrArg (BookLevel.mk (f l.price)) total
  have levels : ∀ ls : List (Level P), ((ls.map (Level.withPrices f)).take depth).map
      (Level.shown plus) = ((ls.take depth).map (Level.shown plus)).map
          (BookLevel.withPrices f) := by
    intro ls
    rw [← List.map_take, List.map_map, List.map_map]
    exact List.map_congr_left fun l _ => shown l
  rw [OrderBook.snapshot_eq, OrderBook.snapshot_eq]
  exact congrArg₂ BookSnapshot.mk (levels b.bids) (levels b.asks)

section

variable [LT P] [DecidableLT P] [LT Q] [DecidableLT Q] {f : P → Q} {Known : P → Prop}
  (keeps : KeepsOrder f Known)

omit [LT Q] [DecidableLT Q] in
theorem key_of_mem_upsert {V : Type} {k : P} {d : V} {g : V → V} {m : List (P × V)} {e : P × V}
    (mem : e ∈ upsert k d g m) : e.1 = k ∨ ∃ e' ∈ m, e.1 = e'.1 := by
  induction m with
  | nil => exact .inl (congrArg Prod.fst (List.mem_singleton.mp mem))
  | cons e' m ih =>
      rw [upsert] at mem
      split at mem
      · rcases List.mem_cons.mp mem with rfl | mem
        · exact .inr ⟨e, List.mem_cons_self, rfl⟩
        · refine (ih mem).imp_right fun found => ?_
          obtain ⟨e'', mem, same⟩ := found
          exact ⟨e'', List.mem_cons_of_mem _ mem, same⟩
      · split at mem
        · rcases List.mem_cons.mp mem with rfl | mem
          · exact .inl rfl
          · exact .inr ⟨e, mem, rfl⟩
        · rcases List.mem_cons.mp mem with rfl | mem
          · exact .inr ⟨e', List.mem_cons_self, rfl⟩
          · exact .inr ⟨e, List.mem_cons_of_mem _ mem, rfl⟩

include keeps

theorem upsert_withPrices {V : Type} {k : P} (known : Known k) (d : V) (g : V → V)
    (m : List (P × V)) (keys : ∀ e ∈ m, Known e.1) :
    upsert (f k) d g (m.map (Prod.map f id)) = (upsert k d g m).map (Prod.map f id) := by
  induction m with
  | nil => rfl
  | cons e m ih =>
      obtain ⟨here, later⟩ := List.forall_mem_cons.mp keys
      have ahead := keeps.lt_iff here known
      have behind := keeps.lt_iff known here
      rw [List.map_cons, upsert, upsert, Prod.map_fst]
      by_cases first : e.1 < k
      · rw [if_pos first, if_pos (ahead.mpr first), ih later, List.map_cons]
      · rw [if_neg first, if_neg (mt ahead.mp first)]
        by_cases second : k < e.1
        · rw [if_pos second, if_pos (behind.mpr second)]
          rfl
        · rw [if_neg second, if_neg (mt behind.mp second)]
          rfl

/-- The levels that the recorder collects. -/
theorem tallyLevels_withPrices (plus : Int → Int → Int) (orders : List (Order P))
    (known : ∀ o ∈ orders, Known o.price) :
    (tallyLevels plus (orders.map (Order.withPrices f))
        = ((tallyLevels plus orders).1.map (Prod.map f id),
            (tallyLevels plus orders).2.map (Prod.map f id))) ∧
      (∀ e ∈ (tallyLevels plus orders).1, Known e.1) ∧
        ∀ e ∈ (tallyLevels plus orders).2, Known e.1 := by
  induction orders using List.reverseRecOn with
  | nil => exact ⟨rfl, List.forall_mem_nil _, List.forall_mem_nil _⟩
  | append_singleton orders o ih =>
      obtain ⟨same, bids, asks⟩ := ih fun r mem => known r (List.mem_append_left _ mem)
      have here : Known o.price := known o (List.mem_append_right _ List.mem_cons_self)
      have added : ∀ levels : List (P × Int × Nat), (∀ e ∈ levels, Known e.1) →
          ∀ e ∈ addToLevel plus o levels, Known e.1 := by
        intro levels keys e mem
        rcases key_of_mem_upsert mem with eq | ⟨e', mem', eq⟩
        · rw [eq]
          exact here
        · rw [eq]
          exact keys e' mem'
      have mapped : ∀ levels : List (P × Int × Nat), (∀ e ∈ levels, Known e.1) →
          addToLevel plus (o.withPrices f) (levels.map (Prod.map f id))
            = (addToLevel plus o levels).map (Prod.map f id) := fun levels keys =>
        upsert_withPrices keeps here _ _ levels keys
      have step : ∀ {R : Type} [LT R] [DecidableLT R] (os : List (Order R)) (r : Order R),
          tallyLevels plus (os ++ [r]) =
            if r.side = .buy then
              (addToLevel plus r (tallyLevels plus os).1, (tallyLevels plus os).2)
            else ((tallyLevels plus os).1, addToLevel plus r (tallyLevels plus os).2) := by
        intro R _ _ os r
        rw [tallyLevels, List.foldl_append]
        rfl
      rw [List.map_append, List.map_singleton, step, step, same]
      have side : (o.withPrices f).side = o.side := rfl
      rw [side]
      by_cases buy : o.side = .buy
      · rw [if_pos buy, if_pos buy, mapped _ bids]
        exact ⟨rfl, added _ bids, asks⟩
      · rw [if_neg buy, if_neg buy, mapped _ asks]
        exact ⟨rfl, bids, added _ asks⟩

/-- **The rows of the report.** -/
theorem orderBookFinal_withPrices (plus : Int → Int → Int) (symbol : Symbol)
    (orders : List (Order P)) (known : ∀ o ∈ orders, Known o.price) :
    (orderBookFinal plus symbol (orders.map (Order.withPrices f))).map BookRow.level
      = ((orderBookFinal plus symbol orders).map BookRow.level).map
          (Prod.map id (BookLevel.withPrices f)) := by
  obtain ⟨same, -, -⟩ := tallyLevels_withPrices keeps plus orders known
  rw [orderBookFinal, orderBookFinal, same]
  simp only [List.map_append, List.map_map, ← List.map_reverse]
  rfl

/-- The two views agree if they do with the other prices. -/
theorem ViewsAgree.of_withPrices {plus : Int → Int → Int} {b : OrderBook P}
    (priced : b.Priced Known) (agree : ViewsAgree plus (b.withPrices f)) : ViewsAgree plus b where
  unlimited := by
    intro depth bids asks
    have level := BookLevel.withPrices_injective keeps.injective
    have levels := List.map_injective_iff.mpr ((@Function.injective_id Side).prodMap level)
    have rows := agree.unlimited depth (by simpa [OrderBook.withPrices] using bids)
      (by simpa [OrderBook.withPrices] using asks)
    rw [OrderBook.restingOrders_withPrices, orderBookFinal_withPrices keeps plus _ _ priced.orders,
      snapshot_withPrices] at rows
    refine levels (rows.trans ?_)
    simp only [List.map_append, List.map_map]
    rfl
  firstLevels := fun _ _ le => b.snapshot_take le
  bestFirst := OrderBook.snapshot_bestFirst priced.sorted

end

end StockMarket
