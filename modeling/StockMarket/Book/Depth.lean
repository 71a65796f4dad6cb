import StockMarket.Book.Invariant
import StockMarket.Lib.SortedMap

/-!
The two views of a book in the final report.

`OrderBook::snapshot(depth)` adds up each queue of the best levels; `symbols.csv` shows it with
unlimited depth. `order_book_final.csv` is made from `resting_orders()` alone: the recorder
groups the orders by side and price in two fresh ordered maps and prints the bids from the
last to the first. Both give the same rows (`viewsAgree_run`), since on a reachable book the
orders of a level are the resting orders of its side with its price.

Sums of quantities take the addition `plus` as a parameter: exact, or that of the machine.
-/

namespace StockMarket

variable {P : Type}

/-- `BookLevel`: a price with a total quantity. -/
structure BookLevel (P : Type) where
  price : P
  quantity : Int
  deriving DecidableEq, Repr

/-- `BookSnapshot`: best level first on both sides. -/
structure BookSnapshot (P : Type) where
  bids : List (BookLevel P)
  asks : List (BookLevel P)
  deriving DecidableEq, Repr

/-- A row of `order_book_final.csv`. -/
structure BookRow (P : Type) where
  symbol : Symbol
  side : Side
  price : P
  quantity : Int
  orders : Nat
  deriving DecidableEq, Repr

/-- The side and the level of a row, without the number of its orders. -/
def BookRow.level (r : BookRow P) : Side × BookLevel P :=
  (r.side, ⟨r.price, r.quantity⟩)

section

variable (plus : Int → Int → Int)

/-- The total of one queue. -/
def levelTotal (queue : List (Order P)) : Int :=
  queue.foldl (fun total o => plus total o.quantity) 0

/-- The loop of `snapshot` over one side: stop before a level when `count` reaches `depth`. -/
def topLevels (depth : Nat) : Nat → List (Level P) → List (BookLevel P)
  | _, [] => []
  | count, l :: ls =>
    if depth ≤ count then []
    else ⟨l.price, levelTotal plus l.queue⟩ :: topLevels depth (count + 1) ls

/-- `OrderBook::snapshot`. -/
def OrderBook.snapshot (b : OrderBook P) (depth : Nat) : BookSnapshot P :=
  ⟨topLevels plus depth 0 b.bids, topLevels plus depth 0 b.asks⟩

variable [LT P] [DecidableLT P]

/-- `level.first += order.quantity; ++level.second`, for the level of the order's price. -/
def addToLevel (o : Order P) : List (P × Int × Nat) → List (P × Int × Nat) :=
  upsert o.price (0, 0) fun level => (plus level.1 o.quantity, level.2 + 1)

/-- The bid levels and the ask levels that the recorder collects from resting orders. -/
def tallyLevels (orders : List (Order P)) : List (P × Int × Nat) × List (P × Int × Nat) :=
  orders.foldl (fun levels o =>
    if o.side = .buy then (addToLevel plus o levels.1, levels.2)
    else (levels.1, addToLevel plus o levels.2)) ([], [])

/-- The rows of a symbol in `order_book_final.csv`: bids in descending order, then asks. -/
def orderBookFinal (symbol : Symbol) (orders : List (Order P)) : List (BookRow P) :=
  let levels := tallyLevels plus orders
  (levels.1.reverse.map fun e => ⟨symbol, .buy, e.1, e.2.1, e.2.2⟩) ++
    levels.2.map fun e => ⟨symbol, .sell, e.1, e.2.1, e.2.2⟩

end

/-! ### The snapshot -/

section

variable {plus : Int → Int → Int}

/-- A level as a snapshot shows it. -/
def Level.shown (plus : Int → Int → Int) (l : Level P) : BookLevel P :=
  ⟨l.price, levelTotal plus l.queue⟩

theorem topLevels_eq (depth : Nat) : ∀ (count : Nat) (ls : List (Level P)),
    topLevels plus depth count ls = (ls.take (depth - count)).map (Level.shown plus)
  | _, [] => by simp [topLevels]
  | count, l :: ls => by
      rw [topLevels]
      split
      · rename_i reached
        rw [Nat.sub_eq_zero_of_le reached]
        rfl
      · rename_i below
        obtain ⟨left, hleft⟩ : ∃ left, depth - count = left + 1 := ⟨depth - count - 1, by omega⟩
        rw [topLevels_eq depth (count + 1) ls, hleft, List.take_succ_cons, List.map_cons,
          show depth - (count + 1) = left by omega]
        rfl

theorem OrderBook.snapshot_eq (b : OrderBook P) (depth : Nat) : b.snapshot plus depth =
    ⟨(b.bids.take depth).map (Level.shown plus), (b.asks.take depth).map (Level.shown plus)⟩ := by
  rw [OrderBook.snapshot, topLevels_eq, topLevels_eq]
  rfl

/-- A snapshot is the beginning of each deeper one. -/
theorem OrderBook.snapshot_take (b : OrderBook P) {d depth : Nat} (le : d ≤ depth) :
    (b.snapshot plus d).bids = (b.snapshot plus depth).bids.take d ∧
      (b.snapshot plus d).asks = (b.snapshot plus depth).asks.take d := by
  rw [snapshot_eq, snapshot_eq, ← List.map_take, ← List.map_take, List.take_take,
    List.take_take, Nat.min_eq_left le]
  exact ⟨rfl, rfl⟩

/-- The levels of a snapshot are in the order of the book. -/
theorem OrderBook.snapshot_bestFirst [LT P] {b : OrderBook P}
    (sorted : ∀ s, LevelsSorted s (b.levels s)) (depth : Nat) :
    ((b.snapshot plus depth).bids.Pairwise fun l k => k.price < l.price) ∧
      (b.snapshot plus depth).asks.Pairwise fun l k => l.price < k.price := by
  rw [snapshot_eq]
  exact ⟨List.pairwise_map.mpr ((sorted .buy).sublist (List.take_sublist _ _)),
    List.pairwise_map.mpr ((sorted .sell).sublist (List.take_sublist _ _))⟩

/-! ### The recorder's levels -/

variable [LinearOrder P]

/-- The recorder groups each side by price. -/
theorem tallyLevels_eq (orders : List (Order P)) : tallyLevels plus orders =
    (group Order.price (0, 0) (fun level o => (plus level.1 o.quantity, level.2 + 1))
        (orders.filter fun o => o.side = .buy),
      group Order.price (0, 0) (fun level o => (plus level.1 o.quantity, level.2 + 1))
        (orders.filter fun o => o.side ≠ .buy)) := by
  induction orders using List.reverseRecOn with
  | nil => rfl
  | append_singleton orders o ih =>
      have step : tallyLevels plus (orders ++ [o]) =
          if o.side = .buy then
            (addToLevel plus o (tallyLevels plus orders).1, (tallyLevels plus orders).2)
          else ((tallyLevels plus orders).1, addToLevel plus o (tallyLevels plus orders).2) := by
        rw [tallyLevels, List.foldl_append]
        rfl
      rw [step, ih, List.filter_append, List.filter_append]
      by_cases buy : o.side = .buy
      · rw [if_pos buy, List.filter_cons_of_pos (by simpa using buy), List.filter_nil,
          List.filter_cons_of_neg (by simpa using buy), List.filter_nil, List.append_nil,
          group_concat]
        rfl
      · rw [if_neg buy, List.filter_cons_of_neg (by simpa using buy), List.filter_nil,
          List.filter_cons_of_pos (by simpa using buy), List.filter_nil, List.append_nil,
          group_concat]
        rfl

/-! ### The levels as groups -/

/-- A level as the recorder counts it. -/
def Level.tallied (plus : Int → Int → Int) (l : Level P) : P × Int × Nat :=
  (l.price, levelTotal plus l.queue, l.queue.length)

omit [LinearOrder P] in
theorem foldl_level (queue : List (Order P)) (total : Int) (count : Nat) :
    queue.foldl (fun level o => (plus level.1 o.quantity, level.2 + 1)) (total, count) =
      (queue.foldl (fun total o => plus total o.quantity) total, count + queue.length) := by
  induction queue generalizing total count with
  | nil => rfl
  | cons o queue ih =>
      rw [List.foldl_cons, List.foldl_cons, ih, List.length_cons]
      exact congrArg (_, ·) (by omega)

variable {s : Side} {ls : List (Level P)}

/-- The orders at the price of a level are those of its queue. -/
theorem LevelsWF.filter_price (wf : LevelsWF s ls) {l : Level P} (mem : l ∈ ls) :
    ((restingIn ls).filter fun o => o.price = l.price) = l.queue := by
  obtain ⟨front, back, rfl⟩ := List.append_of_mem mem
  obtain ⟨-, later, before⟩ := List.pairwise_append.mp wf.sorted
  have elsewhere : ∀ ks : List (Level P), (∀ k ∈ ks, k ∈ front ++ l :: back) →
      (∀ k ∈ ks, k.price ≠ l.price) → ((restingIn ks).filter fun o => o.price = l.price) = [] := by
    intro ks sub other
    refine List.filter_eq_nil_iff.mpr fun o ho same => ?_
    obtain ⟨k, hk, queued⟩ := mem_restingIn.mp ho
    exact other k hk ((wf.atPrice k (sub k hk) o queued).symm.trans (of_decide_eq_true same))
  have own : (l.queue.filter fun o => o.price = l.price) = l.queue :=
    List.filter_eq_self.mpr fun o ho => decide_eq_true (wf.atPrice l mem o ho)
  rw [restingIn_append, restingIn_cons, List.filter_append, List.filter_append, own,
    elsewhere front fun k hk => List.mem_append_left _ hk,
    elsewhere back fun k hk => List.mem_append_right _ (List.mem_cons_of_mem _ hk),
    List.nil_append, List.append_nil]
  · intro k hk same
    have ahead := (List.pairwise_cons.mp later).1 k hk
    rw [same] at ahead
    exact before_irrefl s _ ahead
  · intro k hk same
    have ahead := before k hk l List.mem_cons_self
    rw [same] at ahead
    exact before_irrefl s _ ahead

/-- The recorder's entry of a level. -/
theorem LevelsWF.foldAt_price (wf : LevelsWF s ls) {l : Level P} (mem : l ∈ ls) :
    foldAt Order.price (0, 0) (fun level o => (plus level.1 o.quantity, level.2 + 1)) l.price
      (restingIn ls) = (levelTotal plus l.queue, l.queue.length) := by
  rw [foldAt, wf.filter_price mem, foldl_level, Nat.zero_add]
  rfl

/-- The entries of the grouped orders of a side are its levels. -/
theorem LevelsWF.mem_tallied (wf : LevelsWF s ls) (p : P) (v : Int × Nat) :
    (p, v) ∈ ls.map (Level.tallied plus) ↔ (∃ o ∈ restingIn ls, o.price = p) ∧
      v = foldAt Order.price (0, 0) (fun level o => (plus level.1 o.quantity, level.2 + 1)) p
        (restingIn ls) := by
  constructor
  · intro mem
    obtain ⟨l, hl, eq⟩ := List.mem_map.mp mem
    cases eq
    obtain ⟨o, ho⟩ := List.exists_mem_of_ne_nil _ (wf.nonempty l hl)
    exact ⟨⟨o, mem_restingIn.mpr ⟨l, hl, ho⟩, wf.atPrice l hl o ho⟩, (wf.foldAt_price hl).symm⟩
  · rintro ⟨⟨o, ho, rfl⟩, rfl⟩
    obtain ⟨l, hl, queued⟩ := mem_restingIn.mp ho
    rw [wf.atPrice l hl o queued, wf.foldAt_price hl]
    exact List.mem_map.mpr ⟨l, hl, rfl⟩

/-- Asks are in the order of the recorder's map. -/
theorem LevelsWF.group_asks (wf : LevelsWF .sell ls) :
    group Order.price (0, 0) (fun level o => (plus level.1 o.quantity, level.2 + 1))
      (restingIn ls) = ls.map (Level.tallied plus) := by
  have ascending : Ascending (ls.map (Level.tallied plus)) :=
    wf.sorted.map (Level.tallied plus) fun _ _ before => before
  exact (eq_group _ _ _ ascending wf.mem_tallied).symm

/-- Bids are in the opposite order. -/
theorem LevelsWF.group_bids (wf : LevelsWF .buy ls) :
    group Order.price (0, 0) (fun level o => (plus level.1 o.quantity, level.2 + 1))
      (restingIn ls) = (ls.map (Level.tallied plus)).reverse := by
  have ascending : Ascending (ls.map (Level.tallied plus)).reverse :=
    List.pairwise_reverse.mpr (wf.sorted.map (Level.tallied plus) fun _ _ before => before)
  refine (eq_group _ _ _ ascending fun p v => ?_).symm
  rw [List.mem_reverse, wf.mem_tallied]

/-! ### The report -/

/-- The row of a level. -/
def Level.row (plus : Int → Int → Int) (symbol : Symbol) (s : Side) (l : Level P) : BookRow P :=
  ⟨symbol, s, l.price, levelTotal plus l.queue, l.queue.length⟩

variable {b : OrderBook P}

omit [LinearOrder P] in
/-- The resting orders of a side. -/
theorem OrderBook.Sided.filter_side (sided : b.Sided) :
    (b.restingOrders.filter fun o => o.side = .buy) = restingIn b.bids ∧
      (b.restingOrders.filter fun o => o.side ≠ .buy) = restingIn b.asks := by
  have bids : ∀ o ∈ restingIn b.bids, o.side = .buy := sided .buy
  have asks : ∀ o ∈ restingIn b.asks, o.side ≠ .buy := by
    intro o mem
    rw [sided .sell o mem]
    decide
  unfold OrderBook.restingOrders
  constructor
  · rw [List.filter_append, List.filter_eq_self.mpr fun o mem => decide_eq_true (bids o mem),
      List.filter_eq_nil_iff.mpr fun o mem => by simpa using asks o mem, List.append_nil]
  · rw [List.filter_append, List.filter_eq_nil_iff.mpr fun o mem => by simpa using bids o mem,
      List.filter_eq_self.mpr fun o mem => decide_eq_true (asks o mem), List.nil_append]

/-- **The rows of the report are the levels of the book**, best first on both sides. -/
theorem orderBookFinal_restingOrders (wf : b.WellFormed) (sided : b.Sided) :
    orderBookFinal plus b.symbol b.restingOrders =
      b.bids.map (Level.row plus b.symbol .buy) ++ b.asks.map (Level.row plus b.symbol .sell) := by
  have bids : LevelsWF .buy b.bids := wf .buy
  have asks : LevelsWF .sell b.asks := wf .sell
  rw [orderBookFinal, tallyLevels_eq, sided.filter_side.1, sided.filter_side.2, bids.group_bids,
    asks.group_asks]
  dsimp only
  rw [List.reverse_reverse, List.map_map, List.map_map]
  rfl

omit [LinearOrder P] in
/-- The two views of a book agree. -/
structure ViewsAgree [LT P] [DecidableLT P] (plus : Int → Int → Int) (b : OrderBook P) : Prop where
  unlimited : ∀ depth, b.bids.length ≤ depth → b.asks.length ≤ depth →
    (orderBookFinal plus b.symbol b.restingOrders).map BookRow.level =
      (b.snapshot plus depth).bids.map (Side.buy, ·) ++
        (b.snapshot plus depth).asks.map (Side.sell, ·)
  firstLevels : ∀ d depth, d ≤ depth →
    (b.snapshot plus d).bids = (b.snapshot plus depth).bids.take d ∧
      (b.snapshot plus d).asks = (b.snapshot plus depth).asks.take d
  bestFirst : ∀ depth, ((b.snapshot plus depth).bids.Pairwise fun l k => k.price < l.price) ∧
    (b.snapshot plus depth).asks.Pairwise fun l k => l.price < k.price

theorem viewsAgree (wf : b.WellFormed) (sided : b.Sided) : ViewsAgree plus b where
  unlimited := by
    intro depth bids asks
    rw [orderBookFinal_restingOrders wf sided, OrderBook.snapshot_eq, List.take_of_length_le bids,
      List.take_of_length_le asks, List.map_append, List.map_map, List.map_map, List.map_map,
      List.map_map]
    rfl
  firstLevels := fun _ _ le => b.snapshot_take le
  bestFirst := OrderBook.snapshot_bestFirst fun s => (wf s).sorted

/-! ### Reachable books -/

theorem OrderBook.WellFormed.apply (wf : b.WellFormed) (op : BookOp P) :
    (b.apply op).WellFormed := by
  cases ho : op.submitted with
  | some o =>
      obtain ⟨clock, rfl⟩ := BookOp.eq_submit ho
      exact wf.matchOrder
  | none =>
      rcases wf.apply_of_submitted_none ho with eq | ⟨s, id, ls', removed, eq⟩
      · rw [eq]
        exact wf
      · rw [eq]
        exact wf.removed removed

theorem OrderBook.Sided.apply (sided : b.Sided) (wf : b.WellFormed) (op : BookOp P) :
    (b.apply op).Sided := by
  cases ho : op.submitted with
  | some o =>
      obtain ⟨clock, rfl⟩ := BookOp.eq_submit ho
      exact sided.matchOrder
  | none =>
      rcases wf.apply_of_submitted_none ho with eq | ⟨s, id, ls', removed, eq⟩
      · rw [eq]
        exact sided
      · rw [eq]
        exact sided.removed removed

/-- Any calls keep a book well formed and its orders on their sides, whatever their ids. -/
theorem OrderBook.WellFormed.run : ∀ (ops : List (BookOp P)) {b : OrderBook P}, b.WellFormed →
    b.Sided → (b.run ops).WellFormed ∧ (b.run ops).Sided
  | [], _, wf, sided => ⟨wf, sided⟩
  | op :: ops, _, wf, sided => OrderBook.WellFormed.run ops (wf.apply op) (sided.apply wf op)

/-- The two views agree in every book that a run of submissions and cancellations leads to. -/
theorem viewsAgree_run (plus : Int → Int → Int) (symbol : Symbol) (ops : List (BookOp P)) :
    ViewsAgree plus ((OrderBook.new symbol).run ops) := by
  have empty := BookInvariant.new (P := P) symbol
  obtain ⟨wf, sided⟩ := OrderBook.WellFormed.run ops empty.wellFormed empty.ownSide
  exact viewsAgree wf sided

end

end StockMarket
