import Mathlib.Data.Prod.Lex
import StockMarket.Book.Prices
import StockMarket.Double

/-!
Books at the prices of a `double`.

The wire accepts a SELL at the price NaN. Such an order joins whatever level is the first, and a
level of a better price then comes to stand before it: from then on a cancellation at NaN looks
in the wrong level, and the report counts the order to another level than a snapshot does
(`nan_cancelled_once`, `nan_views_differ`). All other prices are in a linear order
(`Double.rank`), so as long as no order that may come to rest has the price NaN, the two
cancellations agree and so do the two views of the book (`cancel_surgical`, `views_agree`).
-/

namespace StockMarket

namespace Double

/-- The place of a price, with NaN below all others. -/
def rank : Double → ℤ ×ₗ ℚ
  | finite q => toLex (0, q)
  | posInf => toLex (1, 0)
  | negInf => toLex (-1, 0)
  | nan => toLex (-2, 0)

theorem keepsOrder_rank : KeepsOrder rank (· ≠ nan) where
  injective := by
    intro x y same
    cases x <;> cases y <;> simp_all [rank]
  lt_iff := by
    intro x y hx hy
    have less : x < y ↔ x.less y = true := Iff.rfl
    rw [less]
    cases x <;> cases y <;> simp_all [rank, Double.less, Prod.Lex.lt_iff]
  apart := by
    intro x y hx
    obtain rfl : x = nan := not_not.mp hx
    cases y <;> exact ⟨Bool.false_ne_true, Bool.false_ne_true⟩

end Double

/-- A LIMIT order for five shares at the price of a `double`. -/
def limitFive (id : Nat) (side : Side) (price : Double) : Order Double :=
  ⟨id, id, side, .limit, "AAPL", 5, price, none, none, 0, none, none⟩

/-- **The two cancellations agree and are surgical**, in every book that a run of submissions
with distinct ids and of cancellations leads to, if no order that may come to rest has the price
NaN. An id that was cancelled is in no trade of a later match, whatever comes between. -/
theorem cancel_surgical (symbol : Symbol) (ops : List (BookOp Double))
    (priced : ∀ op ∈ ops, op.Priced (· ≠ .nan))
    (distinct : ((ops.filterMap BookOp.submitted).map Order.id).Nodup) (id : Nat) :
    CancelsSurgically ((OrderBook.new symbol).run ops) id ∧
      ((((OrderBook.new symbol).run ops).cancel id).1 = true → ∀ (later : List (BookOp Double))
        (clock : Nat → Int) (o : Order Double),
        (∀ op ∈ later ++ [BookOp.submit clock o], op.Priced (· ≠ .nan)) →
        (((ops ++ later ++ [BookOp.submit clock o]).filterMap BookOp.submitted).map
          Order.id).Nodup →
        ∀ t ∈ (((((OrderBook.new symbol).run ops).cancel id).2.run later).matchOrder clock o).1,
          ∀ side, t.orderId side ≠ id) := by
  have keeps := Double.keepsOrder_rank
  have fresh : (OrderBook.new symbol : OrderBook Double).Priced (· ≠ .nan) := .new symbol
  obtain ⟨ops', same, submitted⟩ := run_withPrices keeps ops fresh priced
  have book := fresh.run priced
  have ids : ∀ os : List (Order Double),
      (os.map (Order.withPrices Double.rank)).map Order.id = os.map Order.id := fun os => by
    rw [List.map_map]
    rfl
  have start : (OrderBook.new symbol : OrderBook Double).withPrices Double.rank
      = OrderBook.new symbol := rfl
  have distinct' : ((ops'.filterMap BookOp.submitted).map Order.id).Nodup := by
    rw [submitted, ids]
    exact distinct
  obtain ⟨surgical, gone⟩ := cancelsSurgically_run symbol ops' distinct' id
  rw [start] at same
  rw [← same] at surgical gone
  refine ⟨.of_withPrices keeps book surgical, fun found later clock o known unused t mem side => ?_⟩
  have cancelled := cancel_withPrices keeps _ id book.levels
  have submitsNone : (BookOp.cancel id : BookOp Double).Priced (· ≠ .nan) :=
    fun _ none => nomatch none
  have left : (((OrderBook.new symbol).run ops).cancel id).2.Priced (· ≠ .nan) :=
    book.apply submitsNone
  have laterKnown := fun op mem => known op (List.mem_append_left _ mem)
  obtain ⟨later', rest, orders⟩ := run_withPrices keeps later left laterKnown
  have last : o.kind ≠ .market → o.price ≠ .nan :=
    known _ (List.mem_append_right _ List.mem_cons_self) o rfl
  have matched := matchOrder_withPrices keeps _ clock last (left.run laterKnown).levels
  rw [cancelled] at gone
  refine gone found later' clock (o.withPrices Double.rank) ?_ (t.withPrices Double.rank) ?_ side
  · have own : [BookOp.submit clock (o.withPrices Double.rank)].filterMap BookOp.submitted
        = ([BookOp.submit clock o].filterMap BookOp.submitted).map (Order.withPrices Double.rank) :=
      rfl
    rw [List.filterMap_append, List.filterMap_append, submitted, orders, own, ← List.map_append,
      ← List.map_append, ids, ← List.filterMap_append, ← List.filterMap_append]
    exact unused
  · rw [← rest, matched]
    exact List.mem_map_of_mem mem

/-- Three SELL orders in one level. -/
def threeAtTen : List (BookOp Double) :=
  [1, 2, 3].map fun id => .submit (fun _ => 0) (limitFive id .sell (.finite 10))

theorem threeAtTen_priced : ∀ op ∈ threeAtTen, op.Priced (· ≠ .nan) := by
  intro op mem
  obtain ⟨id, -, rfl⟩ := List.mem_map.mp mem
  rintro o ⟨⟩ -
  exact Double.noConfusion

/-- A cancellation in the middle of a level, and a sweep of that level after it. -/
theorem cancel_surgical_middle :
    CancelsSurgically ((OrderBook.new "AAPL").run threeAtTen) 2 ∧
      ∀ t ∈ ((((OrderBook.new "AAPL").run threeAtTen).cancel 2).2.matchOrder (fun _ => 0)
        (limitFive 4 .buy (.finite 10))).1, ∀ side, t.orderId side ≠ 2 := by
  obtain ⟨surgical, gone⟩ := cancel_surgical "AAPL" threeAtTen threeAtTen_priced (by decide) 2
  refine ⟨surgical, gone (by decide +kernel) [] (fun _ => 0) (limitFive 4 .buy (.finite 10)) ?_
    (by decide)⟩
  intro op mem
  obtain rfl := List.mem_singleton.mp mem
  rintro o ⟨⟩ -
  exact Double.noConfusion

/-- A SELL at NaN joins the level of the SELL at 10, and another is then put before it. -/
def joinsFirstLevel : List (BookOp Double) :=
  [.submit (fun _ => 0) (limitFive 1 .sell (.finite 10)),
    .submit (fun _ => 0) (limitFive 2 .sell .nan),
    .submit (fun _ => 0) (limitFive 3 .sell (.finite 9))]

/-- The cancellation at the order's own price looks at the level of 9 and does not find it. -/
theorem nan_cancelled_once : ¬∀ (symbol : Symbol) (ops : List (BookOp Double)),
    ((ops.filterMap BookOp.submitted).map Order.id).Nodup → ∀ id,
      CancelsSurgically ((OrderBook.new symbol).run ops) id := by
  intro claim
  have surgical := claim "AAPL" joinsFirstLevel (by decide) 2
  have both := surgical.agrees (limitFive 2 .sell .nan) (by decide +kernel) rfl
  exact absurd (congrArg Prod.fst both) (by decide +kernel)

/-- **The two views agree in every book** that a run of submissions and cancellations leads to,
if no order that may come to rest has the price NaN: the orders grouped by side and price are
the levels of a snapshot with unlimited depth, in the same order and with the same quantities,
and a snapshot of depth `d` is the first `d` of them on each side. -/
theorem views_agree (plus : Int → Int → Int) (symbol : Symbol) (ops : List (BookOp Double))
    (priced : ∀ op ∈ ops, op.Priced (· ≠ .nan)) :
    ViewsAgree plus ((OrderBook.new symbol).run ops) := by
  have fresh : (OrderBook.new symbol : OrderBook Double).Priced (· ≠ .nan) := .new symbol
  obtain ⟨ops', same, -⟩ := run_withPrices Double.keepsOrder_rank ops fresh priced
  have agree := viewsAgree_run plus symbol ops'
  have start : (OrderBook.new symbol : OrderBook Double).withPrices Double.rank
      = OrderBook.new symbol := rfl
  rw [start] at same
  rw [← same] at agree
  exact .of_withPrices Double.keepsOrder_rank (fresh.run priced) agree

/-- One level of three orders, in both views. -/
theorem views_agree_threeAtTen : ViewsAgree (· + ·) ((OrderBook.new "AAPL").run threeAtTen) :=
  views_agree (· + ·) "AAPL" threeAtTen threeAtTen_priced

/-- The snapshot counts the order to the level of 10, the report to that of 9. -/
theorem nan_views_differ : ¬∀ (symbol : Symbol) (ops : List (BookOp Double)),
    ViewsAgree (· + ·) ((OrderBook.new symbol).run ops) := by
  intro claim
  have agree := claim "AAPL" joinsFirstLevel
  exact absurd (agree.unlimited 2 (by decide +kernel) (by decide +kernel)) (by decide +kernel)

end StockMarket
