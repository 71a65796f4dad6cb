import Mathlib.Algebra.Group.End
import StockMarket.Engine.LastPrice
import StockMarket.Engine.ReleaseScan
import StockMarket.Engine.Threads

/-!
Submissions on different symbols may be swapped.

The look of an engine (`EngineLook`) is what can be looked up in it: books, last prices,
portfolios, waiting orders and dirty symbols. An accepted submission puts its order in place
(`look_submitted`), and on looks two facts about `place` are enough: placements on different
symbols may be swapped (`place_independent`), and a placement sees neither ids nor dates
(`place_relabelled`). The second is needed since the two orders of submission give the two requests
each other's ids.
-/

namespace StockMarket

open Atomic MatchingEngine

/-! ### Ids and dates -/

section

variable {P : Type}

/-- The order with its dates counted from its submission. -/
def Order.undated (o : Order P) : Order P :=
  { o with
    submittedAt := 0
    notBefore := o.notBefore.map (· - o.submittedAt)
    expiresAt := o.expiresAt.map (· - o.submittedAt) }

/-- The order with another id and with its dates counted from its submission. -/
def Order.relabelled (ids : Nat → Nat) (o : Order P) : Order P :=
  { o.undated with id := ids o.id }

variable (ids : Nat → Nat)

theorem keepsTerms_relabelled : KeepsTerms (Order.relabelled (P := P) ids) :=
  ⟨fun _ => rfl, fun _ => rfl, fun _ => rfl, fun _ => rfl, fun _ => rfl, fun _ => rfl,
    fun _ _ => rfl⟩

/-- An order counts its dates from its submission. -/
theorem isStarted_relabelled (o : Order P) :
    (o.relabelled ids).isStarted (o.relabelled ids).submittedAt ↔ o.isStarted o.submittedAt := by
  have dates : (o.relabelled ids).notBefore = o.notBefore.map (· - o.submittedAt) := rfl
  have zero : (o.relabelled ids).submittedAt = 0 := rfl
  unfold Order.isStarted
  rw [dates, zero]
  cases o.notBefore with
  | none => exact Iff.rfl
  | some start =>
      have shifted : start - o.submittedAt ≤ 0 ↔ start ≤ o.submittedAt := by omega
      exact shifted

/-- The order of a request, apart from id and dates, does not depend on the clock. -/
theorem relabelled_buildOrder (request : OrderRequest P) (id : Nat) (now : Int) :
    (buildOrder request id now).relabelled ids = buildOrder request (ids id) 0 := by
  have counted : ∀ seconds : Option Int,
      (seconds.map (after now)).map (· - now) = seconds.map (after 0) := by
    intro seconds
    cases seconds with
    | none => rfl
    | some s => exact congrArg some (by simp only [after]; omega)
  have start := counted request.notBeforeIn
  have stop := counted request.expiresIn
  simp only [Order.relabelled, Order.undated, buildOrder, start, stop]

end

/-! ### What a match does, as seen through lookups -/

/-- A portfolio seen through its lookups. -/
structure PortfolioView where
  cash : ℚ
  holding : Symbol → Option Int

/-- What can be looked up in an engine, its registry apart. -/
structure EngineView where
  book : Symbol → Option (OrderBook ℚ)
  lastPrice : Symbol → Option ℚ
  portfolio : ClientId → Option PortfolioView

def Portfolio.view (p : Portfolio ℚ) : PortfolioView where
  cash := p.cash
  holding := fun s => p.holdings.lookup s

def MatchingEngine.view (e : MatchingEngine ℚ) : EngineView where
  book := fun s => e.books.lookup s
  lastPrice := fun s => e.lastPrices.lookup s
  portfolio := fun c => (e.portfolios.lookup c).map Portfolio.view

namespace PortfolioView

/-- `Portfolio{}`. -/
def empty : PortfolioView where
  cash := 0
  holding := fun _ => none

/-- The portfolio with more cash and shares. -/
def add (symbol : Symbol) (cash : ℚ) (quantity : Int) (p : PortfolioView) : PortfolioView where
  cash := p.cash + cash
  holding := Table.touch symbol 0 (· + quantity) p.holding

theorem add_comm (s s' : Symbol) (c c' : ℚ) (q q' : Int) (p : PortfolioView) :
    add s c q (add s' c' q' p) = add s' c' q' (add s c q p) := by
  have shares : Table.touch s 0 (· + q) (Table.touch s' 0 (· + q') p.holding)
      = Table.touch s' 0 (· + q') (Table.touch s 0 (· + q) p.holding) :=
    Table.touch_comm (fun v => add_right_comm v q' q) s s' p.holding
  exact congrArg₂ PortfolioView.mk (add_right_comm p.cash c' c) shares

end PortfolioView

theorem Portfolio.view_debit (s : Symbol) (cash : ℚ) (q : Int) (p : Portfolio ℚ) :
    (debit s cash q p).view = PortfolioView.add s (-cash) q p.view := by
  have shares := funext (Table.lookup_update_eq_touch s 0 (· + q) p.holdings)
  exact congrArg₂ PortfolioView.mk (sub_eq_add_neg p.cash cash) shares

theorem Portfolio.view_credit (s : Symbol) (cash : ℚ) (q : Int) (p : Portfolio ℚ) :
    (credit s cash q p).view = PortfolioView.add s cash (-q) p.view := by
  have shares := funext (Table.lookup_update_eq_touch s 0 (· - q) p.holdings)
  exact congrArg (PortfolioView.mk (p.cash + cash)) shares

namespace EngineView

/-- What the settlement of a trade does to the portfolios. -/
def settle (v : ClientId → Option PortfolioView) (t : Trade ℚ) :
    ClientId → Option PortfolioView :=
  let notional := (t.quantity : ℚ) * t.price
  Table.touch t.seller .empty (.add t.symbol notional (-t.quantity))
    (Table.touch t.buyer .empty (.add t.symbol (-notional) t.quantity) v)

/-- Settlements may be swapped. -/
instance : RightCommutative settle where
  right_comm := by
    intro v t u
    have swap : ∀ (s s' : Symbol) (c c' : ℚ) (q q' : Int) (k k' : ClientId)
        (m : ClientId → Option PortfolioView),
        Table.touch k .empty (.add s c q) (Table.touch k' .empty (.add s' c' q') m)
          = Table.touch k' .empty (.add s' c' q') (Table.touch k .empty (.add s c q) m) := by
      intro s s' c c' q q' k k' m
      exact Table.touch_comm (PortfolioView.add_comm s s' c c' q q') k k' m
    unfold settle
    dsimp only
    -- the two legs of `u` go past the two legs of `t`
    rw [swap u.symbol t.symbol, swap u.symbol t.symbol, swap u.symbol t.symbol,
      swap u.symbol t.symbol]

/-- What a match does, on lookups. -/
def matched (v : EngineView) (o : Order ℚ) : EngineView :=
  let out := ((v.book o.symbol).getD (OrderBook.new o.symbol)).matchOrder (fun _ => 0) o
  { book := Function.update v.book o.symbol (some out.2)
    lastPrice := Function.update v.lastPrice o.symbol
      (out.1.foldl (fun _ t => some t.price) (v.lastPrice o.symbol))
    portfolio := out.1.foldl settle v.portfolio }

/-- **Matches of different symbols may be swapped.** -/
theorem matched_independent : Independent Order.symbol matched := by
  intro v a b ne
  have first : ∀ w : EngineView, (w.matched a).book b.symbol = w.book b.symbol ∧
      (w.matched a).lastPrice b.symbol = w.lastPrice b.symbol := fun w =>
    ⟨Function.update_of_ne (Ne.symm ne) _ _, Function.update_of_ne (Ne.symm ne) _ _⟩
  have second : ∀ w : EngineView, (w.matched b).book a.symbol = w.book a.symbol ∧
      (w.matched b).lastPrice a.symbol = w.lastPrice a.symbol := fun w =>
    ⟨Function.update_of_ne ne _ _, Function.update_of_ne ne _ _⟩
  rw [matched, (first v).1, (first v).2, matched, matched.eq_1 (v.matched b), (second v).1,
    (second v).2, matched]
  dsimp only
  rw [Function.update_comm ne, Function.update_comm ne, ← List.foldl_append, ← List.foldl_append,
    List.perm_append_comm.foldl_eq]

end EngineView

namespace MatchingEngine

/-- Settlement on lookups. -/
theorem view_settle (t : Trade ℚ) (e : MatchingEngine ℚ) :
    (settle t e).view.portfolio = EngineView.settle e.view.portfolio t := by
  have leg : ∀ (c : ClientId) (f : Portfolio ℚ → Portfolio ℚ) (g : PortfolioView → PortfolioView)
      (m : Table ClientId (Portfolio ℚ)), (∀ p, (f p).view = g p.view) →
      (fun k => ((Table.update c default f m).lookup k).map Portfolio.view)
        = Table.touch c .empty g fun k => (m.lookup k).map Portfolio.view := by
    intro c f g m same
    funext k
    rw [Table.lookup_update_eq_touch]
    unfold Table.touch
    by_cases here : k = c
    · subst here
      have owner : ((m.lookup k).map Portfolio.view).getD PortfolioView.empty
          = ((m.lookup k).getD default).view := Option.getD_map Portfolio.view default _
      rw [Function.update_self, Function.update_self, Option.map_some, same, owner]
    · rw [Function.update_of_ne here, Function.update_of_ne here]
  have paid := leg t.buyer _ _ e.portfolios
    (Portfolio.view_debit t.symbol ((t.quantity : ℚ) * t.price) t.quantity)
  have received := leg t.seller _ _ (Table.update t.buyer default
      (debit t.symbol ((t.quantity : ℚ) * t.price) t.quantity) e.portfolios)
    (Portfolio.view_credit t.symbol ((t.quantity : ℚ) * t.price) t.quantity)
  rw [paid] at received
  exact received

/-- The settlement of the trades of one symbol, on lookups. -/
theorem view_settleAll {s : Symbol} (ts : List (Trade ℚ)) :
    ∀ {e : MatchingEngine ℚ}, (∀ t ∈ ts, t.symbol = s) →
      (settleAll ts e).view =
        { book := e.view.book
          lastPrice := Function.update e.view.lastPrice s
            (ts.foldl (fun _ t => some t.price) (e.view.lastPrice s))
          portfolio := ts.foldl EngineView.settle e.view.portfolio } := by
  induction ts with
  | nil =>
      intro e traded
      rw [List.foldl_nil, Function.update_eq_self]
      rfl
  | cons t ts ih =>
      intro e traded
      obtain rfl : t.symbol = s := traded t List.mem_cons_self
      have prices : (settleTrade e t).view.lastPrice
          = Function.update e.view.lastPrice t.symbol (some t.price) := by
        funext k
        by_cases here : k = t.symbol
        · subst here
          rw [Function.update_self]
          exact AList.lookup_insert _
        · rw [Function.update_of_ne here]
          exact AList.lookup_insert_ne here
      have portfolios : (settleTrade e t).view.portfolio
          = EngineView.settle e.view.portfolio t := view_settle t e
      rw [settleAll_cons, ih fun u mem => traded u (List.mem_cons_of_mem _ mem), prices, portfolios,
        Function.update_self, Function.update_idem]
      rfl

end MatchingEngine

namespace EngineInvariant

variable {e : MatchingEngine ℚ} {pending : List (Order ℚ)} {o : Order ℚ}

/-- **A match on lookups**: the clock shows in the time stamps of trades only. -/
theorem view_matched (inv : EngineInvariant e (o :: pending)) (clock : Nat → Int) :
    (MatchingEngine.matched clock o e).view = e.view.matched o := by
  have traded : ∀ t ∈ (matchBook clock o e).1, t.symbol = o.symbol := by
    intro t mem
    rw [inv.matchBook_trades] at mem
    obtain ⟨f, -, now, rfl⟩ := mem_fillTrades mem
    exact tradeOf_symbol ..
  have book : (e.view.book o.symbol).getD (OrderBook.new o.symbol) = e.bookFor o.symbol := rfl
  have untimed : (matchBook clock o e).1.map Trade.untimed
      = ((e.bookFor o.symbol).matchOrder (fun _ => 0) o).1 := OrderBook.untimed_matchOrder ..
  have books : (matchBook clock o e).2.view.book = Function.update e.view.book o.symbol
      (some ((e.bookFor o.symbol).matchOrder (fun _ => 0) o).2) := by
    rw [OrderBook.matchOrder_clock _ (fun _ => 0) clock o]
    funext k
    by_cases here : k = o.symbol
    · subst here
      rw [Function.update_self]
      exact AList.lookup_insert _
    · rw [Function.update_of_ne here]
      exact AList.lookup_insert_ne here
  rw [MatchingEngine.matched, view_settleAll _ traded, books, EngineView.matched, book, ← untimed,
    List.foldl_map, List.foldl_map]
  rfl

end EngineInvariant

/-! ### Looks -/

/-- What can be looked up in an engine. -/
structure EngineLook extends EngineView where
  waiting : Multiset (Order ℚ)
  dirty : Set Symbol

def MatchingEngine.look (e : MatchingEngine ℚ) : EngineLook where
  toEngineView := e.view
  waiting := e.waitingOrders
  dirty := {s | s ∈ e.dirtySymbols}

theorem MatchingEngine.look_of_core {e e' : MatchingEngine ℚ} (same : e'.core = e.core) :
    e'.look = e.look := by
  have core : e'.core.look = e.core.look := congrArg look same
  exact core

namespace EngineView

/-- The book that an order goes to. -/
def bookFor (v : EngineView) (o : Order ℚ) : OrderBook ℚ :=
  (v.book o.symbol).getD (OrderBook.new o.symbol)

/-- The trades of a match, on lookups. -/
def tradesOf (v : EngineView) (o : Order ℚ) : List (Trade ℚ) :=
  ((v.bookFor o).matchOrder (fun _ => 0) o).1

/-- The book after a match, on lookups. -/
def bookAfter (v : EngineView) (o : Order ℚ) : OrderBook ℚ :=
  ((v.bookFor o).matchOrder (fun _ => 0) o).2

theorem matched_eq (v : EngineView) (o : Order ℚ) : v.matched o =
    { book := Function.update v.book o.symbol (some (v.bookAfter o))
      lastPrice := Function.update v.lastPrice o.symbol
        ((v.tradesOf o).foldl (fun _ t => some t.price) (v.lastPrice o.symbol))
      portfolio := (v.tradesOf o).foldl settle v.portfolio } := rfl

/-- The view with other orders. -/
def map (f : Order ℚ → Order ℚ) (v : EngineView) : EngineView :=
  { v with book := fun s => (v.book s).map (OrderBook.map f) }

/-- Settlement looks at the terms of a trade. -/
theorem settle_terms (v : ClientId → Option PortfolioView) (t u : Trade ℚ)
    (same : t.terms = u.terms) : settle v t = settle v u := by
  simp only [Trade.terms, Prod.mk.injEq] at same
  obtain ⟨buyer, seller, symbol, quantity, price⟩ := same
  rw [settle, settle, buyer, seller, symbol, quantity, price]

section

variable {f : Order ℚ → Order ℚ} (keeps : KeepsTerms f) (v : EngineView) (o : Order ℚ)

include keeps

theorem bookFor_map : (v.map f).bookFor (f o) = (v.bookFor o).map f := by
  rw [bookFor, keeps.symbol]
  exact Option.getD_map (OrderBook.map f) (OrderBook.new o.symbol) (v.book o.symbol)

theorem tradesOf_map :
    ((v.map f).tradesOf (f o)).map Trade.terms = (v.tradesOf o).map Trade.terms := by
  rw [tradesOf, v.bookFor_map keeps o]
  exact ((v.bookFor o).matchOrder_map _ _ o keeps).2

/-- A match sees neither ids nor dates. -/
theorem matched_map : (v.map f).matched (f o) = (v.matched o).map f := by
  have trades := v.tradesOf_map keeps o
  have book : (v.map f).bookAfter (f o) = (v.bookAfter o).map f := by
    rw [bookAfter, v.bookFor_map keeps o]
    exact ((v.bookFor o).matchOrder_map _ _ o keeps).1
  have books : Function.update (v.map f).book o.symbol (some ((v.bookAfter o).map f))
      = fun s => (Function.update v.book o.symbol (some (v.bookAfter o)) s).map
          (OrderBook.map f) := by
    funext s
    exact (Function.apply_update (fun _ => Option.map (OrderBook.map f)) v.book o.symbol
      (some (v.bookAfter o)) s).symm
  have price := foldl_eq_of_terms (f := fun _ t => some t.price)
    (fun _ t u same => congrArg (fun x => some x.2.2.2.2) same) trades (v.lastPrice o.symbol)
  have portfolio := foldl_eq_of_terms (f := settle) settle_terms trades v.portfolio
  rw [matched_eq, keeps.symbol, book, books]
  exact congrArg₂ (EngineView.mk _) (congrArg (Function.update v.lastPrice o.symbol) price)
    portfolio

end

end EngineView

namespace EngineLook

/-- The look with other orders. -/
def map (f : Order ℚ → Order ℚ) (v : EngineLook) : EngineLook where
  toEngineView := v.toEngineView.map f
  waiting := v.waiting.map f
  dirty := v.dirty

/-- The order is matched as soon as it is submitted. -/
def Ready (v : EngineLook) (o : Order ℚ) : Prop :=
  o.isStarted o.submittedAt ∧ o.releaseBandContains ((v.lastPrice o.symbol).getD 0)

instance decidableReady (v : EngineLook) (o : Order ℚ) : Decidable (v.Ready o) := by
  unfold Ready
  infer_instance

/-- An accepted order is matched or comes to wait. -/
def place (v : EngineLook) (o : Order ℚ) : EngineLook :=
  if v.Ready o then
    { toEngineView := v.toEngineView.matched o
      waiting := v.waiting
      dirty := v.dirty ∪ {s | s ∈ (v.tradesOf o).map Trade.symbol} }
  else { v with waiting := o ::ₘ v.waiting }

/-- A placement leaves the other symbols alone. -/
theorem place_other (v : EngineLook) (o : Order ℚ) {s : Symbol} (ne : s ≠ o.symbol) :
    (v.place o).book s = v.book s ∧ (v.place o).lastPrice s = v.lastPrice s := by
  unfold place
  split
  · exact ⟨Function.update_of_ne ne _ _, Function.update_of_ne ne _ _⟩
  · exact ⟨rfl, rfl⟩

/-- **Placements on different symbols may be swapped.** -/
theorem place_independent : Independent Order.symbol place := by
  intro v a b ne
  obtain ⟨bookB, priceB⟩ := v.place_other a ne.symm
  obtain ⟨bookA, priceA⟩ := v.place_other b ne
  have readyB : (v.place a).Ready b ↔ v.Ready b := by rw [Ready, Ready, priceB]
  have readyA : (v.place b).Ready a ↔ v.Ready a := by rw [Ready, Ready, priceA]
  have tradesB : (v.place a).tradesOf b = v.tradesOf b := by
    rw [EngineView.tradesOf, EngineView.tradesOf, EngineView.bookFor, EngineView.bookFor, bookB]
  have tradesA : (v.place b).tradesOf a = v.tradesOf a := by
    rw [EngineView.tradesOf, EngineView.tradesOf, EngineView.bookFor, EngineView.bookFor, bookA]
  rw [place.eq_1 (v.place a), place.eq_1 (v.place b), tradesA, tradesB]
  by_cases ra : v.Ready a
  · by_cases rb : v.Ready b
    · rw [if_pos (readyB.mpr rb), if_pos (readyA.mpr ra), place, place, if_pos ra, if_pos rb]
      dsimp only
      rw [EngineView.matched_independent _ a b ne, Set.union_right_comm]
    · rw [if_neg (mt readyB.mp rb), if_pos (readyA.mpr ra), place, place, if_pos ra, if_neg rb]
  · by_cases rb : v.Ready b
    · rw [if_pos (readyB.mpr rb), if_neg (mt readyA.mp ra), place, place, if_neg ra, if_pos rb]
    · rw [if_neg (mt readyB.mp rb), if_neg (mt readyA.mp ra), place, place, if_neg ra, if_neg rb]
      dsimp only
      rw [Multiset.cons_swap]

variable (ids : Nat → Nat)

/-- **A placement sees neither ids nor dates.** -/
theorem place_relabelled (v : EngineLook) (o : Order ℚ) :
    (v.map (Order.relabelled ids)).place (o.relabelled ids)
      = (v.place o).map (Order.relabelled ids) := by
  have matched := v.toEngineView.matched_map (keepsTerms_relabelled ids) o
  have trades := v.toEngineView.tradesOf_map (keepsTerms_relabelled ids) o
  have ready : (v.map (Order.relabelled ids)).Ready (o.relabelled ids) ↔ v.Ready o :=
    and_congr (isStarted_relabelled ids o) Iff.rfl
  have symbols : (((v.toEngineView.map (Order.relabelled ids)).tradesOf (o.relabelled ids)).map
      Trade.symbol) = (v.tradesOf o).map Trade.symbol := by
    have seen := congrArg (List.map fun x : ClientId × ClientId × Symbol × ℤ × ℚ => x.2.2.1)
      trades
    rwa [List.map_map, List.map_map] at seen
  rw [place, place]
  by_cases placed : v.Ready o
  · rw [if_pos (ready.mpr placed), if_pos placed]
    exact congrArg₂ (fun w seen => EngineLook.mk w _ (v.dirty ∪ {s | s ∈ seen})) matched symbols
  · rw [if_neg (mt ready.mp placed), if_neg placed, map, map, Multiset.map_cons]

end EngineLook

/-- Settlement marks the symbols of its trades. -/
theorem MatchingEngine.mem_dirtySymbols_settleAll {ts : List (Trade ℚ)} {e : MatchingEngine ℚ}
    {s : Symbol} :
    s ∈ (settleAll ts e).dirtySymbols ↔ s ∈ e.dirtySymbols ∨ s ∈ ts.map Trade.symbol := by
  induction ts generalizing e with
  | nil => simp [settleAll]
  | cons t ts ih =>
      have marked : s ∈ (settleTrade e t).dirtySymbols ↔ s = t.symbol ∨ s ∈ e.dirtySymbols :=
        AList.mem_insert _
      rw [settleAll_cons, ih, marked, List.map_cons, List.mem_cons, or_assoc, or_left_comm]

namespace EngineInvariant

variable {e : MatchingEngine ℚ} {pending : List (Order ℚ)}

/-- Every order that the engine has was given its id. -/
theorem map_look {f g : Order ℚ → Order ℚ} (inv : EngineInvariant e pending)
    (same : ∀ o : Order ℚ, o.id < e.nextOrderId → f o = g o) : e.look.map f = e.look.map g := by
  have books : ∀ s, (e.books.lookup s).map (OrderBook.map f)
      = (e.books.lookup s).map (OrderBook.map g) := by
    intro s
    cases look : e.books.lookup s with
    | none => rfl
    | some b =>
        refine congrArg some (OrderBook.map_congr fun o mem => same o ?_)
        have resting : o ∈ e.allResting := mem_allResting.mpr ⟨s, by rwa [bookFor, look]⟩
        exact inv.given o.id (List.mem_map_of_mem
          (List.mem_append_right _ (List.mem_append_left _ resting)))
  have waiting : e.look.waiting.map f = e.look.waiting.map g := by
    refine Multiset.map_congr rfl fun o mem => same o ?_
    exact inv.given o.id (List.mem_map_of_mem
      (List.mem_append_right _ (List.mem_append_right _ mem)))
  exact congrArg₂ (fun book waiting => EngineLook.mk { e.view with book := book } waiting _)
    (funext books) waiting

theorem look_matched {o : Order ℚ} (inv : EngineInvariant e (o :: pending)) (clock : Nat → Int) :
    (MatchingEngine.matched clock o e).look =
      { toEngineView := e.view.matched o
        waiting := e.waitingOrders
        dirty := e.look.dirty ∪ {s | s ∈ (e.view.tradesOf o).map Trade.symbol} } := by
  have untimed : (matchBook clock o e).1.map Trade.untimed = e.view.tradesOf o :=
    OrderBook.untimed_matchOrder ..
  have dirty : {s | s ∈ (MatchingEngine.matched clock o e).dirtySymbols}
      = e.look.dirty ∪ {s | s ∈ (e.view.tradesOf o).map Trade.symbol} := by
    ext s
    rw [← untimed, List.map_map]
    exact mem_dirtySymbols_settleAll
  rw [look, inv.view_matched, waitingOrders_matched, dirty]

/-- **An accepted submission puts its order in place.** -/
theorem look_submitted (inv : EngineInvariant e []) (now : Int) (clock : Nat → Int)
    {request : OrderRequest ℚ} (admits : e.Admits request) :
    ((submitOrder now clock request).exec e).2.look
      = e.look.place (buildOrder request e.nextOrderId now) := by
  have arrived := inv.admitted now admits
  rw [look_of_core (core_submitOrder now clock request e), submitted, EngineLook.place]
  dsimp only
  rw [if_pos admits]
  by_cases ready : e.Ready now (buildOrder request e.nextOrderId now)
  · have atOnce : e.look.Ready (buildOrder request e.nextOrderId now) := ready
    rw [if_pos ready, if_pos atOnce]
    exact arrived.look_matched clock
  · have later : ¬e.look.Ready (buildOrder request e.nextOrderId now) := ready
    rw [if_neg ready, if_neg later]
    have waiting := Multiset.coe_eq_coe.mpr arrived.waitingOrders_enqueue
    exact congrArg (fun waiting => { e.look with waiting := waiting }) waiting

theorem after_submitOrder (inv : EngineInvariant e []) (now : Int) (clock : Nat → Int)
    {request : OrderRequest ℚ} (admits : e.Admits request) :
    EngineInvariant ((submitOrder now clock request).exec e).2 [] ∧
      ((submitOrder now clock request).exec e).2.nextOrderId = e.nextOrderId + 1 := by
  have same := core_submitOrder now clock request e
  refine ⟨(inv.effect (.submitOrder now clock request)).of_core same, ?_⟩
  rw [nextOrderId_of_core same, submitted, if_pos admits]
  split
  · exact matched_nextOrderId ..
  · rfl

end EngineInvariant

/-! ### Two submissions -/

/-- Two requests, one after the other. -/
def submitBoth (now now' : Int) (clock clock' : Nat → Int) (first second : OrderRequest ℚ) :
    Prog (MatchingEngine ℚ) (SubmitResult ℚ × SubmitResult ℚ) := do
  let result ← submitOrder now clock first
  let result' ← submitOrder now' clock' second
  return (result, result')

section

variable {e : MatchingEngine ℚ} (now now' : Int) (clock clock' : Nat → Int)
  {first second : OrderRequest ℚ}

theorem exec_submitBoth : (submitBoth now now' clock clock' first second).exec e
    = let one := (submitOrder now clock first).exec e
      let two := (submitOrder now' clock' second).exec one.2
      ((one.1, two.1), two.2) := by
  simp only [submitBoth, Prog.exec_bind, Prog.exec_pure]

/-- The look after two accepted submissions, with other ids. -/
theorem EngineInvariant.look_submitBoth (inv : EngineInvariant e []) (ids : Nat → Nat)
    (accepted : ((submitBoth now now' clock clock' first second).exec e).1.1.accepted = true)
    (accepted' : ((submitBoth now now' clock clock' first second).exec e).1.2.accepted = true) :
    ((submitBoth now now' clock clock' first second).exec e).2.look.map (Order.relabelled ids)
      = ((e.look.map (Order.relabelled ids)).place
          (buildOrder first (ids e.nextOrderId) 0)).place
          (buildOrder second (ids (e.nextOrderId + 1)) 0) := by
  rw [exec_submitBoth] at accepted accepted' ⊢
  dsimp only at accepted accepted' ⊢
  have admits := (result_submitOrder now clock first e).1.mp accepted
  obtain ⟨inv', next⟩ := inv.after_submitOrder now clock admits
  have admits' := (result_submitOrder now' clock' second _).1.mp accepted'
  have looks := inv'.look_submitted now' clock' admits'
  rw [inv.look_submitted now clock admits, next] at looks
  rw [looks, ← EngineLook.place_relabelled, ← EngineLook.place_relabelled,
    relabelled_buildOrder, relabelled_buildOrder]

end

/-- **Submissions on different symbols may be swapped.** At any moment of any run let two requests
on different symbols be accepted one after the other, and in the other order as well. Books, last
prices, portfolios, waiting orders and dirty symbols are then the same, if the two new orders
exchange ids and all dates count from the submission. -/
theorem submissions_commute {setup : List (SetupCall ℚ)} {threads : List (List (EngineCall ℚ))}
    {e : MatchingEngine ℚ} {ps : List (Prog (MatchingEngine ℚ) Unit)}
    (run : Interleaves (setUp setup, threads.map threadProgram) (e, ps))
    {first second : OrderRequest ℚ} (ne : first.symbol ≠ second.symbol)
    (t₁ t₂ t₃ t₄ : Int) (c₁ c₂ c₃ c₄ : Nat → Int)
    (accepted : ((submitBoth t₁ t₂ c₁ c₂ first second).exec e).1.1.accepted = true)
    (accepted' : ((submitBoth t₁ t₂ c₁ c₂ first second).exec e).1.2.accepted = true)
    (swapped : ((submitBoth t₃ t₄ c₃ c₄ second first).exec e).1.1.accepted = true)
    (swapped' : ((submitBoth t₃ t₄ c₃ c₄ second first).exec e).1.2.accepted = true) :
    ((submitBoth t₁ t₂ c₁ c₂ first second).exec e).2.look.map
        (Order.relabelled (Equiv.swap e.nextOrderId (e.nextOrderId + 1)))
      = ((submitBoth t₃ t₄ c₃ c₄ second first).exec e).2.look.map (Order.relabelled id) := by
  have inv := EngineInvariant.of_interleaves run
  have old : e.look.map (Order.relabelled (Equiv.swap e.nextOrderId (e.nextOrderId + 1)))
      = e.look.map (Order.relabelled id) := by
    refine inv.map_look fun o given => ?_
    have kept := Equiv.swap_apply_of_ne_of_ne given.ne (given.trans (Nat.lt_succ_self _)).ne
    rw [Order.relabelled, Order.relabelled, kept, id]
  have symbols : (buildOrder first (e.nextOrderId + 1) 0).symbol
      ≠ (buildOrder second e.nextOrderId 0).symbol := ne
  rw [inv.look_submitBoth t₁ t₂ c₁ c₂ _ accepted accepted',
    inv.look_submitBoth t₃ t₄ c₃ c₄ _ swapped swapped', Equiv.swap_apply_left,
    Equiv.swap_apply_right, old]
  exact EngineLook.place_independent _ _ _ symbols

/-- A client with cash and one with shares of two symbols. -/
def twoMarkets : List (SetupCall ℚ) :=
  buyerAndSeller ++ [.registerSymbol "MSFT" 50, .grantInitialHoldings 2 "MSFT" 10]

/-- The buyer takes the first offer, and the seller leaves a stop order on the other symbol. -/
theorem submissions_commute_takeAndStop : ∃ e ps,
    Interleaves (setUp twoMarkets, [twoOffers].map threadProgram) (e, ps) ∧
      let take := request 1 .buy .limit "AAPL" 4 90
      let stop := request 2 .sell .stop "MSFT" 3 40
      let out := (submitBoth 1 2 (fun _ => 1) (fun _ => 2) take stop).exec e
      let out' := (submitBoth 1 2 (fun _ => 1) (fun _ => 2) stop take).exec e
      out.1.1.filledQuantity = 4 ∧ out.1.2.queued = true ∧
        out.2.look.map (Order.relabelled (Equiv.swap e.nextOrderId (e.nextOrderId + 1)))
          = out'.2.look.map (Order.relabelled id) := by
  have run : Interleaves (setUp twoMarkets, [twoOffers].map threadProgram)
      (((threadProgram twoOffers).exec (setUp twoMarkets)).2,
        [.ret ((threadProgram twoOffers).exec (setUp twoMarkets)).1]) :=
    interleaves_exec [] [] (threadProgram twoOffers) (setUp twoMarkets)
  refine ⟨_, _, run, by decide +kernel, by decide +kernel, ?_⟩
  exact submissions_commute run (by decide) 1 2 1 2 (fun _ => 1) (fun _ => 2) (fun _ => 1)
    (fun _ => 2) (by decide +kernel) (by decide +kernel) (by decide +kernel) (by decide +kernel)

end StockMarket
