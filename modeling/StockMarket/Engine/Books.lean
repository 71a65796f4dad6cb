import StockMarket.Book.Totals
import StockMarket.Engine.LastPrice
import StockMarket.Engine.Threads
import StockMarket.MarketRecorder

/-!
The books of an engine that many threads trade on.

The invariant of a single book (`BookInvariant`) asks that submitted orders are new. An engine
gives each order an id of its own, so the threads of an engine keep it in every book
(`EngineBooks.move`): whatever they call and however they are scheduled, no book is ever crossed,
not even between the actions of one call, and so no snapshot shows one that is (`neverCrossed`).
-/

namespace StockMarket

open Atomic MatchingEngine

variable {P : Type} [LinearOrder P]

/-! ### Snapshots -/

/-- Best levels first on both sides, and every bid below every ask. -/
structure BookSnapshot.InOrder (snap : BookSnapshot P) : Prop where
  bids : snap.bids.Pairwise fun l k => k.price < l.price
  asks : snap.asks.Pairwise fun l k => l.price < k.price
  uncrossed : ∀ bid ∈ snap.bids, ∀ ask ∈ snap.asks, bid.price < ask.price

/-- A level has something to trade. -/
theorem LevelsWF.levelTotal_pos {s : Side} {ls : List (Level P)} (wf : LevelsWF s ls) {l : Level P}
    (mem : l ∈ ls) : 0 < levelTotal (· + ·) l.queue := by
  rw [levelTotal_exact]
  refine List.sum_pos _ (fun q here => ?_) fun none =>
    wf.nonempty l mem (List.map_eq_nil_iff.mp none)
  obtain ⟨o, ho, rfl⟩ := List.mem_map.mp here
  exact wf.positive l mem o ho

/-- A snapshot of a book in order, of any depth and however it adds up. -/
theorem BookInvariant.snapshot {b : OrderBook P} (inv : BookInvariant b)
    (plus : Int → Int → Int) (depth : Nat) :
    (b.snapshot plus depth).InOrder := by
  have agree : ViewsAgree plus b := viewsAgree inv.wellFormed inv.ownSide
  obtain ⟨bids, asks⟩ := agree.bestFirst depth
  refine ⟨bids, asks, fun bid hbid ask hask => ?_⟩
  rw [OrderBook.snapshot_eq] at hbid hask
  obtain ⟨l, hl, rfl⟩ := List.mem_map.mp hbid
  obtain ⟨k, hk, rfl⟩ := List.mem_map.mp hask
  exact inv.uncrossed l (List.mem_of_mem_take hl) k (List.mem_of_mem_take hk)

/-- Its totals are positive if no addition overflows. -/
theorem BookInvariant.snapshot_pos {b : OrderBook P} (inv : BookInvariant b) {depth : Nat} :
    ∀ level ∈ (b.snapshot (· + ·) depth).bids ++ (b.snapshot (· + ·) depth).asks,
      0 < level.quantity := by
  intro level mem
  rw [OrderBook.snapshot_eq, ← List.map_append] at mem
  obtain ⟨l, hl, rfl⟩ := List.mem_map.mp mem
  rcases List.mem_append.mp hl with side | side
  · exact (inv.wellFormed .buy).levelTotal_pos (List.mem_of_mem_take side)
  · exact (inv.wellFormed .sell).levelTotal_pos (List.mem_of_mem_take side)

/-! ### Threads -/

/-- All books are in order, and so is what the threads have in hand. -/
structure EngineBooks (e : MatchingEngine P) (φs : List (Phase P)) : Prop where
  threads : ThreadsInvariant e φs
  book : ∀ s, BookInvariant (e.bookFor s)

namespace EngineBooks

variable {e e' : MatchingEngine P} {φ φ' : Phase P} {φs φs' : List (Phase P)}

theorem perm (inv : EngineBooks e φs) (same : φs.Perm φs') : EngineBooks e φs' :=
  ⟨inv.threads.perm same, inv.book⟩

theorem of_idle (idle : Idle e) (phases : ∀ φ ∈ φs, φ = .idle) : EngineBooks e φs :=
  ⟨.of_idle idle.invariant phases, fun s => idle.book s ▸ .new s⟩

/-- A book may be replaced by one in order. -/
theorem withBook (book : ∀ s, BookInvariant (e.bookFor s)) {s : Symbol} {b : OrderBook P}
    (inv : BookInvariant b) : ∀ t, BookInvariant ((e.withBook s b).bookFor t) := by
  intro t
  by_cases here : t = s
  · subst here
    rw [bookFor_withBook]
    exact inv
  · rw [bookFor_withBook_ne _ _ _ here]
    exact book t

/-- An order on its way rests in no book. -/
theorem fresh {o : Order P} {pending : List (Order P)} (inv : EngineInvariant e (o :: pending)) :
    ∀ r ∈ (e.bookFor o.symbol).restingOrders, r.id ≠ o.id := by
  intro r mem same
  refine (List.nodup_cons.mp inv.once).1 (List.mem_map.mpr ⟨r, ?_, same⟩)
  exact List.mem_append_right _ (List.mem_append_left _ (mem_allResting.mpr ⟨_, mem⟩))

theorem matched {o : Order P} {later : List (Order P)} (inv : EngineBooks e (φ :: φs))
    (clock : Nat → Int) (underway : φ.underway = o :: later) :
    ∀ t, BookInvariant ((matchBook clock o e).2.bookFor t) := by
  have engine := inv.threads.engine
  rw [List.flatMap_cons, underway, List.cons_append] at engine
  have new : ∀ p, (BookOp.submit clock o).submitted = some p →
      ∀ r ∈ (e.bookFor o.symbol).restingOrders, r.id ≠ p.id := by
    intro p hp
    obtain rfl := Option.some.inj hp
    exact fresh engine
  exact withBook inv.book ((inv.book o.symbol).apply new)

theorem cancelled (book : ∀ s, BookInvariant (e.bookFor s)) (s : Symbol) :
    ∀ c : BookCancel P, ∀ t, BookInvariant ((e.withBook s (c.apply (e.bookFor s)).2).bookFor t)
  | .byId id => by
      have kept : BookInvariant ((e.bookFor s).apply (.cancel id)) :=
        (book s).apply (by intro o ho; cases ho)
      exact withBook book kept
  | .atPrice side price id => by
      have kept : BookInvariant ((e.bookFor s).apply (.cancelAtPrice side price id)) :=
        (book s).apply (by intro o ho; cases ho)
      exact withBook book kept

variable [Zero P] [Add P] [Sub P] [Mul P] [IntCast P]

/-- **Every move keeps the books in order.** -/
theorem move (inv : EngineBooks e (φ :: φs)) (moves : Move φ e φ' e') :
    EngineBooks e' (φ' :: φs) := by
  refine ⟨inv.threads.move moves, ?_⟩
  cases moves with
  | quiet φ same =>
      intro s
      rw [bookFor, same.books]
      exact inv.book s
  | matchNew clock o => exact inv.matched clock rfl
  | matchReleased clock o later => exact inv.matched clock rfl
  | cancelBook φ c s => exact cancelled inv.book s c
  | @probe _ orderId s _ | @probeFound _ orderId s _ => exact cancelled inv.book s (.byId orderId)
  | _ => exact inv.book

end EngineBooks

section

variable [Zero P] [Add P] [Sub P] [Mul P] [IntCast P] [OfScientific P]

/-- Between any two actions of some threads every book is in order. -/
theorem BookInvariant.of_interleaves {setup : List (SetupCall P)}
    {threads : List (List (EngineCall P))} {e : MatchingEngine P}
    {ps : List (Prog (MatchingEngine P) Unit)}
    (run : Interleaves (setUp setup, threads.map threadProgram) (e, ps)) (s : Symbol) :
    BookInvariant (e.bookFor s) := by
  obtain ⟨threads', -, moves⟩ := interleaves_iff_engineRun.mp run
  have start : EngineBooks (setUp setup) (phases (startThreads threads)) :=
    .of_idle (idle_setUp setup) phases_startThreads
  exact (moves.keep (fun _ _ _ same inv => inv.perm same)
    (fun _ _ _ _ _ moves _ inv => inv.move moves) start).book s

/-- **The market is never crossed.** Whatever some threads submit, cancel and release, and however
they are scheduled, at every moment every book is in order, with its best bid below its best ask;
a snapshot of any depth, taken at any moment, shows a book in order, however it adds up, and its
totals are positive if it adds up without overflow. -/
theorem neverCrossed (setup : List (SetupCall P)) (threads : List (List (EngineCall P)))
    {e : MatchingEngine P} {ps : List (Prog (MatchingEngine P) Unit)}
    (run : Interleaves (setUp setup, threads.map threadProgram) (e, ps)) (s : Symbol) :
    BookInvariant (e.bookFor s) ∧
      (∀ bid ask, (e.bookFor s).bestBid = some bid → (e.bookFor s).bestAsk = some ask → bid < ask) ∧
      ∀ depth, (∀ plus, (e.snapshot plus s depth).InOrder) ∧
        ∀ level ∈ (e.snapshot (· + ·) s depth).bids ++ (e.snapshot (· + ·) s depth).asks,
          0 < level.quantity := by
  have inv : BookInvariant (e.bookFor s) := .of_interleaves run s
  refine ⟨inv, fun _ _ => inv.best_lt, fun depth => ?_⟩
  unfold MatchingEngine.snapshot
  split
  · exact ⟨fun plus => inv.snapshot plus depth, inv.snapshot_pos⟩
  · exact ⟨fun _ => ⟨.nil, .nil, List.forall_mem_nil _⟩, List.forall_mem_nil _⟩

end

/-- The buyer takes the first offer, and what is left of the bid rests below the second. -/
theorem neverCrossed_twoOffers : ∃ e ps,
    Interleaves (setUp buyerAndSeller,
      [twoOffers, buysUpTo 80, buysUpTo 92].map threadProgram) (e, ps) ∧
      (e.bookFor "AAPL").bestBid = some 80 ∧ (e.bookFor "AAPL").bestAsk = some 95 ∧
      (e.snapshot add64 "AAPL" 1).InOrder := by
  obtain ⟨ps, run, -⟩ := interleaves_execAll
    ([twoOffers, buysUpTo 80, buysUpTo 92].map threadProgram) (setUp buyerAndSeller)
  refine ⟨_, ps, run, by decide +kernel, by decide +kernel, ?_⟩
  exact ((neverCrossed _ _ run "AAPL").2.2 1).1 add64

end StockMarket
