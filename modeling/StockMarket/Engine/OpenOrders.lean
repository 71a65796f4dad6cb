import StockMarket.Book.Account
import StockMarket.Engine.Sequential
import StockMarket.Registry.ExactlyOnce
import Mathlib.Data.List.TakeWhile

/-!
The open orders of an engine and the invariant that keeps track of them.

An order is open while it rests in a book, waits in the registry, or is on its
way between the two (`pending`). `EngineInvariant` says that books and registry
are in order and that no order id is open twice. Every method moves open orders
along: matching takes one pending order into its book, a scan takes waiting orders
out and makes them pending, and a cancellation takes one order away. Each move has
one lemma for the invariant and one that says where the orders went.
-/

namespace StockMarket

variable {P : Type}

namespace MatchingEngine

/-- Every order resting in a book. -/
def allResting (e : MatchingEngine P) : List (Order P) :=
  Table.gather OrderBook.restingOrders e.books

/-- Every open order, if `pending` are on their way. -/
def openOrders (e : MatchingEngine P) (pending : List (Order P)) : List (Order P) :=
  pending ++ (e.allResting ++ e.waitingOrders)

/-- Every order resting in another book. -/
def elsewhere (e : MatchingEngine P) (s : Symbol) : List (Order P) :=
  Table.gather OrderBook.restingOrders (e.books.erase s)

/-- The engine with another book for a symbol. -/
def withBook (e : MatchingEngine P) (s : Symbol) (b : OrderBook P) : MatchingEngine P :=
  { e with books := e.books.insert s b }

section

variable (e : MatchingEngine P) (s : Symbol) (b : OrderBook P)

theorem allResting_perm : e.allResting.Perm ((e.bookFor s).restingOrders ++ e.elsewhere s) := by
  refine (Table.gather_perm _ s e.books).trans (List.Perm.of_eq ?_)
  unfold bookFor
  cases e.books.lookup s with
  | none => rfl
  | some b => rfl

theorem allResting_withBook : (e.withBook s b).allResting = b.restingOrders ++ e.elsewhere s :=
  Table.gather_insert _ s b e.books

@[simp] theorem bookFor_withBook : (e.withBook s b).bookFor s = b := by
  have look : (e.withBook s b).books.lookup s = some b := AList.lookup_insert _
  rw [bookFor, look, Option.getD_some]

theorem bookFor_withBook_ne {t : Symbol} (ne : t ≠ s) :
    (e.withBook s b).bookFor t = e.bookFor t := by
  have look : (e.withBook s b).books.lookup t = e.books.lookup t := AList.lookup_insert_ne ne
  rw [bookFor, look, bookFor]

end

theorem mem_allResting {e : MatchingEngine P} {o : Order P} :
    o ∈ e.allResting ↔ ∃ s, o ∈ (e.bookFor s).restingOrders := by
  unfold allResting bookFor
  rw [Table.mem_gather]
  constructor
  · rintro ⟨s, b, look, mem⟩
    exact ⟨s, by rwa [look]⟩
  · rintro ⟨s, mem⟩
    cases look : e.books.lookup s with
    | none =>
        rw [look] at mem
        cases mem
    | some b => exact ⟨s, b, look, by rwa [look] at mem⟩

end MatchingEngine

open MatchingEngine

/-! ### The invariant -/

/-- Books and registry are in order, waiting and pending orders have quantity and a
book to go to, and every open order has an id of its own that was given out. -/
structure EngineInvariant [LT P] (e : MatchingEngine P) (pending : List (Order P)) : Prop where
  book : ∀ s, BookOf s (e.bookFor s)
  registry : RegistryInvariant e.registry
  arriving : ∀ o ∈ pending ++ e.waitingOrders, 0 < o.quantity ∧ o.symbol ∈ e.books
  once : ((e.openOrders pending).map Order.id).Nodup
  given : ∀ id ∈ (e.openOrders pending).map Order.id, id < e.nextOrderId

namespace EngineInvariant

section

variable [LT P] {e : MatchingEngine P} {pending : List (Order P)}

/-- Every open order has quantity. -/
theorem positive (inv : EngineInvariant e pending) {o : Order P}
    (mem : o ∈ e.openOrders pending) : 0 < o.quantity := by
  rcases List.mem_append.mp mem with mem | mem
  · exact (inv.arriving o (List.mem_append_left _ mem)).1
  · rcases List.mem_append.mp mem with mem | mem
    · obtain ⟨s, mem⟩ := mem_allResting.mp mem
      exact (inv.book s).positive o mem
    · exact (inv.arriving o (List.mem_append_right _ mem)).1

/-- Ids that were open before are still distinct and given out. -/
theorem ids {e' : MatchingEngine P} {pending' : List (Order P)} (inv : EngineInvariant e pending)
    (ids : ((e'.openOrders pending').map Order.id).Subperm ((e.openOrders pending).map Order.id)) :
    ((e'.openOrders pending').map Order.id).Nodup ∧
      ∀ id ∈ (e'.openOrders pending').map Order.id, id < e.nextOrderId := by
  obtain ⟨kept, perm, sub⟩ := ids
  exact ⟨perm.nodup_iff.mp (inv.once.sublist sub), fun id mem =>
    inv.given id (sub.subset (perm.mem_iff.mpr mem))⟩

/-- Only books, registry and the next id matter. -/
theorem congr {e' : MatchingEngine P} (inv : EngineInvariant e pending)
    (books : e'.books = e.books) (registry : e'.registry = e.registry)
    (nextOrderId : e'.nextOrderId = e.nextOrderId) : EngineInvariant e' pending where
  book := by
    intro s
    unfold bookFor
    rw [books]
    exact inv.book s
  registry := registry ▸ inv.registry
  arriving := by
    unfold waitingOrders
    rw [books, registry]
    exact inv.arriving
  once := by
    unfold openOrders allResting waitingOrders
    rw [books, registry]
    exact inv.once
  given := by
    unfold openOrders allResting waitingOrders
    rw [books, registry, nextOrderId]
    exact inv.given

/-- Counters and published events do not matter. -/
theorem of_core {e' : MatchingEngine P} (inv : EngineInvariant e pending)
    (same : e'.core = e.core) : EngineInvariant e' pending := by
  have inv' : EngineInvariant e.core pending := inv.congr rfl rfl rfl
  rw [← same] at inv'
  exact inv'.congr rfl rfl rfl

end

end EngineInvariant

/-! ### Setting up -/

namespace MatchingEngine

theorem bookFor_registerSymbol (e : MatchingEngine P) (s : Symbol) (price : P) (t : Symbol) :
    (e.registerSymbol s price).bookFor t = e.bookFor t := by
  unfold registerSymbol bookFor
  by_cases eq : t = s
  · subst eq
    rw [Table.lookup_tryEmplace_self, Option.getD_some]
  · rw [Table.lookup_tryEmplace_ne eq]

/-- Nothing was submitted yet. -/
structure Idle (e : MatchingEngine P) : Prop where
  book : ∀ s, e.bookFor s = OrderBook.new s
  registry : e.registry = {}
  dirtySymbols : e.dirtySymbols = ∅
  emitted : e.emitted = []
  discarded : e.discarded = []

theorem Idle.apply [Zero P] {e : MatchingEngine P} (idle : Idle e) (call : SetupCall P) :
    Idle (call.apply e) := by
  cases call with
  | registerSymbol symbol price =>
      exact { idle with book := fun s =>
        (bookFor_registerSymbol e symbol price s).trans (idle.book s) }
  | ensureClient client cash => exact { idle with }
  | grantInitialHoldings client symbol quantity => exact { idle with }

/-- A set-up engine is idle. -/
theorem idle_setUp [Zero P] (setup : List (SetupCall P)) : Idle (setUp setup) := by
  have all : ∀ (calls : List (SetupCall P)) (e : MatchingEngine P), Idle e →
      Idle (calls.foldl SetupCall.apply e) := by
    intro calls
    induction calls with
    | nil => exact fun e idle => idle
    | cons call calls ih => exact fun e idle => ih (call.apply e) (idle.apply call)
  exact all setup {} ⟨fun s => rfl, rfl, rfl, rfl, rfl⟩

/-- No id was given out. -/
theorem nextOrderId_setUp [Zero P] (setup : List (SetupCall P)) :
    (setUp setup).nextOrderId = 1 := by
  have all : ∀ (calls : List (SetupCall P)) (e : MatchingEngine P),
      (calls.foldl SetupCall.apply e).nextOrderId = e.nextOrderId := by
    intro calls
    induction calls with
    | nil => exact fun e => rfl
    | cons call calls ih =>
        intro e
        refine (ih (call.apply e)).trans ?_
        cases call <;> rfl
  exact all setup {}

theorem Idle.openOrders {e : MatchingEngine P} (idle : Idle e) : e.openOrders [] = [] := by
  have resting : e.allResting = [] := by
    refine List.eq_nil_iff_forall_not_mem.mpr fun o mem => ?_
    obtain ⟨s, mem⟩ := mem_allResting.mp mem
    rw [idle.book s] at mem
    cases mem
  rw [MatchingEngine.openOrders, resting, waitingOrders, idle.registry]
  rfl

theorem Idle.invariant [LT P] {e : MatchingEngine P} (idle : Idle e) : EngineInvariant e [] where
  book := by
    intro s
    rw [idle.book s]
    exact BookOf.new s
  registry := idle.registry ▸ RegistryInvariant.empty
  arriving := by
    intro o mem
    have waiting : o ∈ e.registry.allWaiting := mem
    rw [idle.registry] at waiting
    cases waiting
  once := by
    rw [idle.openOrders]
    exact List.nodup_nil
  given := by
    rw [idle.openOrders]
    intro id mem
    cases mem

end MatchingEngine

/-! ### Cancellations in a book -/

/-- A cancellation in a book finds nothing, or takes one order of that id away. -/
def CancelsOne (id : Nat) (b : OrderBook P) (out : Bool × OrderBook P) : Prop :=
  out = (false, b) ∨
    ∃ t ls', Removed id (b.levels t) ls' ∧ out = (true, b.setLevels t ls')

section

variable [LT P] [DecidableLT P]

theorem cancelAtPrice_one (b : OrderBook P) (side : Side) (price : P) (id : Nat) :
    CancelsOne id b (b.cancelAtPrice side price id) := by
  rcases b.cancelAtPrice_cases side price id with none | ⟨ls', removed, eq⟩
  · exact .inl none
  · exact .inr ⟨side, ls', removed, eq⟩

theorem cancel_one [IsStrictOrder P (· < ·)] {s : Symbol} {b : OrderBook P} (book : BookOf s b)
    (id : Nat) : CancelsOne id b (b.cancel id) := by
  rcases OrderBook.cancel_cases book.sorted id with ⟨-, none⟩ | ⟨side, ls', removed, eq⟩
  · exact .inl none
  · exact .inr ⟨side, ls', removed, eq⟩

omit [LT P] [DecidableLT P] in
/-- What rests after a cancellation in a book rested before. -/
theorem CancelsOne.subset {id : Nat} {e : MatchingEngine P} {s t : Symbol}
    {out : Bool × OrderBook P} (one : CancelsOne id (e.bookFor s) out) :
    ((e.withBook s out.2).bookFor t).restingOrders ⊆ (e.bookFor t).restingOrders := by
  intro r mem
  by_cases here : t = s
  · subst here
    rw [bookFor_withBook] at mem
    rcases one with missed | ⟨side, ls', removed, found⟩
    · rwa [missed] at mem
    · rw [found] at mem
      obtain ⟨side, mem⟩ := mem_restingOrders.mp mem
      exact mem_restingOrders.mpr ⟨side, removed.subset side mem⟩
  · rwa [bookFor_withBook_ne _ _ _ here] at mem

end

/-! ### Moves of open orders -/

namespace EngineInvariant

section

variable [LT P] {e : MatchingEngine P} {pending : List (Order P)} {o : Order P}

/-- The pending orders may be listed in any order. -/
theorem perm {pending' : List (Order P)} (inv : EngineInvariant e pending)
    (same : pending.Perm pending') : EngineInvariant e pending' := by
  have opened : (e.openOrders pending').Perm (e.openOrders pending) := same.symm.append_right _
  have ids := inv.ids (opened.map Order.id).subperm
  refine ⟨inv.book, inv.registry, fun r mem => ?_, ids.1, ids.2⟩
  exact inv.arriving r ((same.append_right _).mem_iff.mpr mem)

/-- A pending order is dropped. -/
theorem drop (inv : EngineInvariant e (o :: pending)) : EngineInvariant e pending where
  book := inv.book
  registry := inv.registry
  arriving := fun r mem => inv.arriving r (List.mem_cons_of_mem _ mem)
  once := (List.nodup_cons.mp inv.once).2
  given := fun id mem => inv.given id (List.mem_cons_of_mem _ mem)

/-- An order with an id of its own is on its way. -/
theorem accepted (inv : EngineInvariant e pending)
    (unused : o.id ∉ (e.openOrders pending).map Order.id) (given : o.id < e.nextOrderId)
    (pos : 0 < o.quantity) (known : o.symbol ∈ e.books) : EngineInvariant e (o :: pending) where
  book := inv.book
  registry := inv.registry
  arriving := by
    intro r mem
    rcases List.mem_cons.mp mem with rfl | mem
    · exact ⟨pos, known⟩
    · exact inv.arriving r mem
  once := List.nodup_cons.mpr ⟨unused, inv.once⟩
  given := by
    intro id mem
    rcases List.mem_cons.mp mem with rfl | mem
    · exact given
    · exact inv.given id mem

/-- A rejected submission takes an id. -/
theorem skip (inv : EngineInvariant e pending) : EngineInvariant e.withId pending where
  book := inv.book
  registry := inv.registry
  arriving := inv.arriving
  once := inv.once
  given := fun id mem => (inv.given id mem).trans (Nat.lt_succ_self _)

/-- An order with a fresh id is on its way. -/
theorem arrive (inv : EngineInvariant e pending) (fresh : o.id = e.nextOrderId)
    (pos : 0 < o.quantity) (known : o.symbol ∈ e.books) :
    EngineInvariant e.withId (o :: pending) := by
  refine inv.skip.accepted (fun mem => ?_) (fresh ▸ Nat.lt_succ_self _) pos known
  have before := inv.given o.id mem
  omega

theorem unseen (inv : EngineInvariant e (o :: pending)) :
    ∀ w, e.registry.Waits w → w.id ≠ o.id := by
  intro w waits same
  refine (List.nodup_cons.mp inv.once).1 (List.mem_map.mpr ⟨w, ?_, same⟩)
  exact List.mem_append_right _ (List.mem_append_right _ (inv.registry.mem_allWaiting.mpr waits))

theorem waitingOrders_enqueue (inv : EngineInvariant e (o :: pending)) :
    (MatchingEngine.enqueue o e).waitingOrders.Perm (o :: e.waitingOrders) :=
  inv.registry.allWaiting_add inv.unseen

/-- A pending order goes to the registry. -/
theorem openOrders_enqueue (inv : EngineInvariant e (o :: pending)) :
    ((MatchingEngine.enqueue o e).openOrders pending).Perm (e.openOrders (o :: pending)) := by
  refine ((inv.waitingOrders_enqueue.append_left e.allResting).append_left pending).trans ?_
  exact (List.perm_middle.append_left pending).trans List.perm_middle

theorem enqueue (inv : EngineInvariant e (o :: pending)) :
    EngineInvariant (MatchingEngine.enqueue o e) pending where
  book := inv.book
  registry := inv.registry.add inv.unseen
  arriving := by
    intro r mem
    refine inv.arriving r (List.mem_cons.mpr ?_)
    rcases List.mem_append.mp mem with mem | mem
    · exact .inr (List.mem_append_left _ mem)
    · rcases List.mem_cons.mp (inv.waitingOrders_enqueue.mem_iff.mp mem) with rfl | mem
      · exact .inl rfl
      · exact .inr (List.mem_append_right _ mem)
  once := (inv.ids (inv.openOrders_enqueue.map Order.id).subperm).1
  given := (inv.ids (inv.openOrders_enqueue.map Order.id).subperm).2

end

end EngineInvariant

/-! #### Matching -/

namespace MatchingEngine

section

variable [Zero P] [Add P] [Sub P] [Mul P] [IntCast P] [LT P] [DecidableLT P]

omit [Zero P] [Add P] [Sub P] [Mul P] [IntCast P] [LT P] [DecidableLT P] in
/-- The open orders around the book that a pending order goes to. -/
theorem openOrders_around (e : MatchingEngine P) (pending : List (Order P)) (o : Order P) :
    (e.openOrders (o :: pending)).Perm ((o :: (e.bookFor o.symbol).restingOrders)
      ++ (e.elsewhere o.symbol ++ (e.waitingOrders ++ pending))) := by
  unfold openOrders
  refine List.Perm.cons o (List.perm_append_comm.trans ?_)
  refine (List.Perm.of_eq (List.append_assoc _ _ _)).trans ?_
  exact ((e.allResting_perm o.symbol).append_right _).trans
    (List.Perm.of_eq (List.append_assoc _ _ _))

/-- Matching leaves the waiting orders alone. -/
theorem waitingOrders_matched (clock : Nat → Int) (o : Order P) (e : MatchingEngine P) :
    (matched clock o e).waitingOrders = e.waitingOrders := by
  rw [matched, waitingOrders, settleAll_registry]
  rfl

theorem openOrders_matched (clock : Nat → Int) (e : MatchingEngine P) (pending : List (Order P))
    (o : Order P) : ((matched clock o e).openOrders pending).Perm
      (((e.bookFor o.symbol).matchOrder clock o).2.restingOrders
        ++ (e.elsewhere o.symbol ++ (e.waitingOrders ++ pending))) := by
  have resting : (matched clock o e).allResting
      = ((e.bookFor o.symbol).matchOrder clock o).2.restingOrders ++ e.elsewhere o.symbol := by
    rw [matched, allResting, settleAll_books]
    exact e.allResting_withBook o.symbol _
  rw [openOrders, resting, waitingOrders_matched]
  refine List.perm_append_comm.trans ?_
  rw [List.append_assoc, List.append_assoc]

/-- Matching adds nothing to the open orders but changes of quantity. -/
theorem map_openOrders_matched {β : Type} (key : Order P → β)
    (same : ∀ o q, key (o.withQuantity q) = key o) (clock : Nat → Int) (e : MatchingEngine P)
    (pending : List (Order P)) (o : Order P) :
    (((matched clock o e).openOrders pending).map key).Subperm
      ((e.openOrders (o :: pending)).map key) := by
  refine ((openOrders_matched clock e pending o).map key).subperm.trans ?_
  refine List.Subperm.trans ?_ ((openOrders_around e pending o).map key).symm.subperm
  simp only [List.map_append]
  exact (map_matchOrder key same (e.bookFor o.symbol) clock o).append (List.Subperm.refl _)

theorem bookFor_matched (clock : Nat → Int) (o : Order P) (e : MatchingEngine P) (s : Symbol) :
    (matched clock o e).bookFor s
      = (e.withBook o.symbol ((e.bookFor o.symbol).matchOrder clock o).2).bookFor s := by
  unfold bookFor matched
  rw [settleAll_books]
  rfl

theorem mem_books_matched (clock : Nat → Int) {s : Symbol} (known : s ∈ e.books) (o : Order P) :
    s ∈ (matched clock o e).books := by
  rw [matched, settleAll_books]
  exact (AList.mem_insert _).mpr (.inr known)

omit [Zero P] [Add P] [Sub P] [Mul P] [IntCast P] in
/-- What rests after a match rested before, or is what is left of the order. -/
theorem mem_bookFor_matchBook {clock : Nat → Int} {o r : Order P} {s : Symbol}
    (mem : r ∈ ((matchBook clock o e).2.bookFor s).restingOrders) :
    (s = o.symbol ∧ tradedQuantity (matchBook clock o e).1 < o.quantity ∧
        ∃ q, r = o.withQuantity q) ∨
      ∃ r' ∈ (e.bookFor s).restingOrders, ∃ q, r = r'.withQuantity q := by
  change r ∈ ((e.withBook o.symbol ((e.bookFor o.symbol).matchOrder clock o).2).bookFor
    s).restingOrders at mem
  by_cases here : s = o.symbol
  · subst here
    rw [bookFor_withBook] at mem
    obtain ⟨side, mem⟩ := mem_restingOrders.mp mem
    by_cases left : tradedQuantity ((e.bookFor o.symbol).matchOrder clock o).1 < o.quantity
    · rcases mem_restingIn_matchOrder mem with ⟨-, -, q, -, same⟩ | ⟨r', hr', q, -, same⟩
      · exact .inl ⟨rfl, left, q, same⟩
      · exact .inr ⟨r', mem_restingOrders.mpr ⟨side, hr'⟩, q, same⟩
    · obtain ⟨r', hr', q, same⟩ := mem_restingIn_of_filled (not_lt.mp left) mem
      exact .inr ⟨r', mem_restingOrders.mpr ⟨side, hr'⟩, q, same⟩
  · rw [bookFor_withBook_ne _ _ _ here] at mem
    exact .inr ⟨r, mem, r.quantity, rfl⟩

/-- Settling does not touch the open orders. -/
theorem openOrders_matchBook (clock : Nat → Int) (e : MatchingEngine P) (pending : List (Order P))
    (o : Order P) : (matchBook clock o e).2.openOrders pending
      = (matched clock o e).openOrders pending := by
  unfold openOrders allResting waitingOrders
  rw [matched, settleAll_books, settleAll_registry]

/-- What a pending order takes from the book it goes to. -/
def fillFor (o : Order P) (e : MatchingEngine P) : List ((P × Order P) × Int) :=
  fillOf o.side o ((e.bookFor o.symbol).levels o.side.opposite)

/-- The rest of a MARKET order after its match. -/
def lost (clock : Nat → Int) (o : Order P) (e : MatchingEngine P) : List (Order P) :=
  if o.kind = .market then [o.withQuantity ((e.bookFor o.symbol).unfilled clock o)] else []

end

end MatchingEngine

namespace EngineInvariant

section

variable [Zero P] [Add P] [Sub P] [Mul P] [IntCast P] [LT P] [DecidableLT P]
  {e : MatchingEngine P} {pending : List (Order P)} {o : Order P}

/-- **A pending order is matched.** -/
theorem matched [IsStrictOrder P (· < ·)] (inv : EngineInvariant e (o :: pending))
    (clock : Nat → Int) : EngineInvariant (matched clock o e) pending := by
  have ids := inv.ids (map_openOrders_matched Order.id (fun _ _ => rfl) clock e pending o)
  have waiting : (MatchingEngine.matched clock o e).registry = e.registry := by
    rw [MatchingEngine.matched, settleAll_registry]
    rfl
  constructor
  · intro s
    rw [bookFor_matched]
    by_cases here : s = o.symbol
    · subst here
      rw [bookFor_withBook]
      exact (inv.book o.symbol).matchOrder clock rfl
    · rw [bookFor_withBook_ne _ _ _ here]
      exact inv.book s
  · rw [waiting]
    exact inv.registry
  · intro r mem
    rw [waitingOrders, waiting] at mem
    obtain ⟨pos, known⟩ := inv.arriving r (List.mem_cons_of_mem _ mem)
    exact ⟨pos, mem_books_matched clock known o⟩
  · exact ids.1
  · rw [MatchingEngine.matched, settleAll_nextOrderId]
    exact ids.2

/-- Its trades need not be settled for that. -/
theorem booked [IsStrictOrder P (· < ·)] (inv : EngineInvariant e (o :: pending))
    (clock : Nat → Int) : EngineInvariant (matchBook clock o e).2 pending := by
  refine (inv.matched clock).congr ?_ ?_ ?_
  · rw [MatchingEngine.matched, settleAll_books]
  · rw [MatchingEngine.matched, settleAll_registry]
  · rw [MatchingEngine.matched, settleAll_nextOrderId]

theorem matchedAll [IsStrictOrder P (· < ·)] (clock : Nat → Nat → Int) :
    ∀ (n : Nat) (orders : List (Order P)) {e : MatchingEngine P}, EngineInvariant e orders →
      EngineInvariant (matchedAll clock n orders e) []
  | _, [], _, inv => inv
  | n, _ :: orders, _, inv => matchedAll clock (n + 1) orders (inv.matched (clock n))

omit [Zero P] [Add P] [Sub P] [Mul P] [IntCast P] in
/-- What a match takes is the positive part of an order that rests on the other side,
at a price that is not refused. -/
theorem mem_fillFor (inv : EngineInvariant e pending) {f : (P × Order P) × Int}
    (mem : f ∈ e.fillFor o) : ∃ l ∈ (e.bookFor o.symbol).levels o.side.opposite,
      l.price = f.1.1 ∧ f.1.2 ∈ l.queue ∧ ¬refuses o.side o l.price ∧ 0 < f.2 := by
  have positive : ∀ x ∈ entries (acceptedLevels o.side o
      ((e.bookFor o.symbol).levels o.side.opposite)), 0 < entryQuantity x := by
    intro x hx
    obtain ⟨l, hl, -, hq⟩ := mem_entries.mp hx
    exact (inv.book o.symbol).positive x.2 (mem_restingOrders.mpr
      ⟨_, mem_restingIn.mpr ⟨l, List.takeWhile_subset _ hl, hq⟩⟩)
  obtain ⟨taken, pos, -⟩ := Greedy.amount_bounds positive mem
  obtain ⟨l, hl, price, hq⟩ := mem_entries.mp taken
  have accepted := List.mem_takeWhile_imp hl
  exact ⟨l, List.takeWhile_subset _ hl, price, hq, of_decide_eq_true accepted, pos⟩

omit [Zero P] [Add P] [Sub P] [Mul P] [IntCast P] in
/-- The trades of a match, in terms of its fills. -/
theorem matchBook_trades (inv : EngineInvariant e pending) (clock : Nat → Int) (o : Order P) :
    (matchBook clock o e).1 = fillTrades o.side o.symbol o clock 0 (e.fillFor o) := by
  have trades := (e.bookFor o.symbol).matchOrder_trades clock o
  rw [(inv.book o.symbol).symbol] at trades
  exact trades

theorem emitted_matched (clock : Nat → Int) (o : Order P) (e : MatchingEngine P) :
    (MatchingEngine.matched clock o e).emitted = e.emitted ++ (matchBook clock o e).1 := by
  rw [MatchingEngine.matched, settleAll_emitted]
  rfl

theorem discarded_matched (clock : Nat → Int) (o : Order P) (e : MatchingEngine P) :
    (MatchingEngine.matched clock o e).discarded = e.discarded ++ e.lost clock o := by
  have after : (matchBook clock o e).2.discarded = if o.kind = .market then
      e.discarded ++ [o.withQuantity ((e.bookFor o.symbol).unfilled clock o)]
    else e.discarded := rfl
  rw [MatchingEngine.matched, settleAll_discarded, after]
  unfold lost
  split
  · rfl
  · exact (List.append_nil _).symm

/-- **The account of a pending order's match.** -/
theorem weigh_matched {R : Type} [Ring R] {u : Order P → R}
    (same : ∀ o q, u (o.withQuantity q) = u o) (inv : EngineInvariant e (o :: pending))
    (clock : Nat → Int) :
    weigh u (e.openOrders (o :: pending))
      = weigh u ((MatchingEngine.matched clock o e).openOrders pending)
        + weighFill u o (e.fillFor o) + weigh u (e.lost clock o) := by
  have account := weigh_matchOrder same (e.bookFor o.symbol) clock o
  have pos := (inv.arriving o List.mem_cons_self).1
  have full := (inv.book o.symbol).unfilled_nonneg clock pos
  have rest : u o * ((if 0 < (e.bookFor o.symbol).unfilled clock o ∧ o.kind ≠ .market then 0
      else (e.bookFor o.symbol).unfilled clock o : Int) : R) = weigh u (e.lost clock o) := by
    unfold lost
    by_cases market : o.kind = .market
    · rw [if_neg fun h => h.2 market, if_pos market, weigh_cons, weigh_nil, same, add_zero]
      rfl
    · have none : (if 0 < (e.bookFor o.symbol).unfilled clock o ∧ o.kind ≠ .market then 0
          else (e.bookFor o.symbol).unfilled clock o : Int) = 0 := by
        split
        · rfl
        · rename_i spent
          exact le_antisymm (not_lt.mp fun h => spent ⟨h, market⟩) full
      rw [none, if_neg market, Int.cast_zero, mul_zero, weigh_nil]
  dsimp only at account
  rw [weigh_perm (openOrders_around e pending o), weigh_perm (openOrders_matched clock e pending o)]
  simp only [weigh_append]
  rw [account, rest]
  unfold fillFor
  abel

end

/-! #### Scanning -/

section

variable [Zero P] [LE P] [DecidableLE P] {e : MatchingEngine P}

omit [LE P] [DecidableLE P] [Zero P] in
theorem nodup_scannedSymbols (order : ReleaseOrder P) (fullScan : Bool) (e : MatchingEngine P) :
    (e.scannedSymbols order fullScan).Nodup := by
  unfold scannedSymbols
  cases fullScan
  · exact order.dirty.nodup_keys _
  · exact order.symbols.nodup_keys _

/-- The scan of a release pass is exact. -/
theorem releaseScan_exact [LT P] (inv : EngineInvariant e []) (order : ReleaseOrder P) (now : Int)
    (fullScan : Bool) : ScanExact e.registry (· ∈ e.scannedSymbols order fullScan) now e.lastPrice
      (e.releaseScan order now fullScan) :=
  inv.registry.scanSymbols_exact (nodup_scannedSymbols order fullScan e) fun _ _ => Iff.rfl

/-- **A scan** makes the released orders pending and takes the expired ones away. -/
theorem openOrders_scanned [LT P] (inv : EngineInvariant e []) (order : ReleaseOrder P)
    (now : Int) (fullScan : Bool) :
    (e.openOrders []).Perm
      ((e.scanned order now fullScan).openOrders (e.releaseScan order now fullScan).2.released
        ++ (e.releaseScan order now fullScan).2.expired) := by
  have split := (inv.releaseScan_exact order now fullScan).split
  have waiting : (e.scanned order now fullScan).waitingOrders
      = (e.releaseScan order now fullScan).1.allWaiting := rfl
  have resting : (e.scanned order now fullScan).allResting = e.allResting := rfl
  unfold openOrders
  rw [waiting, resting, List.nil_append]
  refine (split.append_left e.allResting).trans ?_
  rw [← List.append_assoc, ← List.append_assoc, ← List.append_assoc]
  refine List.Perm.append_right _ (List.perm_append_comm.trans ?_)
  rw [List.append_assoc]

theorem scanned [LT P] (inv : EngineInvariant e []) (order : ReleaseOrder P) (now : Int)
    (fullScan : Bool) : EngineInvariant (e.scanned order now fullScan)
      (e.releaseScan order now fullScan).2.released := by
  have split := (inv.releaseScan_exact order now fullScan).split
  have moved := ((inv.openOrders_scanned order now fullScan).map Order.id).symm
  rw [List.map_append] at moved
  have ids := inv.ids ((List.sublist_append_left _ _).subperm.trans moved.subperm)
  refine ⟨inv.book, inv.registry.scanSymbols, fun o mem => ?_, ids.1, ids.2⟩
  refine inv.arriving o (split.mem_iff.mpr ?_)
  rcases List.mem_append.mp mem with mem | mem
  · exact List.mem_append_right _ (List.mem_append_left _ mem)
  · exact List.mem_append_left _ mem

omit [Zero P] [LE P] [DecidableLE P] in
/-- What a scan releases was waiting. -/
theorem mem_released_scanStep [Zero P] [LE P] [DecidableLE P]
    (registry : RegistryInvariant e.registry) {order : Symbol → IterationOrder Nat (Order P)}
    {now : Int} {s : Symbol} {result : ScanResult P} {o : Order P}
    (mem : o ∈ (MatchingEngine.scanStep order now s result e).1.released) :
    o ∈ result.released ∨ e.registry.Waits o := by
  have out : (MatchingEngine.scanStep order now s result e).1 = (OrderRegistry.scanSymbol (order s)
    now (e.lastPrice s) s (e.registry, result)).2 := rfl
  rw [out, scanSymbol_result] at mem
  rcases List.mem_append.mp mem with old | new
  · exact .inl old
  · exact .inr (registry.mem_walked.mp (List.mem_filter.mp new).1).1

/-- The scan of one symbol, as one action of a pass that has released some orders already. -/
theorem scanStep [LT P] {pending : List (Order P)} {result : ScanResult P}
    (inv : EngineInvariant e (result.released ++ pending))
    (order : Symbol → IterationOrder Nat (Order P)) (now : Int) (s : Symbol) :
    let out := MatchingEngine.scanStep order now s result e
    EngineInvariant out.2 (out.1.released ++ pending) ∧
      ∃ gone, (e.openOrders (result.released ++ pending)).Perm
        (gone ++ out.2.openOrders (out.1.released ++ pending)) := by
  intro out
  have split := (inv.registry.scanSymbols_exact (List.nodup_singleton s) fun _ _ =>
    List.mem_singleton : ScanExact e.registry (· = s) now e.lastPrice
      (OrderRegistry.scanSymbols order now e.lastPrice [s] (e.registry, {}))).split
  set scan := OrderRegistry.scanSymbols order now e.lastPrice [s] (e.registry, {})
  have registry : out.2.registry = scan.1 := scanSymbol_registry
  have released : out.1.released = result.released ++ scan.2.released := by
    have one : scan.2 = (OrderRegistry.scanSymbol (order s) now (e.lastPrice s) s
      (e.registry, {})).2 := rfl
    have all : out.1 = (OrderRegistry.scanSymbol (order s) now (e.lastPrice s) s
      (e.registry, result)).2 := rfl
    rw [one, all, scanSymbol_result, scanSymbol_result]
    rfl
  have moved : (e.openOrders (result.released ++ pending)).Perm
      (scan.2.expired ++ out.2.openOrders (out.1.released ++ pending)) := by
    have resting : out.2.allResting = e.allResting := rfl
    unfold openOrders waitingOrders
    rw [resting, registry, released]
    refine ((split.append_left e.allResting).append_left _).trans ?_
    classical
    refine List.perm_iff_count.mpr fun o => ?_
    simp only [List.count_append]
    omega
  have left := (moved.map Order.id).symm
  rw [List.map_append] at left
  have ids := inv.ids ((List.sublist_append_right _ _).subperm.trans left.subperm)
  refine ⟨⟨inv.book, registry ▸ inv.registry.scanSymbols, fun o mem => ?_, ids.1, ids.2⟩,
    scan.2.expired, moved⟩
  unfold waitingOrders at mem
  rw [registry, released] at mem
  refine inv.arriving o ?_
  have waited : o ∈ scan.1.allWaiting ++ (scan.2.released ++ scan.2.expired) →
      o ∈ e.waitingOrders := split.mem_iff.mpr
  simp only [List.mem_append] at mem waited ⊢
  rcases mem with ((old | new) | old) | old
  · exact .inl (.inl old)
  · exact .inr (waited (.inr (.inl new)))
  · exact .inl (.inr old)
  · exact .inr (waited (.inl old))

end

/-! #### Cancelling -/

section

variable [LT P] {e : MatchingEngine P} {pending : List (Order P)}

omit [LT P] in
/-- An order is found by its id among orders of distinct ids. -/
theorem filter_id_eq {os os' : List (Order P)} {r : Order P} (split : os.Perm (r :: os'))
    (distinct : (os.map Order.id).Nodup) : (os.filter fun o => o.id = r.id) = [r] := by
  have ids := (split.map Order.id).nodup_iff.mp distinct
  have others : (os'.filter fun o => o.id = r.id) = [] := by
    refine List.filter_eq_nil_iff.mpr fun o mem => ?_
    rw [decide_eq_true_eq]
    exact fun same => (List.nodup_cons.mp ids).1 (List.mem_map.mpr ⟨o, mem, same⟩)
  have found := split.filter fun o => decide (o.id = r.id)
  rw [List.filter_cons_of_pos (by simp), others] at found
  exact List.perm_singleton.mp found

/-- The orders in the books have distinct ids. -/
theorem nodup_allResting (inv : EngineInvariant e pending) : (e.allResting.map Order.id).Nodup := by
  have all := inv.once
  rw [openOrders, List.map_append] at all
  have placed := (List.nodup_append.mp all).2.1
  rw [List.map_append] at placed
  exact (List.nodup_append.mp placed).1

/-- The orders of one book have distinct ids. -/
theorem nodup_bookFor (inv : EngineInvariant e pending) (s : Symbol) :
    ((e.bookFor s).restingOrders.map Order.id).Nodup := by
  have resting := ((e.allResting_perm s).map Order.id).nodup_iff.mp inv.nodup_allResting
  rw [List.map_append] at resting
  exact (List.nodup_append.mp resting).1

/-- A cancellation by id leaves no order of that id in its book. -/
theorem id_ne_of_mem_cancel [DecidableLT P] [IsStrictOrder P (· < ·)]
    (inv : EngineInvariant e pending) {s : Symbol} {id : Nat} {r : Order P}
    (mem : r ∈ ((e.bookFor s).cancel id).2.restingOrders) : r.id ≠ id := by
  rcases OrderBook.cancel_cases (inv.book s).sorted id with ⟨absent, same⟩ |
    ⟨side, ls', removed, hit⟩
  · rw [same] at mem
    exact absent r mem
  · obtain ⟨o, rfl, -, split⟩ := removed.restingOrders
    have distinct := (split.map Order.id).nodup_iff.mp (inv.nodup_bookFor s)
    rw [hit] at mem
    intro eq
    exact (List.nodup_cons.mp distinct).1 (eq ▸ List.mem_map_of_mem mem)

theorem withBook {s : Symbol} {b : OrderBook P} {gone : List (Order P)}
    (inv : EngineInvariant e pending) (book : BookOf s b)
    (split : (e.bookFor s).restingOrders.Perm (gone ++ b.restingOrders)) :
    EngineInvariant (e.withBook s b) pending ∧
      (e.openOrders pending).Perm (gone ++ (e.withBook s b).openOrders pending) := by
  have moved : (e.openOrders pending).Perm (gone ++ (e.withBook s b).openOrders pending) := by
    have resting := (e.allResting_perm s).trans (split.append_right _)
    rw [List.append_assoc, ← allResting_withBook] at resting
    have placed := resting.append_right e.waitingOrders
    rw [List.append_assoc] at placed
    refine (placed.append_left pending).trans ?_
    rw [← List.append_assoc]
    refine (List.perm_append_comm.append_right _).trans ?_
    rw [List.append_assoc]
    exact List.Perm.refl _
  refine ⟨?_, moved⟩
  have left := (moved.map Order.id).symm
  rw [List.map_append] at left
  have ids := inv.ids ((List.sublist_append_right _ _).subperm.trans left.subperm)
  refine ⟨fun t => ?_, inv.registry, fun o mem => ?_, ids.1, ids.2⟩
  · by_cases here : t = s
    · subst here
      rw [bookFor_withBook]
      exact book
    · rw [bookFor_withBook_ne _ _ _ here]
      exact inv.book t
  · obtain ⟨pos, known⟩ := inv.arriving o mem
    exact ⟨pos, (AList.mem_insert _).mpr (.inr known)⟩

/-- **A cancellation in a book** takes away the order of that id, if it says so. -/
theorem cancelledIn {s : Symbol} (id : Nat) {f : OrderBook P → Bool × OrderBook P}
    (inv : EngineInvariant e pending) (one : CancelsOne id (e.bookFor s) (f (e.bookFor s))) :
    EngineInvariant (e.cancelledIn s f).2 pending ∧ (e.openOrders pending).Perm
      ((if (e.cancelledIn s f).1 then (e.restingOrders s).filter fun o => o.id = id else [])
        ++ (e.cancelledIn s f).2.openOrders pending) := by
  unfold MatchingEngine.cancelledIn restingOrders
  by_cases known : e.symbolExists s
  · rw [if_pos known, if_pos known]
    rcases one with none | ⟨t, ls', removed, found⟩
    · rw [none]
      exact inv.withBook (inv.book s) (List.Perm.refl _)
    · rw [found]
      obtain ⟨r, rfl, -, split⟩ := removed.restingOrders
      rw [if_pos rfl, filter_id_eq split (inv.nodup_bookFor s)]
      exact inv.withBook ((inv.book s).removed removed) split
  · rw [if_neg known]
    exact ⟨inv, List.Perm.refl _⟩

theorem cancelOrderAt [DecidableLT P] (inv : EngineInvariant e pending) (symbol : Symbol)
    (side : Side) (price : P) (id : Nat) :
    let out := e.cancelledIn symbol (OrderBook.cancelAtPrice · side price id)
    EngineInvariant out.2 pending ∧ (e.openOrders pending).Perm
      ((if out.1 then (e.restingOrders symbol).filter fun o => o.id = id else [])
        ++ out.2.openOrders pending) :=
  inv.cancelledIn id (cancelAtPrice_one _ side price id)

theorem cancelOrder [DecidableLT P] [IsStrictOrder P (· < ·)] (inv : EngineInvariant e pending)
    (symbol : Symbol) (id : Nat) :
    let out := e.cancelledIn symbol (OrderBook.cancel · id)
    EngineInvariant out.2 pending ∧ (e.openOrders pending).Perm
      ((if out.1 then (e.restingOrders symbol).filter fun o => o.id = id else [])
        ++ out.2.openOrders pending) :=
  inv.cancelledIn id (cancel_one (inv.book symbol) id)

/-- **A cancellation in the registry** takes away the order of that id, if it says so. -/
theorem cancelledWaiting (inv : EngineInvariant e pending) (id : Nat) :
    let e' := { e with registry := (e.registry.cancel id).2 }
    EngineInvariant e' pending ∧ (e.openOrders pending).Perm
      ((if (e.registry.cancel id).1 then e.waitingOrders.filter fun o => o.id = id else [])
        ++ e'.openOrders pending) := by
  intro e'
  by_cases found : ∃ o, e.registry.Waits o ∧ o.id = id
  · obtain ⟨o, waits, rfl⟩ := found
    have split := inv.registry.allWaiting_cancel waits
    have gone : (e.waitingOrders.filter fun r => r.id = o.id) = [o] :=
      filter_id_eq split inv.registry.nodup_allWaiting
    have placed := (split.append_left e.allResting).trans List.perm_middle
    have moved : (e.openOrders pending).Perm ([o] ++ e'.openOrders pending) :=
      (placed.append_left pending).trans List.perm_middle
    have confirmed : (e.registry.cancel o.id).1 = true := by
      rw [inv.registry.cancel_eq waits]
    rw [if_pos confirmed, gone]
    refine ⟨?_, moved⟩
    have left := (moved.map Order.id).symm
    rw [List.map_append] at left
    have ids := inv.ids ((List.sublist_append_right _ _).subperm.trans left.subperm)
    refine ⟨inv.book, inv.registry.cancel o.id, fun r mem => ?_, ids.1, ids.2⟩
    refine inv.arriving r ?_
    rcases List.mem_append.mp mem with mem | mem
    · exact List.mem_append_left _ mem
    · exact List.mem_append_right _ (split.mem_iff.mpr (List.mem_cons_of_mem _ mem))
  · rw [← inv.registry.mem_index, ← AList.lookup_eq_none] at found
    have same := cancel_of_absent found
    have nothing : e' = e := by
      rw [show e' = { e with registry := (e.registry.cancel id).2 } from rfl, same]
    rw [nothing, same]
    exact ⟨inv, List.Perm.refl _⟩

end

/-! ### Whole calls -/

section

variable [Zero P] [Add P] [Sub P] [Mul P] [IntCast P] [LT P] [DecidableLT P] [LE P] [DecidableLE P]
  [OfScientific P] {e : MatchingEngine P}

omit [LT P] [DecidableLT P] [Add P] [Sub P] in
theorem valid_of_admits {request : OrderRequest P} (admits : e.Admits request) :
    0 < request.quantity ∧ (request.kind ≠ .market → ¬request.price ≤ 0) ∧
      request.symbol ∈ e.books := by
  have valid := admits.1
  unfold invalidReason at valid
  by_cases quantity : request.quantity ≤ 0
  · rw [if_pos quantity] at valid
    cases valid
  · rw [if_neg quantity] at valid
    by_cases price : request.kind ≠ .market ∧ request.price ≤ 0
    · rw [if_pos price] at valid
      cases valid
    · rw [if_neg price] at valid
      by_cases known : e.symbolExists request.symbol
      · exact ⟨not_le.mp quantity, fun kind free => price ⟨kind, free⟩, of_decide_eq_true known⟩
      · rw [if_pos known] at valid
        cases valid

omit [Add P] [Sub P] [DecidableLT P] in
/-- An admitted order is on its way. -/
theorem admitted (inv : EngineInvariant e []) {request : OrderRequest P} (now : Int)
    (admits : e.Admits request) :
    EngineInvariant e.withId [buildOrder request e.nextOrderId now] :=
  inv.arrive rfl (valid_of_admits admits).1 (valid_of_admits admits).2.2

variable [IsStrictOrder P (· < ·)]

/-- **Every call keeps the invariant.** -/
theorem effect (inv : EngineInvariant e []) (call : EngineCall P) :
    EngineInvariant (call.effect e) [] := by
  cases call with
  | submitOrder now clock request =>
      rw [EngineCall.effect]
      rcases submitted_cases now clock request e with ⟨admits, -, eq⟩ | ⟨admits, -, eq⟩ | ⟨-, eq⟩
      · rw [eq]
        exact (inv.admitted now admits).matched clock
      · rw [eq]
        exact (inv.admitted now admits).enqueue
      · rw [eq]
        exact inv.skip
  | tryReleaseWaitingOrders order now clock fullScan =>
      exact matchedAll clock 0 _ (inv.scanned order now fullScan)
  | cancelOrderAt symbol side price orderId =>
      exact (inv.cancelOrderAt symbol side price orderId).1
  | cancelOrder symbol orderId => exact (inv.cancelOrder symbol orderId).1
  | cancelWaitingOrder orderId => exact (inv.cancelledWaiting orderId).1

theorem apply (inv : EngineInvariant e []) (call : EngineCall P) :
    EngineInvariant (e.apply call) [] :=
  (inv.effect call).of_core (core_apply e call)

/-- **Every run keeps the invariant.** -/
theorem run : ∀ (calls : List (EngineCall P)) {e : MatchingEngine P}, EngineInvariant e [] →
    EngineInvariant (e.run calls) []
  | [], _, inv => inv
  | call :: calls, _, inv => run calls (inv.apply call)

end

end EngineInvariant

end StockMarket
