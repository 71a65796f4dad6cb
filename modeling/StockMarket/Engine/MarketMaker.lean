import StockMarket.MarketMaker
import StockMarket.Engine.LastPrice
import StockMarket.Engine.Threads
import StockMarket.Lib.Rely

/-!
The quotes of a market maker.

`Remembers` says that every order of the bot's client rests in the book of the symbol that the
bot remembers, under the id that it remembers for the side, and that none waits. The bot's
actions keep it for what the bot has in its memory, or will have once it has looked at the
answer to its last call (`tracks_step`); the calls of the other clients keep it whatever the bot
remembers (`harmless_threadProgram`), since all they can do to the bot's orders is to trade or
to cancel them. So at every moment of every schedule at most one order of each side rests
(`atMostOneQuote`).
-/

namespace StockMarket

open Atomic MatchingEngine

variable {P : Type}

/-- The threads' invariant, and no order has the id `0`. -/
structure Running [LT P] (e : MatchingEngine P) (φs : List (Phase P)) : Prop where
  threads : ThreadsInvariant e φs
  given : 0 < e.nextOrderId

/-- What holds in every state that can be reached. -/
def Reached [LT P] (e : MatchingEngine P) : Prop :=
  ∃ φs, Running e φs

/-- The bot is that of the client, and it remembers all its open orders. -/
structure Remembers (client : ClientId) (bot : MarketMakerBot P) (e : MatchingEngine P) : Prop where
  own : bot.client = client
  rests : ∀ s, ∀ r ∈ (e.bookFor s).restingOrders, r.client = client →
    s = bot.lastQuoteSymbol ∧ r.id = bot.lastOrder r.side ∧ r.id ≠ 0
  waits : ∀ w, e.registry.Waits w → w.client ≠ client

namespace MarketMakerBot

@[simp] theorem lastOrder_setLastOrder (bot : MarketMakerBot P) (side : Side) (id : Nat) :
    (bot.setLastOrder side id).lastOrder side = id := by
  cases side <;> rfl

theorem lastOrder_setLastOrder_ne (bot : MarketMakerBot P) {side other : Side} (ne : other ≠ side)
    (id : Nat) : (bot.setLastOrder side id).lastOrder other = bot.lastOrder other := by
  cases side <;> cases other <;> first | rfl | exact absurd rfl ne

@[simp] theorem client_setLastOrder (bot : MarketMakerBot P) (side : Side) (id : Nat) :
    (bot.setLastOrder side id).client = bot.client := by
  cases side <;> rfl

@[simp] theorem lastQuoteSymbol_setLastOrder (bot : MarketMakerBot P) (side : Side) (id : Nat) :
    (bot.setLastOrder side id).lastQuoteSymbol = bot.lastQuoteSymbol := by
  cases side <;> rfl

theorem setLastOrder_self (bot : MarketMakerBot P) {side : Side} {id : Nat}
    (same : bot.lastOrder side = id) : bot.setLastOrder side id = bot := by
  subst same
  cases side <;> rfl

theorem lastQuoteSymbol_remember (bot : MarketMakerBot P) (side : Side) (quantity : Int)
    (result : SubmitResult P) :
    (bot.remember side quantity result).lastQuoteSymbol = bot.lastQuoteSymbol := by
  unfold remember
  split
  · exact bot.lastQuoteSymbol_setLastOrder side result.orderId
  · rfl

theorem lastOrder_remember_ne (bot : MarketMakerBot P) {side other : Side} (ne : other ≠ side)
    (quantity : Int) (result : SubmitResult P) :
    (bot.remember side quantity result).lastOrder other = bot.lastOrder other := by
  unfold remember
  split
  · exact bot.lastOrder_setLastOrder_ne ne result.orderId
  · rfl

end MarketMakerBot

/-! ### What is remembered -/

namespace Remembers

variable {client : ClientId} {bot : MarketMakerBot P} {e e' : MatchingEngine P}

/-- The bot's open orders were open before. -/
theorem of_open (remembers : Remembers client bot e)
    (rests : ∀ s, ∀ r ∈ (e'.bookFor s).restingOrders, r.client = client →
      ∃ r' ∈ (e.bookFor s).restingOrders, ∃ q, r = r'.withQuantity q)
    (waits : ∀ w, e'.registry.Waits w → w.client = client → e.registry.Waits w) :
    Remembers client bot e' where
  own := remembers.own
  rests := by
    intro s r mem owner
    obtain ⟨r', mem', q, rfl⟩ := rests s r mem owner
    exact remembers.rests s r' mem' owner
  waits := fun w waiting owner => remembers.waits w (waits w waiting owner) owner

/-- Only books and registry matter. -/
theorem congr (remembers : Remembers client bot e) (books : e'.books = e.books)
    (registry : e'.registry = e.registry) : Remembers client bot e' := by
  refine remembers.of_open (fun s r mem _ => ⟨r, ?_, r.quantity, rfl⟩) fun w waiting _ => ?_
  · unfold bookFor at mem
    rwa [books] at mem
  · rwa [registry] at waiting

/-- Where no book is, the bot has no quote. -/
theorem unknown (remembers : Remembers client bot e) (none : bot.lastQuoteSymbol ∉ e.books)
    (side : Side) : Remembers client (bot.setLastOrder side 0) e := by
  refine ⟨(bot.client_setLastOrder side 0).trans remembers.own, fun s r mem owner => ?_,
    remembers.waits⟩
  obtain ⟨rfl, -⟩ := remembers.rests s r mem owner
  rw [bookFor, AList.lookup_eq_none.mpr none] at mem
  cases mem

/-- A bot that remembers no quote has none, and may go to another symbol. -/
theorem moved (remembers : Remembers client bot e) (none : ∀ side, bot.lastOrder side = 0)
    (symbol : Symbol) : Remembers client { bot with lastQuoteSymbol := symbol } e := by
  refine ⟨remembers.own, fun s r mem owner => ?_, remembers.waits⟩
  obtain ⟨-, remembered, nonzero⟩ := remembers.rests s r mem owner
  exact absurd (remembered.trans (none r.side)) nonzero

variable [LT P] [DecidableLT P]

/-- A match of some other client's order. -/
theorem matchedOther (remembers : Remembers client bot e) (clock : Nat → Int) {o : Order P}
    (other : o.client ≠ client) : Remembers client bot (matchBook clock o e).2 := by
  refine remembers.of_open (fun s r mem owner => ?_) fun _ waiting _ => waiting
  rcases mem_bookFor_matchBook mem with ⟨-, -, q, rfl⟩ | old
  · exact absurd owner other
  · exact old

/-- A match of the bot's own quote, on a side on which it remembers none. -/
theorem matchedOwn (remembers : Remembers client bot e) (clock : Nat → Int) {o : Order P}
    (symbol : o.symbol = bot.lastQuoteSymbol) (free : bot.lastOrder o.side = 0)
    (given : o.id ≠ 0) {result : SubmitResult P} (accepted : result.accepted = true)
    (filled : result.filledQuantity = tradedQuantity (matchBook clock o e).1)
    (id : result.orderId = o.id) :
    Remembers client (bot.remember o.side o.quantity result) (matchBook clock o e).2 := by
  have elsewhere : ∀ s, ∀ r ∈ (e.bookFor s).restingOrders, r.client = client → r.side ≠ o.side := by
    intro s r mem owner same
    obtain ⟨-, remembered, nonzero⟩ := remembers.rests s r mem owner
    rw [same, free] at remembered
    exact nonzero remembered
  unfold MarketMakerBot.remember
  by_cases left : result.filledQuantity < o.quantity
  · rw [if_pos ⟨accepted, left⟩, id]
    refine ⟨(bot.client_setLastOrder o.side o.id).trans remembers.own, fun s r mem owner => ?_,
      remembers.waits⟩
    rw [bot.lastQuoteSymbol_setLastOrder]
    rcases mem_bookFor_matchBook mem with ⟨rfl, -, q, rfl⟩ | ⟨r', mem', q, rfl⟩
    · exact ⟨symbol, (bot.lastOrder_setLastOrder o.side o.id).symm, given⟩
    · have apart := elsewhere s r' mem' owner
      have same : (bot.setLastOrder o.side o.id).lastOrder r'.side = bot.lastOrder r'.side :=
        bot.lastOrder_setLastOrder_ne apart o.id
      obtain ⟨place, remembered, nonzero⟩ := remembers.rests s r' mem' owner
      exact ⟨place, remembered.trans same.symm, nonzero⟩
  · rw [if_neg fun h => left h.2]
    refine remembers.of_open (fun s r mem _ => ?_) fun _ waiting _ => waiting
    rcases mem_bookFor_matchBook mem with ⟨-, traded, -⟩ | old
    · exact absurd (filled ▸ traded) left
    · exact old

/-- A cancellation in some book. -/
theorem cancelledBook [IsStrictOrder P (· < ·)] (remembers : Remembers client bot e)
    (sound : Reached e) (c : BookCancel P) (s : Symbol) :
    Remembers client bot (e.withBook s (c.apply (e.bookFor s)).2) := by
  obtain ⟨φs, inv, -⟩ := sound
  refine remembers.of_open (fun t r mem _ => ⟨r, ?_, r.quantity, rfl⟩) fun _ waiting _ => waiting
  exact (c.one (inv.engine.book s)).subset mem

/-- The cancellation of the quote that the bot remembers on a side. -/
theorem cancelledOwn [IsStrictOrder P (· < ·)] (remembers : Remembers client bot e)
    (sound : Reached e) (side : Side) :
    Remembers client (bot.setLastOrder side 0) (e.withBook bot.lastQuoteSymbol
      ((e.bookFor bot.lastQuoteSymbol).cancel (bot.lastOrder side)).2) := by
  have kept := remembers.cancelledBook sound (.byId (bot.lastOrder side)) bot.lastQuoteSymbol
  obtain ⟨φs, inv, -⟩ := sound
  refine ⟨(bot.client_setLastOrder side 0).trans remembers.own, fun s r mem owner => ?_,
    remembers.waits⟩
  obtain ⟨place, remembered, nonzero⟩ := kept.rests s r mem owner
  have other : r.side ≠ side := by
    rintro rfl
    subst place
    rw [bookFor_withBook] at mem
    exact inv.engine.id_ne_of_mem_cancel mem remembered
  rw [bot.lastQuoteSymbol_setLastOrder, bot.lastOrder_setLastOrder_ne other]
  exact ⟨place, remembered, nonzero⟩

end Remembers

/-- Orders with one id at most, among orders of distinct ids. -/
theorem length_filter_le_one {os : List (Order P)} (distinct : (os.map Order.id).Nodup)
    (p : Order P → Prop) [DecidablePred p] {id : Nat} (one : ∀ o ∈ os, p o → o.id = id) :
    (os.filter fun o => p o).length ≤ 1 := by
  have sub := ((List.filter_sublist (p := fun o => decide (p o)) (l := os)).map Order.id)
  have all : (os.filter fun o => p o).map Order.id
      = List.replicate (os.filter fun o => p o).length id := by
    refine List.eq_replicate_iff.mpr ⟨List.length_map _, fun i mem => ?_⟩
    obtain ⟨o, known, rfl⟩ := List.mem_map.mp mem
    obtain ⟨listed, holds⟩ := List.mem_filter.mp known
    exact one o listed (of_decide_eq_true holds)
  have nodup := distinct.sublist sub
  rw [all] at nodup
  exact List.nodup_replicate.mp nodup

/-! ### The calls of the others -/

section

variable [LT P] {client : ClientId} {α : Type}

/-- No action of the program makes anything wrong that the bot remembers. -/
abbrev Harmless (client : ClientId) (p : Prog (MatchingEngine P) α) : Prop :=
  Respects Reached (Remembers client) (fun _ => True) p

/-- An action that keeps books and registry. -/
theorem harmless_step {action : MatchingEngine P → α × MatchingEngine P}
    (same : ∀ e, (action e).2.books = e.books ∧ (action e).2.registry = e.registry) :
    Harmless client (Prog.step action) :=
  Respects.step fun e _ _ remembers => ⟨remembers.congr (same e).1 (same e).2, trivial⟩

theorem harmless_read (f : MatchingEngine P → α) : Harmless client (Prog.read f) :=
  harmless_step fun _ => ⟨rfl, rfl⟩

theorem harmless_count (f : Metrics → Metrics) :
    Harmless client (Prog.modify (count f) : Prog (MatchingEngine P) Unit) :=
  harmless_step fun _ => ⟨rfl, rfl⟩

theorem harmless_publish (event : Event P) : Harmless client (Prog.modify (publish event)) :=
  harmless_step fun _ => ⟨rfl, rfl⟩

theorem harmless_reject (id : Nat) (owner : ClientId) (reason : String) :
    Harmless client (reject id owner reason : Prog (MatchingEngine P) _) :=
  (harmless_count _).bind fun _ _ => (harmless_publish _).bind fun _ _ => trivial

theorem harmless_reportExpired : ∀ orders : List (Order P),
    Harmless client (reportExpired orders)
  | [] => trivial
  | _ :: orders =>
      (harmless_count _).bind fun _ _ => (harmless_publish _).bind fun _ _ =>
        harmless_reportExpired orders

theorem harmless_cancelWaitingOrder [IsStrictOrder P (· < ·)] (orderId : Nat) :
    Harmless client (cancelWaitingOrder orderId : Prog (MatchingEngine P) Bool) := by
  refine Respects.step fun e bot sound remembers => ⟨?_, trivial⟩
  obtain ⟨φs, inv, -⟩ := sound
  have registry := inv.engine.registry
  refine remembers.of_open (fun s r mem _ => ⟨r, mem, r.quantity, rfl⟩) fun w waiting _ => ?_
  have left := (registry.cancel orderId).mem_allWaiting.mpr waiting
  exact registry.mem_allWaiting.mp (registry.cancel_subset orderId left)

variable [Zero P] [Add P] [Sub P] [Mul P] [IntCast P]

theorem harmless_settleTrades : ∀ trades : List (Trade P),
    Harmless client (settleTrades trades)
  | [] => trivial
  | t :: ts => by
      have settled : Harmless client (Prog.modify (settle t)) :=
        harmless_step fun _ => ⟨rfl, rfl⟩
      have priced : Harmless client (Prog.modify (setLastPrice t.symbol t.price)) :=
        harmless_step fun _ => ⟨rfl, rfl⟩
      have marked : Harmless client
          (Prog.modify (markDirty t.symbol) : Prog (MatchingEngine P) Unit) :=
        harmless_step fun _ => ⟨rfl, rfl⟩
      refine settled.bind fun _ _ => priced.bind fun _ _ => marked.bind fun _ _ => ?_
      exact (harmless_publish _).bind fun _ _ => harmless_settleTrades ts

variable [DecidableLT P]

omit [Zero P] [Add P] [Sub P] [Mul P] [IntCast P] in
/-- A cancellation, of whatever order. -/
theorem harmless_cancelBook [IsStrictOrder P (· < ·)] (c : BookCancel P) (symbol : Symbol) :
    Harmless client (do
      if ← .read (symbolExists · symbol) then
        .step fun e => ((c.apply (e.bookFor symbol)).1,
          e.withBook symbol (c.apply (e.bookFor symbol)).2)
      else return false : Prog (MatchingEngine P) Bool) := by
  refine (harmless_read _).bind fun known _ => ?_
  split
  · exact Respects.step fun e _ sound remembers =>
      ⟨remembers.cancelledBook sound c symbol, trivial⟩
  · trivial

theorem harmless_matchAndSettle (clock : Nat → Int) {o : Order P} (other : o.client ≠ client) :
    Harmless client (matchAndSettle clock o) := by
  have matched : Harmless client (Prog.step (matchBook clock o)) :=
    Respects.step fun e _ _ remembers => ⟨remembers.matchedOther clock other, trivial⟩
  refine matched.bind fun trades _ => ?_
  refine (harmless_count _).bind fun _ _ => ?_
  refine (harmless_publish _).bind fun _ _ => ?_
  refine (harmless_settleTrades trades).bind fun _ _ => ?_
  refine (harmless_count _).bind fun _ _ => ?_
  exact (harmless_count _).bind fun _ _ => trivial

theorem harmless_releaseAll (clock : Nat → Nat → Int) : ∀ (n : Nat) (orders : List (Order P)),
    (∀ o ∈ orders, o.client ≠ client) → Harmless client (releaseAll clock n orders)
  | _, [], _ => trivial
  | n, o :: orders, others => by
      have rest := harmless_releaseAll clock (n + 1) orders fun o mem =>
        others o (List.mem_cons_of_mem _ mem)
      refine (harmless_matchAndSettle (clock n) (others o List.mem_cons_self)).bind fun _ _ => ?_
      exact rest.bind fun _ _ => trivial

variable [LE P] [DecidableLE P]

omit [Add P] [Sub P] [Mul P] [IntCast P] [DecidableLT P] in
/-- What a scan releases is not the bot's. -/
theorem harmless_scanSymbolsStep (order : Symbol → IterationOrder Nat (Order P)) (now : Int) :
    ∀ (symbols : List Symbol) (result : ScanResult P),
      (∀ o ∈ result.released, o.client ≠ client) →
        Respects Reached (Remembers client) (fun scan => ∀ o ∈ scan.released, o.client ≠ client)
          (scanSymbolsStep order now symbols result)
  | [], _, others => others
  | s :: symbols, result, others => by
      have one : Respects Reached (Remembers client)
          (fun scan => ∀ o ∈ scan.released, o.client ≠ client)
          (.step (scanStep order now s result)) := by
        refine Respects.step fun e bot sound remembers => ?_
        obtain ⟨φs, inv, -⟩ := sound
        have registry := inv.engine.registry
        constructor
        · refine remembers.of_open (fun s r mem _ => ⟨r, mem, r.quantity, rfl⟩)
            fun w waiting _ => ?_
          have after : (scanStep order now s result e).2.registry = (OrderRegistry.scanSymbols order
            now e.lastPrice [s] (e.registry, {})).1 := scanSymbol_registry
          rw [after] at waiting
          exact ((RegistryInvariant.waits_scanSymbols (List.nodup_singleton s)).mp waiting).1
        · intro o released
          rcases EngineInvariant.mem_released_scanStep registry released with old | waited
          · exact others o old
          · exact remembers.waits o waited
      exact one.bind fun scan rest => harmless_scanSymbolsStep order now symbols scan rest

theorem harmless_tryReleaseWaitingOrders (order : ReleaseOrder P) (now : Int)
    (clock : Nat → Nat → Int) (fullScan : Bool) :
    Harmless client (tryReleaseWaitingOrders order now clock fullScan) := by
  have symbols : Harmless client (symbolsToScan order fullScan) := by
    unfold symbolsToScan
    split
    · exact harmless_read _
    · exact harmless_step fun _ => ⟨rfl, rfl⟩
  have scanned (symbols : List Symbol) : Respects Reached (Remembers client)
      (fun scan => ∀ o ∈ scan.released, o.client ≠ client)
      (scanSymbolsStep order.bucket now symbols {}) :=
    harmless_scanSymbolsStep order.bucket now symbols {} fun _ mem => nomatch mem
  refine symbols.bind fun symbols _ => (scanned symbols).bind fun scan others => ?_
  refine (harmless_releaseAll clock 0 scan.released others).bind fun _ _ => ?_
  exact (harmless_reportExpired _).bind fun _ _ => trivial

variable [OfScientific P]

theorem harmless_submitOrder (now : Int) (clock : Nat → Int) {request : OrderRequest P}
    (other : request.client ≠ client) : Harmless client (submitOrder now clock request) := by
  refine (harmless_count _).bind fun _ _ => ?_
  have drafted : Harmless client (.step fetchOrderId : Prog (MatchingEngine P) Nat) :=
    harmless_step fun _ => ⟨rfl, rfl⟩
  refine drafted.bind fun id _ => ?_
  refine (harmless_read _).bind fun reason _ => ?_
  cases reason with
  | some reason => exact harmless_reject _ _ _
  | none =>
      refine (harmless_read _).bind fun passes _ => ?_
      split
      · exact harmless_reject _ _ _
      · refine (harmless_read _).bind fun referencePrice _ => ?_
        split
        · exact harmless_matchAndSettle clock other
        · refine (harmless_count _).bind fun _ _ => ?_
          have queued : Harmless client (Prog.modify (enqueue (buildOrder request id now))) := by
            refine Respects.step fun e bot _ remembers => ⟨?_, trivial⟩
            refine remembers.of_open (fun s r mem _ => ⟨r, mem, r.quantity, rfl⟩)
              fun w waiting owner => ?_
            rcases waits_of_add waiting with rfl | old
            · exact absurd owner other
            · exact old
          exact queued.bind fun _ _ => (harmless_publish _).bind fun _ _ => trivial

/-- A call that the client does not make: it submits nothing in the client's name. -/
def EngineCall.NotBy (client : ClientId) : EngineCall P → Prop
  | .submitOrder _ _ request => request.client ≠ client
  | _ => True

/-- **No call of another client makes the bot's memory wrong.** -/
theorem harmless_program [IsStrictOrder P (· < ·)] {call : EngineCall P}
    (other : call.NotBy client) : Harmless client call.program := by
  cases call with
  | submitOrder now clock request =>
      exact (harmless_submitOrder now clock other).bind fun _ _ => trivial
  | tryReleaseWaitingOrders order now clock fullScan =>
      exact (harmless_tryReleaseWaitingOrders order now clock fullScan).bind fun _ _ => trivial
  | cancelOrderAt symbol side price orderId =>
      exact Respects.bind (harmless_cancelBook (.atPrice side price orderId) symbol)
        fun _ _ => trivial
  | cancelOrder symbol orderId =>
      exact Respects.bind (harmless_cancelBook (.byId orderId) symbol) fun _ _ => trivial
  | cancelWaitingOrder orderId =>
      exact (harmless_cancelWaitingOrder orderId).bind fun _ _ => trivial

theorem harmless_threadProgram [IsStrictOrder P (· < ·)] : ∀ calls : List (EngineCall P),
    (∀ call ∈ calls, call.NotBy client) → Harmless client (threadProgram calls)
  | [], _ => trivial
  | call :: calls, others => (harmless_program (others call List.mem_cons_self)).bind fun _ _ =>
      harmless_threadProgram calls fun c mem => others c (List.mem_cons_of_mem _ mem)

end

/-! ### The bot's own steps -/

section

variable [LT P] {client : ClientId} {bot : MarketMakerBot P} {α β : Type}

/-- What the program returns tells what the bot remembers rightly after it. -/
abbrev Tracks (client : ClientId) (p : Prog (MatchingEngine P) α) (bot : MarketMakerBot P)
    (next : α → MarketMakerBot P) : Prop :=
  Knows Reached (Remembers client) (fun a k => k = next a) p bot

theorem Tracks.bind {p : Prog (MatchingEngine P) α} {f : α → Prog (MatchingEngine P) β}
    {next : α → MarketMakerBot P} {next' : β → MarketMakerBot P} (first : Tracks client p bot next)
    (rest : ∀ a, Tracks client (f a) (next a) next') : Tracks client (p >>= f) bot next' :=
  Knows.bind first fun a _ same => same ▸ rest a

theorem tracks_pure {next : α → MarketMakerBot P} {a : α} (same : bot = next a) :
    Tracks client (pure a : Prog (MatchingEngine P) α) bot next := same

/-- An action that keeps books and registry. -/
theorem tracks_same {action : MatchingEngine P → α × MatchingEngine P}
    (same : ∀ e, (action e).2.books = e.books ∧ (action e).2.registry = e.registry) :
    Tracks client (Prog.step action) bot fun _ => bot :=
  Knows.act fun e _ remembers => remembers.congr (same e).1 (same e).2

theorem tracks_read (f : MatchingEngine P → α) : Tracks client (Prog.read f) bot fun _ => bot :=
  tracks_same fun _ => ⟨rfl, rfl⟩

theorem tracks_count (f : Metrics → Metrics) :
    Tracks client (Prog.modify (count f) : Prog (MatchingEngine P) Unit) bot fun _ => bot :=
  tracks_same fun _ => ⟨rfl, rfl⟩

theorem tracks_publish (event : Event P) :
    Tracks client (Prog.modify (publish event)) bot fun _ => bot :=
  tracks_same fun _ => ⟨rfl, rfl⟩

/-- A rejected quote is not remembered. -/
theorem tracks_reject (id : Nat) (owner : ClientId) (reason : String) (side : Side)
    (quantity : Int) : Tracks client (reject id owner reason : Prog (MatchingEngine P) _) bot
      (bot.remember side quantity) := by
  refine (tracks_count _).bind fun _ => (tracks_publish _).bind fun _ => ?_
  exact tracks_pure (if_neg fun h => Bool.false_ne_true h.1).symm

variable [Zero P] [Add P] [Sub P] [Mul P] [IntCast P]

theorem tracks_settleTrades : ∀ trades : List (Trade P),
    Tracks client (settleTrades trades) bot fun _ => bot
  | [] => rfl
  | t :: ts => by
      have settled : Tracks client (Prog.modify (settle t)) bot fun _ => bot :=
        tracks_same fun _ => ⟨rfl, rfl⟩
      have priced : Tracks client (Prog.modify (setLastPrice t.symbol t.price)) bot fun _ => bot :=
        tracks_same fun _ => ⟨rfl, rfl⟩
      have marked : Tracks client
          (Prog.modify (markDirty t.symbol) : Prog (MatchingEngine P) Unit) bot fun _ => bot :=
        tracks_same fun _ => ⟨rfl, rfl⟩
      refine settled.bind fun _ => priced.bind fun _ => marked.bind fun _ => ?_
      exact (tracks_publish _).bind fun _ => tracks_settleTrades ts

variable [DecidableLT P]

/-- The match of a quote, on a side on which the bot remembers none. -/
theorem tracks_matchAndSettle (clock : Nat → Int) {o : Order P}
    (symbol : o.symbol = bot.lastQuoteSymbol) (free : bot.lastOrder o.side = 0) (given : o.id ≠ 0) :
    Tracks client (matchAndSettle clock o) bot (bot.remember o.side o.quantity) := by
  have matched : Tracks client (.step (matchBook clock o)) bot fun trades =>
      bot.remember o.side o.quantity {
        accepted := true
        orderId := o.id
        filledQuantity := tradedQuantity trades
        trades := trades } :=
    Knows.step fun e _ remembers =>
      ⟨_, remembers.matchedOwn clock symbol free given rfl rfl rfl, rfl⟩
  refine matched.bind fun trades => ?_
  refine (tracks_count _).bind fun _ => ?_
  refine (tracks_publish _).bind fun _ => ?_
  refine (tracks_settleTrades trades).bind fun _ => ?_
  refine (tracks_count _).bind fun _ => ?_
  exact (tracks_count _).bind fun _ => tracks_pure rfl

end

section

variable [LinearOrder P] [Zero P] [Add P] [Sub P] [Mul P] [IntCast P] [OfScientific P]
  {client : ClientId} {bot : MarketMakerBot P}

/-- A quote is matched at once, since nothing can make it wait. -/
theorem tracks_submitOrder (now : Int) (clock : Nat → Int) {side : Side} {symbol : Symbol}
    {quantity : Int} {price : P} (here : symbol = bot.lastQuoteSymbol)
    (free : bot.lastOrder side = 0) : Tracks client
      (submitOrder now clock (bot.quoteRequest side symbol quantity price)) bot
      (bot.remember side quantity) := by
  set request := bot.quoteRequest side symbol quantity price
  refine (tracks_count _).bind fun _ => ?_
  have drafted : Knows Reached (Remembers client) (fun id k => k = bot ∧ id ≠ 0)
      (.step fetchOrderId : Prog (MatchingEngine P) Nat) bot :=
    Knows.step fun e ⟨_, running⟩ remembers =>
      ⟨bot, remembers.congr rfl rfl, rfl, Nat.pos_iff_ne_zero.mp running.given⟩
  refine drafted.bind ?_
  rintro id _ ⟨rfl, given⟩
  refine (tracks_read _).bind fun reason => ?_
  cases reason with
  | some reason => exact tracks_reject _ _ _ side quantity
  | none =>
      refine (tracks_read _).bind fun passes => ?_
      split
      · exact tracks_reject _ _ _ side quantity
      · refine (tracks_read _).bind fun referencePrice => ?_
        have ready : (buildOrder request id now).isStarted now ∧
            (buildOrder request id now).releaseBandContains referencePrice :=
          ⟨trivial, le_refl referencePrice, le_refl referencePrice⟩
        rw [if_pos ready]
        exact tracks_matchAndSettle clock here free given

omit [Zero P] [Add P] [Sub P] [Mul P] [IntCast P] [OfScientific P] in
/-- The remembered quote of a side is cancelled. -/
theorem tracks_cancelOrder (side : Side) : Tracks client
    (cancelOrder bot.lastQuoteSymbol (bot.lastOrder side) : Prog (MatchingEngine P) Bool) bot
    fun _ => bot.setLastOrder side 0 := by
  have asked : Tracks client (Prog.read fun e : MatchingEngine P =>
      e.symbolExists bot.lastQuoteSymbol) bot
      fun known => if known then bot else bot.setLastOrder side 0 := by
    refine Knows.step fun e sound remembers => ⟨_, ?_, rfl⟩
    change Remembers client (if e.symbolExists bot.lastQuoteSymbol then bot
      else bot.setLastOrder side 0) e
    split
    · exact remembers
    · rename_i none
      exact remembers.unknown (fun known => none (decide_eq_true known)) side
  refine asked.bind fun known => ?_
  cases known with
  | false => exact tracks_pure rfl
  | true => exact Knows.step fun e sound remembers => ⟨_, remembers.cancelledOwn sound side, rfl⟩

omit [Zero P] [Add P] [Sub P] [Mul P] [IntCast P] [OfScientific P] in
/-- The quote of a side is cancelled and forgotten. -/
theorem knows_cancelQuote (side : Side) : Knows Reached (Remembers client)
    (fun bot' k => k = bot' ∧ bot' = bot.setLastOrder side 0) (bot.cancelQuote side) bot := by
  unfold MarketMakerBot.cancelQuote
  split
  · exact Knows.bind (tracks_cancelOrder side) fun _ k same => ⟨same, rfl⟩
  · rename_i none
    exact ⟨rfl, (bot.setLastOrder_self (not_not.mp none)).symm⟩

/-- A new quote changes what is remembered of its side only. -/
theorem knows_quote (tick : QuoteTick P) (side : Side) (price : P)
    (here : tick.symbol = bot.lastQuoteSymbol) (free : bot.lastOrder side = 0) :
    Knows Reached (Remembers client) (fun bot' k => k = bot' ∧
        bot'.lastQuoteSymbol = bot.lastQuoteSymbol ∧
        ∀ other, other ≠ side → bot'.lastOrder other = bot.lastOrder other)
      (bot.quote tick side price) bot := by
  refine Knows.bind (tracks_submitOrder (tick.now side) (tick.clock side) here free) ?_
  rintro result _ rfl
  refine ⟨rfl, ?_, fun other ne => ?_⟩
  · exact bot.lastQuoteSymbol_remember side (tick.quantity side) result
  · exact bot.lastOrder_remember_ne ne (tick.quantity side) result

variable [Div P]

/-- **After a step the bot remembers all its open orders.** -/
theorem tracks_step (tick : QuoteTick P) : Tracks client (bot.step tick) bot id := by
  refine Knows.bind (knows_cancelQuote .buy) ?_
  rintro _ _ ⟨rfl, rfl⟩
  refine Knows.bind (knows_cancelQuote .sell) ?_
  rintro _ _ ⟨rfl, rfl⟩
  set cleared := (bot.setLastOrder .buy 0).setLastOrder .sell 0
  have none : ∀ side, cleared.lastOrder side = 0 := by
    intro side
    cases side <;> rfl
  set placed : MarketMakerBot P := { cleared with lastQuoteSymbol := tick.symbol }
  have moved : Tracks client (Prog.read fun e : MatchingEngine P => e.lastPrice tick.symbol) cleared
      fun _ => placed :=
    Knows.step fun e _ remembers => ⟨placed, remembers.moved none tick.symbol, rfl⟩
  refine moved.bind fun price => ?_
  by_cases unknown : (if price ≤ 0 then tick.marketPrice else price) ≤ 0
  · rw [if_pos unknown]
    exact tracks_pure rfl
  · rw [if_neg unknown]
    have here : tick.symbol = placed.lastQuoteSymbol := rfl
    refine Knows.bind (knows_quote tick .buy _ here (none .buy)) ?_
    rintro _ bid ⟨rfl, same, others⟩
    have free : bid.lastOrder .sell = 0 := (others .sell (by decide)).trans (none .sell)
    exact Knows.mono (fun _ _ ends => ends.1) (knows_quote tick .sell _ same.symm free)

theorem tracks_run : ∀ (ticks : List (QuoteTick P)) (bot : MarketMakerBot P),
    Knows Reached (Remembers client) (fun _ _ => True) (bot.run ticks) bot
  | [], _ => trivial
  | tick :: ticks, _ =>
      Knows.bind (tracks_step tick) fun bot' _ same => same ▸ tracks_run ticks bot'

/-! ### Runs -/

omit [Add P] [Sub P] [Mul P] [IntCast P] [OfScientific P] [Div P] in
theorem performs_cancelQuote (side : Side) :
    Performs (bot.cancelQuote side : Prog (MatchingEngine P) _) .idle .idle := by
  unfold MarketMakerBot.cancelQuote
  split
  · exact (performs_cancelOrder _ _).bind fun _ => performs_pure _ _
  · exact performs_pure _ _

/-- The bot is a thread like any other. -/
theorem performs_step (tick : QuoteTick P) : Performs (bot.step tick) .idle .idle := by
  have quoted (bot : MarketMakerBot P) (side : Side) (price : P) :
      Performs (bot.quote tick side price) .idle .idle :=
    (performs_submitOrder _ _ _).bind fun _ => performs_pure _ _
  refine (performs_cancelQuote .buy).bind fun _ => ?_
  refine (performs_cancelQuote .sell).bind fun cleared => ?_
  refine (performs_read (fun e : MatchingEngine P => e.lastPrice tick.symbol) _).bind
    fun price => ?_
  by_cases unknown : (if price ≤ 0 then tick.marketPrice else price) ≤ 0
  · rw [if_pos unknown]
    exact performs_pure _ _
  · rw [if_neg unknown]
    refine (quoted _ .buy _).bind fun _ => ?_
    exact quoted _ .sell _

theorem performs_run : ∀ (ticks : List (QuoteTick P)) (bot : MarketMakerBot P),
    Performs (bot.run ticks) .idle .idle
  | [], _ => rfl
  | tick :: ticks, _ => (performs_step tick).bind fun bot' => performs_run ticks bot'

omit [Div P] [OfScientific P] in
/-- The invariants hold in every state that threads get to which start and end idle. -/
theorem sound_of_run {setup : List (SetupCall P)}
    {threads : List (Prog (MatchingEngine P) Unit × Phase P)}
    {ps : List (Prog (MatchingEngine P) Unit)} (programs : threads.map Prod.fst = ps)
    (following : Following Move (fun _ φ => φ = .idle) threads)
    (idle : ∀ φ ∈ phases threads, φ = .idle)
    {c : MatchingEngine P × List (Prog (MatchingEngine P) Unit)}
    (run : Interleaves (setUp setup, ps) c) : Reached c.1 := by
  obtain ⟨threads', -, -, phased⟩ := run.phased programs following
  have start : Running (setUp setup) (phases threads) :=
    ⟨.of_idle (idle_setUp setup).invariant idle, by rw [nextOrderId_setUp]; exact Nat.one_pos⟩
  exact ⟨_, phased.keep (fun _ _ _ same running => ⟨running.threads.perm same, running.given⟩)
    (fun _ _ _ _ _ moves _ running => ⟨running.threads.move moves,
      running.given.trans_le (running.threads.passage moves).next⟩) start⟩

/-- **The market maker never piles up quotes.** Its thread runs among threads that submit nothing
in its client's name. At every moment of every schedule at most one order of each side rests for
that client, over all books together, and none waits. -/
theorem atMostOneQuote (setup : List (SetupCall P)) (bot : MarketMakerBot P)
    (ticks : List (QuoteTick P)) (others : List (List (EngineCall P)))
    (alone : ∀ calls ∈ others, ∀ call ∈ calls, call.NotBy bot.client) {e : MatchingEngine P}
    {ps : List (Prog (MatchingEngine P) Unit)}
    (run : Interleaves (setUp setup, bot.run ticks :: others.map threadProgram) (e, ps)) :
    (∀ side, (e.allResting.filter fun o => o.client = bot.client ∧ o.side = side).length ≤ 1) ∧
      ∀ o ∈ e.waitingOrders, o.client ≠ bot.client := by
  set started : List (Prog (MatchingEngine P) Unit × Phase P) :=
    (bot.run ticks, .idle) :: startThreads others
  have programs : started.map Prod.fst = bot.run ticks :: others.map threadProgram := by
    simp [started, startThreads]
  have following : Following Move (fun _ φ => φ = .idle) started := by
    intro t mem
    rcases List.mem_cons.mp mem with rfl | mem
    · exact performs_run ticks bot
    · exact following_startThreads others t mem
  have idle : ∀ φ ∈ phases started, φ = .idle := by
    intro φ mem
    rcases List.mem_cons.mp mem with rfl | mem
    · rfl
    · exact phases_startThreads φ mem
  have always : ∀ c, Interleaves (setUp setup, bot.run ticks :: others.map threadProgram) c →
      Reached c.1 := fun c run => sound_of_run programs following idle run
  have none : Remembers bot.client bot (setUp setup) := by
    refine ⟨rfl, fun s r mem _ => ?_, fun w waiting _ => ?_⟩
    · rw [(idle_setUp setup).book s] at mem
      cases mem
    · rw [(idle_setUp setup).registry] at waiting
      cases waiting
  have harmless : ∀ q ∈ others.map threadProgram, Harmless bot.client q := by
    intro q mem
    obtain ⟨calls, known, rfl⟩ := List.mem_map.mp mem
    exact harmless_threadProgram calls (alone calls known)
  obtain ⟨s, p, ps', k, same, remembers, -⟩ :=
    interleaves_knows always none (tracks_run ticks bot) harmless run
  obtain ⟨rfl, -⟩ := Prod.mk.inj same
  obtain ⟨φs, inv, -⟩ := always _ run
  refine ⟨fun side => ?_, fun o waiting => ?_⟩
  · have one : ∀ o ∈ e.allResting, o.client = bot.client ∧ o.side = side →
        o.id = k.lastOrder side := by
      rintro o rests ⟨owner, rfl⟩
      obtain ⟨s, mem⟩ := mem_allResting.mp rests
      exact (remembers.rests s o mem owner).2.1
    exact length_filter_le_one inv.engine.nodup_allResting _ one
  · exact remembers.waits o (inv.engine.registry.mem_allWaiting.mp waiting)

end

/-- Two steps on one symbol, with a spread of two percent. -/
def twoTicks : List (QuoteTick ℚ) :=
  let tick (quantity : Int) : QuoteTick ℚ :=
    ⟨"AAPL", 0, fun _ => quantity, fun _ => 0, fun _ _ => 0⟩
  [tick 5, tick 7]

theorem atMostOneQuote_twoTicks : ∃ e ps,
    Interleaves (setUp (.ensureClient 3 10000 :: .grantInitialHoldings 3 "AAPL" 10 ::
        buyerAndSeller), (⟨3, 0.02, "", 0, 0⟩ : MarketMakerBot ℚ).run twoTicks ::
          [buysUpTo 200].map threadProgram) (e, ps) ∧
      (e.allResting.map fun o => (o.client, o.side, o.quantity)) = [(3, .buy, 7), (3, .sell, 7)] ∧
      ∀ side, (e.allResting.filter fun o => o.client = 3 ∧ o.side = side).length ≤ 1 := by
  set start := setUp (.ensureClient 3 10000 :: .grantInitialHoldings 3 "AAPL" 10 :: buyerAndSeller)
  set bot : MarketMakerBot ℚ := ⟨3, 0.02, "", 0, 0⟩
  have run := interleaves_exec [] [threadProgram (buysUpTo 200)] (bot.run twoTicks) start
  refine ⟨_, _, run, by decide +kernel, ?_⟩
  exact (atMostOneQuote _ bot twoTicks [buysUpTo 200] (by simp [buysUpTo, EngineCall.NotBy, request,
    bot]) run).1

end StockMarket
