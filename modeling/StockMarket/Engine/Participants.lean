import StockMarket.Engine.MarketMaker
import StockMarket.Market.Candles

/-!
Who takes part in the market, and in what.

`Rules` says who has an account, which symbols are listed, what kind of orders are submitted
and which reasons a rejection may have. If all submissions are as the rules admit, then every
schedule of every number of threads keeps the market `Closed`: accounts and symbols stay those
of the setting up, whoever has an order in a book or in the registry, or is a party to a trade,
has an account, and only an order with a condition ever waits. Prices are comparable here: at a
last price that is NaN an order without a condition would wait as well.
-/

namespace StockMarket

open Atomic MatchingEngine

variable {P : Type}

/-- What may be found in a market. -/
structure Rules (P : Type) where
  member : ClientId → Prop
  listed : Symbol → Prop
  fits : Order P → Prop
  reason : String → Prop
  blind : ∀ o q, fits o → fits (o.withQuantity q)

/-- The order may have to wait for something. -/
def Order.Conditional (o : Order P) : Prop :=
  o.notBefore.isSome ∨ o.releaseLower.isSome ∨ o.releaseUpper.isSome

/-- An order as the rules have it. -/
structure Rules.Proper (rules : Rules P) (o : Order P) : Prop where
  member : rules.member o.client
  listed : rules.listed o.symbol
  fits : rules.fits o

/-- A trade between members, on a listed symbol. -/
structure Rules.Between (rules : Rules P) (t : Trade P) : Prop where
  listed : rules.listed t.symbol
  members : ∀ side, rules.member (t.party side)

/-- The market is as the rules have it. -/
structure Closed (rules : Rules P) (e : MatchingEngine P) : Prop where
  accounts : ∀ c, c ∈ e.portfolios ↔ rules.member c
  symbols : ∀ s, s ∈ e.books ↔ rules.listed s
  prices : ∀ s, s ∈ e.lastPrices ↔ rules.listed s
  rests : ∀ s, ∀ r ∈ (e.bookFor s).restingOrders, rules.Proper r
  waits : ∀ w, e.registry.Waits w → rules.Proper w ∧ w.Conditional
  trades : ∀ t ∈ e.emitted, rules.Between t
  rejections : ∀ id c reason, .orderRejected id c reason ∈ e.published → rules.reason reason

/-- The order of a request that passed the checks, and the reasons for which it may be
rejected. -/
structure Rules.Admits [Zero P] [LE P] [DecidableLE P] (rules : Rules P)
    (request : OrderRequest P) : Prop where
  fits : ∀ id now, rules.member request.client → rules.listed request.symbol →
    rules.fits (buildOrder request id now)
  invalid : ∀ e : MatchingEngine P, (∀ s, s ∈ e.books ↔ rules.listed s) →
    ∀ reason, e.invalidReason request = some reason → rules.reason reason
  cash : request.side = .buy → rules.reason "insufficient cash"
  holdings : request.side = .sell → rules.reason "insufficient holdings"

theorem Rules.Proper.withQuantity {rules : Rules P} {o : Order P} (order : rules.Proper o)
    (q : Int) : rules.Proper (o.withQuantity q) :=
  ⟨order.member, order.listed, rules.blind o q order.fits⟩

namespace Closed

variable {rules : Rules P} {e e' : MatchingEngine P}

/-- Some orders may leave or be traded in part; accounts, symbols and trades stay. -/
theorem of_open (closed : Closed rules e) (accounts : ∀ c, c ∈ e'.portfolios ↔ c ∈ e.portfolios)
    (symbols : ∀ s, s ∈ e'.books ↔ s ∈ e.books) (prices : e'.lastPrices = e.lastPrices)
    (rests : ∀ s, ∀ r ∈ (e'.bookFor s).restingOrders, rules.Proper r)
    (waits : ∀ w, e'.registry.Waits w → rules.Proper w ∧ w.Conditional)
    (emitted : e'.emitted = e.emitted) (published : e'.published = e.published) :
    Closed rules e' where
  accounts c := (accounts c).trans (closed.accounts c)
  symbols s := (symbols s).trans (closed.symbols s)
  prices := prices ▸ closed.prices
  rests := rests
  waits := waits
  trades := emitted ▸ closed.trades
  rejections := published ▸ closed.rejections

/-- Nothing but counters, marks and ids differs. -/
theorem congr (closed : Closed rules e) (books : e'.books = e.books)
    (prices : e'.lastPrices = e.lastPrices) (registry : e'.registry = e.registry)
    (portfolios : e'.portfolios = e.portfolios)
    (emitted : e'.emitted = e.emitted) (published : e'.published = e.published) :
    Closed rules e' := by
  refine closed.of_open (by simp [portfolios]) (by simp [books]) prices ?_ ?_ emitted published
  · intro s r mem
    unfold bookFor at mem
    rw [books] at mem
    exact closed.rests s r mem
  · rw [registry]
    exact closed.waits

/-- An event, with its reason if it is a rejection. -/
theorem published (closed : Closed rules e) {event : Event P}
    (allowed : ∀ id c reason, event = .orderRejected id c reason → rules.reason reason) :
    Closed rules (publish event e) where
  accounts := closed.accounts
  symbols := closed.symbols
  prices := closed.prices
  rests := closed.rests
  waits := closed.waits
  trades := closed.trades
  rejections := by
    intro id c reason mem
    rcases List.mem_append.mp mem with old | new
    · exact closed.rejections id c reason old
    · exact allowed id c reason (List.mem_singleton.mp new).symm

/-- The price of a listed symbol. -/
theorem priced (closed : Closed rules e) {s : Symbol} (listed : rules.listed s) (price : P) :
    Closed rules (setLastPrice s price e) where
  accounts := closed.accounts
  symbols := closed.symbols
  prices := by
    intro t
    refine (AList.mem_insert _).trans ?_
    rw [closed.prices t, or_iff_right_iff_imp]
    rintro rfl
    exact listed
  rests := closed.rests
  waits := closed.waits
  trades := closed.trades
  rejections := closed.rejections

/-- The settlement of a trade between members. -/
theorem settled [Zero P] [Add P] [Sub P] [Mul P] [IntCast P] (closed : Closed rules e)
    {t : Trade P} (parties : rules.Between t) : Closed rules (settle t e) := by
  refine closed.of_open (fun c => ?_) (fun _ => Iff.rfl) rfl closed.rests closed.waits rfl rfl
  have buyer := (closed.accounts t.buyer).mpr (parties.members .buy)
  have seller := (closed.accounts t.seller).mpr (parties.members .sell)
  have after : c ∈ (settle t e).portfolios ↔ c = t.seller ∨ c = t.buyer ∨ c ∈ e.portfolios :=
    (AList.mem_insert _).trans (or_congr Iff.rfl (AList.mem_insert _))
  rw [after]
  constructor
  · rintro (rfl | rfl | old)
    · exact seller
    · exact buyer
    · exact old
  · exact fun old => .inr (.inr old)

/-- A cancellation in some book that is there. -/
theorem cancelledBook [LT P] [DecidableLT P] [IsStrictOrder P (· < ·)] (closed : Closed rules e)
    (sound : Reached e) (c : BookCancel P) {s : Symbol} (known : s ∈ e.books) :
    Closed rules (e.withBook s (c.apply (e.bookFor s)).2) := by
  obtain ⟨φs, inv, -⟩ := sound
  refine closed.of_open (fun _ => Iff.rfl) (fun t => ?_) rfl (fun t r mem => ?_) closed.waits rfl rfl
  · refine (AList.mem_insert _).trans ⟨?_, .inr⟩
    rintro (rfl | old)
    · exact known
    · exact old
  · exact closed.rests t r ((c.one (inv.engine.book s)).subset mem)

/-- A match of an order as the rules have it makes trades between members. -/
theorem matched [LT P] [DecidableLT P] (closed : Closed rules e) (sound : Reached e)
    (clock : Nat → Int) {o : Order P} (order : rules.Proper o) :
    Closed rules (matchBook clock o e).2 ∧ ∀ t ∈ (matchBook clock o e).1, rules.Between t := by
  obtain ⟨φs, inv, -⟩ := sound
  have parties : ∀ t ∈ (matchBook clock o e).1, rules.Between t := by
    intro t mem
    rw [inv.engine.matchBook_trades] at mem
    obtain ⟨f, hf, now, rfl⟩ := mem_fillTrades mem
    obtain ⟨l, hl, -, queued, -⟩ := inv.engine.mem_fillFor hf
    refine ⟨by rw [tradeOf_symbol]; exact order.listed, fun side => ?_⟩
    by_cases own : side = o.side
    · subst own
      rw [tradeOf_party]
      exact order.member
    · obtain rfl := Side.eq_opposite_of_ne own
      rw [tradeOf_party_opposite]
      have resting := mem_restingOrders.mpr ⟨_, mem_restingIn.mpr ⟨l, hl, queued⟩⟩
      exact (closed.rests o.symbol f.1.2 resting).member
  refine ⟨{ closed with symbols := ?_, rests := ?_, trades := ?_ }, parties⟩
  · intro s
    refine (AList.mem_insert _).trans ?_
    rw [closed.symbols s, or_iff_right_iff_imp]
    rintro rfl
    exact order.listed
  · intro s r mem
    rcases mem_bookFor_matchBook mem with ⟨-, -, q, rfl⟩ | ⟨r', mem', q, rfl⟩
    · exact order.withQuantity q
    · exact (closed.rests s r' mem').withQuantity q
  · intro t mem
    rcases List.mem_append.mp mem with old | new
    · exact closed.trades t old
    · exact parties t new

end Closed

/-! ### Programs -/

section

variable [LT P] {α β : Type} (rules : Rules P)

/-- The program keeps the market closed, and its result is as `ends` says. -/
abbrev Within (ends : α → Prop) (p : Prog (MatchingEngine P) α) : Prop :=
  Respects Reached (fun _ : Unit => Closed rules) ends p

variable {rules}

theorem within_step {ends : α → Prop} {action : MatchingEngine P → α × MatchingEngine P}
    (keeps : ∀ e, Reached e → Closed rules e → Closed rules (action e).2 ∧ ends (action e).1) :
    Within rules ends (Prog.step action) :=
  Respects.step fun e _ sound closed => keeps e sound closed

/-- What is read tells something about the state. -/
theorem within_read {ends : α → Prop} (f : MatchingEngine P → α)
    (told : ∀ e, Closed rules e → ends (f e)) : Within rules ends (Prog.read f) :=
  within_step fun e _ closed => ⟨closed, told e closed⟩

theorem within_count (f : Metrics → Metrics) :
    Within rules (fun _ => True) (Prog.modify (count f) : Prog (MatchingEngine P) Unit) :=
  within_step fun _ _ closed => ⟨closed.congr rfl rfl rfl rfl rfl rfl, trivial⟩

theorem within_publish {event : Event P}
    (allowed : ∀ id c reason, event = .orderRejected id c reason → rules.reason reason) :
    Within rules (fun _ => True) (Prog.modify (publish event)) :=
  within_step fun _ _ closed => ⟨closed.published allowed, trivial⟩

theorem within_reject (id : Nat) (client : ClientId) {reason : String}
    (allowed : rules.reason reason) :
    Within rules (fun _ => True) (reject id client reason : Prog (MatchingEngine P) _) := by
  refine (within_count _).bind fun _ _ => ?_
  refine (within_publish ?_).bind fun _ _ => trivial
  rintro _ _ _ ⟨⟩
  exact allowed

theorem within_reportExpired : ∀ orders : List (Order P),
    Within rules (fun _ => True) (reportExpired orders)
  | [] => trivial
  | _ :: orders =>
      (within_count _).bind fun _ _ =>
        (within_publish fun _ _ _ other => by cases other).bind fun _ _ =>
          within_reportExpired orders

theorem within_cancelWaitingOrder [IsStrictOrder P (· < ·)] (orderId : Nat) :
    Within rules (fun _ => True) (cancelWaitingOrder orderId : Prog (MatchingEngine P) Bool) := by
  refine within_step fun e sound closed => ⟨?_, trivial⟩
  obtain ⟨φs, inv, -⟩ := sound
  have registry := inv.engine.registry
  refine closed.of_open (fun _ => Iff.rfl) (fun _ => Iff.rfl) rfl closed.rests (fun w waiting => ?_)
    rfl rfl
  have left := (registry.cancel orderId).mem_allWaiting.mpr waiting
  exact closed.waits w (registry.mem_allWaiting.mp (registry.cancel_subset orderId left))

variable [Zero P] [Add P] [Sub P] [Mul P] [IntCast P]

theorem within_settleTrades : ∀ trades : List (Trade P), (∀ t ∈ trades, rules.Between t) →
    Within rules (fun _ => True) (settleTrades trades)
  | [], _ => trivial
  | t :: ts, parties => by
      obtain ⟨one, others⟩ := List.forall_mem_cons.mp parties
      have settled : Within rules (fun _ => True) (Prog.modify (settle t)) :=
        within_step fun _ _ closed => ⟨closed.settled one, trivial⟩
      have priced : Within rules (fun _ => True) (Prog.modify (setLastPrice t.symbol t.price)) :=
        within_step fun _ _ closed => ⟨closed.priced one.listed t.price, trivial⟩
      have marked : Within rules (fun _ => True)
          (Prog.modify (markDirty t.symbol) : Prog (MatchingEngine P) Unit) :=
        within_step fun _ _ closed => ⟨closed.congr rfl rfl rfl rfl rfl rfl, trivial⟩
      refine settled.bind fun _ _ => priced.bind fun _ _ => marked.bind fun _ _ => ?_
      refine (within_publish fun _ _ _ other => by cases other).bind fun _ _ => ?_
      exact within_settleTrades ts others

variable [DecidableLT P]

theorem within_matchAndSettle (clock : Nat → Int) {o : Order P} (order : rules.Proper o) :
    Within rules (fun _ => True) (matchAndSettle clock o) := by
  have matched : Within rules (fun trades => ∀ t ∈ trades, rules.Between t)
      (Prog.step (matchBook clock o)) :=
    within_step fun e sound closed => closed.matched sound clock order
  refine matched.bind fun trades parties => ?_
  refine (within_count _).bind fun _ _ => ?_
  refine (within_publish fun _ _ _ other => by cases other).bind fun _ _ => ?_
  refine (within_settleTrades trades parties).bind fun _ _ => ?_
  refine (within_count _).bind fun _ _ => ?_
  exact (within_count _).bind fun _ _ => trivial

theorem within_releaseAll (clock : Nat → Nat → Int) : ∀ (n : Nat) (orders : List (Order P)),
    (∀ o ∈ orders, rules.Proper o) → Within rules (fun _ => True) (releaseAll clock n orders)
  | _, [], _ => trivial
  | n, o :: orders, allowed => by
      obtain ⟨one, others⟩ := List.forall_mem_cons.mp allowed
      refine (within_matchAndSettle (clock n) one).bind fun _ _ => ?_
      exact (within_releaseAll clock (n + 1) orders others).bind fun _ _ => trivial

omit [Zero P] [Add P] [Sub P] [Mul P] [IntCast P] in
/-- A cancellation, of whatever order. -/
theorem within_cancelBook [IsStrictOrder P (· < ·)] (c : BookCancel P) (symbol : Symbol) :
    Within rules (fun _ => True) (do
      if ← .read (symbolExists · symbol) then
        .step fun e => ((c.apply (e.bookFor symbol)).1,
          e.withBook symbol (c.apply (e.bookFor symbol)).2)
      else return false : Prog (MatchingEngine P) Bool) := by
  have asked : Within rules (fun known => known = true → rules.listed symbol)
      (Prog.read fun e : MatchingEngine P => e.symbolExists symbol) :=
    within_read _ fun e closed known => (closed.symbols symbol).mp (of_decide_eq_true known)
  refine asked.bind fun known listed => ?_
  split
  · rename_i hit
    refine within_step fun e sound closed => ⟨?_, trivial⟩
    exact closed.cancelledBook sound c ((closed.symbols symbol).mpr (listed hit))
  · trivial

variable [LE P] [DecidableLE P]

omit [Add P] [Sub P] [Mul P] [IntCast P] [DecidableLT P] in
/-- What a scan releases was in the registry. -/
theorem within_scanSymbolsStep (order : Symbol → IterationOrder Nat (Order P)) (now : Int) :
    ∀ (symbols : List Symbol) (result : ScanResult P), (∀ o ∈ result.released, rules.Proper o) →
      Within rules (fun scan => ∀ o ∈ scan.released, rules.Proper o)
        (scanSymbolsStep order now symbols result)
  | [], _, allowed => allowed
  | s :: symbols, result, allowed => by
      have one : Within rules (fun scan => ∀ o ∈ scan.released, rules.Proper o)
          (.step (scanStep order now s result)) := by
        refine within_step fun e sound closed => ?_
        obtain ⟨φs, inv, -⟩ := sound
        have registry := inv.engine.registry
        constructor
        · refine closed.of_open (fun _ => Iff.rfl) (fun _ => Iff.rfl) rfl closed.rests
            (fun w waiting => ?_) rfl rfl
          have after : (scanStep order now s result e).2.registry = (OrderRegistry.scanSymbols order
            now e.lastPrice [s] (e.registry, {})).1 := scanSymbol_registry
          rw [after] at waiting
          exact closed.waits w
            ((RegistryInvariant.waits_scanSymbols (List.nodup_singleton s)).mp waiting).1
        · intro o released
          rcases EngineInvariant.mem_released_scanStep registry released with old | waited
          · exact allowed o old
          · exact (closed.waits o waited).1
      exact one.bind fun scan rest => within_scanSymbolsStep order now symbols scan rest

theorem within_tryReleaseWaitingOrders (order : ReleaseOrder P) (now : Int)
    (clock : Nat → Nat → Int) (fullScan : Bool) :
    Within rules (fun _ => True) (tryReleaseWaitingOrders order now clock fullScan) := by
  have symbols : Within rules (fun _ => True) (symbolsToScan order fullScan) := by
    unfold symbolsToScan
    split
    · exact within_read _ fun _ _ => trivial
    · exact within_step fun _ _ closed => ⟨closed.congr rfl rfl rfl rfl rfl rfl, trivial⟩
  refine symbols.bind fun symbols _ => ?_
  refine (within_scanSymbolsStep order.bucket now symbols {} (by simp)).bind fun scan allowed => ?_
  refine (within_releaseAll clock 0 scan.released allowed).bind fun _ _ => ?_
  exact (within_reportExpired _).bind fun _ _ => trivial

end

section

variable [LinearOrder P] [Zero P] [Add P] [Sub P] [Mul P] [IntCast P] [OfScientific P]
  {rules : Rules P}

omit [Zero P] [Add P] [Sub P] [Mul P] [IntCast P] [OfScientific P] in
/-- An order that nothing holds back has no condition. -/
theorem Order.conditional_of_held {o : Order P} {now : Int} {price : P}
    (held : ¬(o.isStarted now ∧ o.releaseBandContains price)) : o.Conditional := by
  by_contra none
  simp only [Order.Conditional, not_or, Option.not_isSome_iff_eq_none] at none
  refine held ⟨?_, ?_⟩
  · rw [Order.isStarted, none.1]
    trivial
  · rw [Order.releaseBandContains, none.2.1, none.2.2]
    exact ⟨le_refl price, le_refl price⟩

theorem within_submitOrder (now : Int) (clock : Nat → Int) {request : OrderRequest P}
    (admitted : rules.Admits request) :
    Within rules (fun _ => True) (submitOrder now clock request) := by
  refine (within_count _).bind fun _ _ => ?_
  have drafted : Within rules (fun _ => True) (.step fetchOrderId : Prog (MatchingEngine P) Nat) :=
    within_step fun _ _ closed => ⟨closed.congr rfl rfl rfl rfl rfl rfl, trivial⟩
  refine drafted.bind fun id _ => ?_
  have checked : Within rules (fun reason => reason.elim (rules.listed request.symbol) rules.reason)
      (Prog.read fun e : MatchingEngine P => e.invalidReason request) := by
    refine within_read _ fun e closed => ?_
    have invalid := admitted.invalid e closed.symbols
    cases answer : e.invalidReason request with
    | some reason => exact invalid reason answer
    | none => exact (closed.symbols _).mp (of_invalidReason_none answer).2
  refine checked.bind fun reason told => ?_
  cases reason with
  | some reason => exact within_reject _ _ told
  | none =>
      have risk : Within rules (fun passes => passes = true → rules.member request.client)
          (Prog.read fun e : MatchingEngine P => e.passesRiskCheck request.client request.side
            request.kind request.symbol request.quantity request.price) := by
        refine within_read _ fun e closed passes => (closed.accounts _).mp ?_
        by_contra unknown
        rw [passesRiskCheck, AList.lookup_eq_none.mpr unknown] at passes
        cases passes
      refine risk.bind fun passes member => ?_
      by_cases refused : passes = true
      · rw [if_neg (not_not.mpr refused)]
        set order := buildOrder request id now
        have allowed : rules.Proper order :=
          ⟨member refused, told, admitted.fits id now (member refused) told⟩
        refine (within_read _ fun _ _ => trivial).bind fun price (_ : True) => ?_
        by_cases ready : order.isStarted now ∧ order.releaseBandContains price
        · rw [if_pos ready]
          exact within_matchAndSettle clock allowed
        · rw [if_neg ready]
          have queued : Within rules (fun _ => True) (Prog.modify (enqueue order)) := by
            refine within_step fun e _ closed => ⟨?_, trivial⟩
            refine closed.of_open (fun _ => Iff.rfl) (fun _ => Iff.rfl) rfl closed.rests
              (fun w waiting => ?_) rfl rfl
            rcases waits_of_add waiting with rfl | old
            · exact ⟨allowed, Order.conditional_of_held ready⟩
            · exact closed.waits w old
          refine (within_count _).bind fun _ _ => ?_
          refine queued.bind fun _ _ => ?_
          exact (within_publish fun _ _ _ other => by cases other).bind fun _ _ => trivial
      · rw [if_pos refused]
        refine within_reject _ _ ?_
        by_cases buys : request.side = .buy
        · rw [if_pos buys]
          exact admitted.cash buys
        · rw [if_neg buys]
          exact admitted.holdings (by cases side : request.side <;> simp_all)

/-- A call as the rules have it. -/
def Rules.Call (rules : Rules P) : EngineCall P → Prop
  | .submitOrder _ _ request => rules.Admits request
  | _ => True

theorem within_program {call : EngineCall P} (allowed : rules.Call call) :
    Within rules (fun _ => True) call.program := by
  cases call with
  | submitOrder now clock request =>
      exact (within_submitOrder now clock allowed).bind fun _ _ => trivial
  | tryReleaseWaitingOrders order now clock fullScan =>
      exact (within_tryReleaseWaitingOrders order now clock fullScan).bind fun _ _ => trivial
  | cancelOrderAt symbol side price orderId =>
      exact Respects.bind (within_cancelBook (.atPrice side price orderId) symbol)
        fun _ _ => trivial
  | cancelOrder symbol orderId =>
      exact Respects.bind (within_cancelBook (.byId orderId) symbol) fun _ _ => trivial
  | cancelWaitingOrder orderId =>
      exact (within_cancelWaitingOrder orderId).bind fun _ _ => trivial

theorem within_threadProgram : ∀ calls : List (EngineCall P), (∀ call ∈ calls, rules.Call call) →
    Within rules (fun _ => True) (threadProgram calls)
  | [], _ => trivial
  | call :: calls, allowed => by
      obtain ⟨one, others⟩ := List.forall_mem_cons.mp allowed
      exact (within_program one).bind fun _ _ => within_threadProgram calls others

/-! ### Setting up -/

/-- The client whose account a setting-up call makes sure of. -/
def SetupCall.account : SetupCall P → Option ClientId
  | .registerSymbol _ _ => none
  | .ensureClient client _ | .grantInitialHoldings client _ _ => some client

/-- The symbol that a setting-up call lists. -/
def SetupCall.listing : SetupCall P → Option Symbol
  | .registerSymbol symbol _ => some symbol
  | .ensureClient _ _ | .grantInitialHoldings _ _ _ => none

omit [LinearOrder P] [Zero P] [Add P] [Sub P] [Mul P] [IntCast P] [OfScientific P] in
theorem Table.mem_tryEmplace {K V : Type} [DecidableEq K] {k k' : K} {v : V} {t : Table K V} :
    k' ∈ Table.tryEmplace k v t ↔ k' = k ∨ k' ∈ t := by
  unfold Table.tryEmplace
  split
  · rename_i known
    refine ⟨.inr, ?_⟩
    rintro (rfl | old)
    · exact known
    · exact old
  · exact AList.mem_insert _

omit [LinearOrder P] [Add P] [Sub P] [Mul P] [IntCast P] [OfScientific P] in
/-- The keys of a table are those that the calls put there. -/
theorem mem_setUp {K V : Type} [DecidableEq K] (table : MatchingEngine P → Table K V)
    (key : SetupCall P → Option K) {k : K} (empty : k ∉ table {})
    (one : ∀ (call : SetupCall P) (e : MatchingEngine P),
      k ∈ table (call.apply e) ↔ key call = some k ∨ k ∈ table e) (setup : List (SetupCall P)) :
    k ∈ table (setUp setup) ↔ ∃ call ∈ setup, key call = some k := by
  have all : ∀ (calls : List (SetupCall P)) (e : MatchingEngine P),
      k ∈ table (calls.foldl SetupCall.apply e) ↔ k ∈ table e ∨ ∃ call ∈ calls, key call = some k := by
    intro calls
    induction calls with
    | nil => simp
    | cons call calls ih =>
        intro e
        rw [List.foldl_cons, ih, one, List.exists_mem_cons_iff]
        tauto
  exact (all setup {}).trans (or_iff_right empty)

omit [LinearOrder P] [Add P] [Sub P] [Mul P] [IntCast P] [OfScientific P] in
theorem mem_portfolios_setUp (setup : List (SetupCall P)) (c : ClientId) :
    c ∈ (setUp setup).portfolios ↔ ∃ call ∈ setup, call.account = some c := by
  refine mem_setUp MatchingEngine.portfolios SetupCall.account (AList.notMem_empty c) ?_ setup
  intro call e
  cases call with
  | registerSymbol symbol price => simp [SetupCall.apply, SetupCall.account, registerSymbol]
  | ensureClient client cash =>
      simp [SetupCall.apply, SetupCall.account, ensureClient, Table.mem_tryEmplace, eq_comm]
  | grantInitialHoldings client symbol quantity =>
      simp [SetupCall.apply, SetupCall.account, grantInitialHoldings, Table.update, eq_comm]

omit [LinearOrder P] [Add P] [Sub P] [Mul P] [IntCast P] [OfScientific P] in
theorem mem_books_setUp (setup : List (SetupCall P)) (s : Symbol) :
    s ∈ (setUp setup).books ↔ ∃ call ∈ setup, call.listing = some s := by
  refine mem_setUp MatchingEngine.books SetupCall.listing (AList.notMem_empty s) ?_ setup
  intro call e
  cases call with
  | registerSymbol symbol price =>
      simp [SetupCall.apply, SetupCall.listing, registerSymbol, Table.mem_tryEmplace, eq_comm]
  | ensureClient client cash => simp [SetupCall.apply, SetupCall.listing, ensureClient]
  | grantInitialHoldings client symbol quantity =>
      simp [SetupCall.apply, SetupCall.listing, grantInitialHoldings]

omit [LinearOrder P] [Add P] [Sub P] [Mul P] [IntCast P] [OfScientific P] in
theorem mem_lastPrices_setUp (setup : List (SetupCall P)) (s : Symbol) :
    s ∈ (setUp setup).lastPrices ↔ ∃ call ∈ setup, call.listing = some s := by
  refine mem_setUp MatchingEngine.lastPrices SetupCall.listing (AList.notMem_empty s) ?_ setup
  intro call e
  cases call with
  | registerSymbol symbol price =>
      simp [SetupCall.apply, SetupCall.listing, registerSymbol, eq_comm]
  | ensureClient client cash => simp [SetupCall.apply, SetupCall.listing, ensureClient]
  | grantInitialHoldings client symbol quantity =>
      simp [SetupCall.apply, SetupCall.listing, grantInitialHoldings]

/-! ### Runs -/

omit [LinearOrder P] [Add P] [Sub P] [Mul P] [IntCast P] [OfScientific P] in
/-- Before the first submission. -/
theorem closed_setUp (setup : List (SetupCall P))
    (accounts : ∀ c, c ∈ (setUp setup).portfolios ↔ rules.member c)
    (symbols : ∀ s, s ∈ (setUp setup).books ↔ rules.listed s) : Closed rules (setUp setup) where
  accounts := accounts
  symbols := symbols
  prices s := ((mem_lastPrices_setUp setup s).trans
    (mem_books_setUp setup s).symm).trans (symbols s)
  rests := by
    intro s r mem
    rw [(idle_setUp setup).book s] at mem
    cases mem
  waits := by
    intro w waiting
    rw [(idle_setUp setup).registry] at waiting
    cases waiting
  trades := by simp [(idle_setUp setup).emitted]
  rejections := by simp [published_setUp setup]

/-- **The rules hold at every moment of every schedule** of threads whose submissions are as
they admit. -/
theorem Closed.of_interleaves {setup : List (SetupCall P)} {threads : List (List (EngineCall P))}
    (start : Closed rules (setUp setup))
    (allowed : ∀ calls ∈ threads, ∀ call ∈ calls, rules.Call call) {e : MatchingEngine P}
    {ps : List (Prog (MatchingEngine P) Unit)}
    (run : Interleaves (setUp setup, threads.map threadProgram) (e, ps)) :
    Reached e ∧ Closed rules e := by
  have programs : (startThreads threads).map Prod.fst = threads.map threadProgram := by
    simp [startThreads]
  have always : ∀ c, Interleaves (setUp setup, threads.map threadProgram) c → Reached c.1 :=
    fun c run => sound_of_run programs (following_startThreads threads) phases_startThreads run
  have within : ∀ p ∈ threads.map threadProgram, Within rules (fun _ => True) p := by
    intro p mem
    obtain ⟨calls, known, rfl⟩ := List.mem_map.mp mem
    exact within_threadProgram calls (allowed calls known)
  exact ⟨always _ run, (interleaves_respects (k := ()) always start within run).1⟩

/-- The texts with which `submit_order` rejects. -/
def rejectReasons : List String :=
  ["quantity must be positive", "LIMIT/STOP/LIMIT_STOP order requires a positive price",
    "unknown symbol", "insufficient cash", "insufficient holdings"]

/-- The rules that any submission keeps. -/
def Rules.of (e : MatchingEngine P) : Rules P where
  member c := c ∈ e.portfolios
  listed s := s ∈ e.books
  fits _ := True
  reason r := r ∈ rejectReasons
  blind _ _ _ := trivial

omit [Add P] [Sub P] [Mul P] [IntCast P] [OfScientific P] in
theorem Rules.admits_of (e : MatchingEngine P) (request : OrderRequest P) :
    (Rules.of e).Admits request where
  fits _ _ _ _ := trivial
  invalid := by
    intro e' _ reason failed
    unfold invalidReason at failed
    split_ifs at failed <;> cases failed <;> simp [Rules.of, rejectReasons]
  cash := by simp [Rules.of, rejectReasons]
  holdings := by simp [Rules.of, rejectReasons]

/-- **Only members trade.** Whatever any number of threads submits and cancels, under any schedule
trading opens no account and lists no symbol. At every moment each open order and each trade made
is of clients that the setting up gave an account, on symbols that it listed; an order that waits
has a condition to wait for; and every rejection has one of five texts. -/
theorem membersOnly (setup : List (SetupCall P)) (threads : List (List (EngineCall P)))
    {e : MatchingEngine P} {ps : List (Prog (MatchingEngine P) Unit)}
    (run : Interleaves (setUp setup, threads.map threadProgram) (e, ps)) :
    (∀ c, c ∈ e.portfolios ↔ c ∈ (setUp setup).portfolios) ∧
      (∀ s, s ∈ e.books ↔ s ∈ (setUp setup).books) ∧
      (∀ o ∈ e.allResting ++ e.waitingOrders, o.client ∈ e.portfolios ∧ o.symbol ∈ e.books) ∧
      (∀ t ∈ e.emitted, ∀ side, t.party side ∈ e.portfolios) ∧
      (∀ o ∈ e.waitingOrders, o.Conditional) ∧
      ∀ id c reason, .orderRejected id c reason ∈ e.published → reason ∈ rejectReasons := by
  have start : Closed (Rules.of (setUp setup)) (setUp setup) :=
    closed_setUp setup (fun _ => Iff.rfl) fun _ => Iff.rfl
  have allowed : ∀ calls ∈ threads, ∀ call ∈ calls, (Rules.of (setUp setup)).Call call := by
    intro calls _ call _
    cases call with
    | submitOrder now clock request => exact Rules.admits_of (setUp setup) request
    | _ => trivial
  obtain ⟨⟨φs, inv, -⟩, closed⟩ := start.of_interleaves allowed run
  have waiting : ∀ o ∈ e.waitingOrders, (Rules.of (setUp setup)).Proper o ∧ o.Conditional :=
    fun o mem => closed.waits o (inv.engine.registry.mem_allWaiting.mp mem)
  refine ⟨closed.accounts, closed.symbols, fun o mem => ?_, fun t mem side => ?_,
    fun o mem => (waiting o mem).2, closed.rejections⟩
  · have proper : (Rules.of (setUp setup)).Proper o := by
      rcases List.mem_append.mp mem with rests | waits
      · obtain ⟨s, mem⟩ := mem_allResting.mp rests
        exact closed.rests s o mem
      · exact (waiting o waits).1
    exact ⟨(closed.accounts _).mpr proper.member, (closed.symbols _).mpr proper.listed⟩
  · exact (closed.accounts _).mpr ((closed.trades t mem).members side)

end

/-- A stranger offers shares, and then the two members trade. -/
def strangerFirst : List (EngineCall ℚ) :=
  .submitOrder 0 (fun _ => 0) (request 9 .sell .limit "AAPL" 5 80) :: crossingThreads.flatten

theorem membersOnly_strangerFirst : ∃ e ps,
    Interleaves (setUp buyerAndSeller, [strangerFirst].map threadProgram) (e, ps) ∧
      e.emitted.map (fun t => (t.buyer, t.seller)) = [(1, 2)] ∧
      (∀ c, c ∈ e.portfolios ↔ c ∈ (setUp buyerAndSeller).portfolios) ∧
      ∀ t ∈ e.emitted, ∀ side, t.party side ∈ e.portfolios := by
  have run := interleaves_exec [] [] (threadProgram strangerFirst) (setUp buyerAndSeller)
  obtain ⟨accounts, -, -, parties, -⟩ := membersOnly buyerAndSeller [strangerFirst] run
  exact ⟨_, _, run, by decide +kernel, accounts, parties⟩

end StockMarket
