import StockMarket.Engine.Prices
import StockMarket.Net.Server

/-!
Which orders bring an infinity or NaN into the engine.

`FinitePrices` is what one would have of prices and balances. Whatever trades, settles or
rests keeps it, as long as every priced order costs little altogether (`FiniteInvariant`): less
than half the last step of the finite doubles, which no sum of a balance and such an amount
leaves. The guard `price <= 0` lets NaN and `+infinity` pass, and amounts that overflow. A run
without an admitted order of one of these kinds keeps all prices and balances finite
(`finite_prices_of_guarded`).
-/

namespace StockMarket

open MatchingEngine

/-- Prices of resting orders and last prices are finite and positive, balances are
finite. -/
structure FinitePrices (e : MatchingEngine Double) : Prop where
  resting : ∀ o ∈ e.allResting, o.price.IsPositive
  lastPrices : ∀ s p, e.lastPrices.lookup s = some p → p.IsPositive
  cash : ∀ c p, e.portfolios.lookup c = some p → p.cash.IsFinite

/-- The order costs little altogether. -/
def Order.IsSmall (o : Order Double) : Prop :=
  (o.quantity : Double) * o.price < .finite Double.halfLastStep

/-- The same of everything that can become one of these: the keys of the books, and
the priced orders that are open. -/
structure FiniteInvariant (e : MatchingEngine Double) (pending : List (Order Double)) : Prop where
  prices : PricesAre Double.IsPositive e pending
  own : OwnPrices e
  lastPrices : ∀ s p, e.lastPrices.lookup s = some p → p.IsPositive
  cash : ∀ c p, e.portfolios.lookup c = some p → p.cash.IsFinite
  small : ∀ o ∈ e.openOrders pending, o.kind ≠ .market → o.IsSmall

/-- The same order with less of its quantity. -/
theorem Order.IsSmall.withQuantity {o : Order Double} (small : o.IsSmall)
    (positive : o.price.IsPositive) {q : Int} (pos : 0 < q) (le : q ≤ o.quantity) :
    (o.withQuantity q).IsSmall := by
  obtain ⟨a, eq, -, less⟩ := Double.isSmall_of_le pos le positive.not_le small
  have product : ((o.withQuantity q).quantity : Double) * (o.withQuantity q).price = .finite a := eq
  rw [Order.IsSmall, product]
  exact Double.lt_iff.mpr less

namespace FiniteInvariant

section

variable {e e' : MatchingEngine Double} {pending pending' : List (Order Double)}
  {o : Order Double}

theorem toFinitePrices (fin : FiniteInvariant e pending) : FinitePrices e :=
  ⟨fin.prices.resting, fin.lastPrices, fin.cash⟩

/-- Counters and published events do not matter. -/
theorem of_core (fin : FiniteInvariant e pending) (same : e'.core = e.core) :
    FiniteInvariant e' pending := by
  have core : FiniteInvariant e.core pending :=
    ⟨fin.prices.of_core rfl, fin.own, fin.lastPrices, fin.cash, fin.small⟩
  rw [← same] at core
  exact ⟨core.prices.of_core rfl, core.own, core.lastPrices, core.cash, core.small⟩

/-- Fewer orders wait or are on their way. -/
theorem mono (fin : FiniteInvariant e pending) (books : e'.books = e.books)
    (lastPrices : e'.lastPrices = e.lastPrices) (portfolios : e'.portfolios = e.portfolios)
    (arriving : ∀ r ∈ pending' ++ e'.waitingOrders, r ∈ pending ++ e.waitingOrders) :
    FiniteInvariant e' pending' where
  prices := fin.prices.mono books arriving
  own := by
    unfold OwnPrices bookFor
    rw [books]
    exact fin.own
  lastPrices := lastPrices ▸ fin.lastPrices
  cash := portfolios ▸ fin.cash
  small := by
    intro r mem
    have open' : ∀ r ∈ pending ++ e.waitingOrders, r ∈ e.openOrders pending := by
      intro r mem
      rcases List.mem_append.mp mem with mem | mem
      · exact List.mem_append_left _ mem
      · exact List.mem_append_right _ (List.mem_append_right _ mem)
    have resting : e'.allResting = e.allResting := by
      unfold allResting
      rw [books]
    refine fin.small r ?_
    rcases List.mem_append.mp mem with mem | mem
    · exact open' r (arriving r (List.mem_append_left _ mem))
    · rcases List.mem_append.mp mem with mem | mem
      · exact List.mem_append_right _ (List.mem_append_left _ (resting ▸ mem))
      · exact open' r (arriving r (List.mem_append_right _ mem))

end

/-! ### Settlement -/

section

variable {e : MatchingEngine Double}

/-- An update of one portfolio that keeps its cash finite. -/
theorem cash_update (client : ClientId) {m : Table ClientId (Portfolio Double)}
    {f : Portfolio Double → Portfolio Double}
    (cash : ∀ c p, m.lookup c = some p → p.cash.IsFinite)
    (keeps : ∀ p : Portfolio Double, p.cash.IsFinite → (f p).cash.IsFinite) :
    ∀ c p, (Table.update client default f m).lookup c = some p → p.cash.IsFinite := by
  intro c p look
  by_cases here : c = client
  · subst here
    rw [Table.lookup_update] at look
    obtain rfl := Option.some.inj look
    refine keeps _ ?_
    cases known : m.lookup c with
    | none => exact Double.IsFinite.zero
    | some p => exact cash c p known
  · rw [Table.lookup_update_ne here] at look
    exact cash c p look

/-- A trade of a small amount. -/
theorem cash_settle (cash : ∀ c p, e.portfolios.lookup c = some p → p.cash.IsFinite)
    {t : Trade Double} (small : ((t.quantity : Double) * t.price).IsSmall) :
    ∀ c p, (settle t e).portfolios.lookup c = some p → p.cash.IsFinite := by
  have paid := cash_update t.buyer cash
    (f := debit t.symbol ((t.quantity : Double) * t.price) t.quantity)
    fun p fin => (fin.add_small small).2
  exact cash_update t.seller paid fun p fin => (fin.add_small small).1

/-- Trades of small amounts keep last prices and balances finite. -/
theorem finite_settleAll (ts : List (Trade Double)) :
    ∀ {e : MatchingEngine Double},
      (∀ t ∈ ts, t.price.IsPositive ∧ ((t.quantity : Double) * t.price).IsSmall) →
      (∀ s p, e.lastPrices.lookup s = some p → p.IsPositive) →
      (∀ c p, e.portfolios.lookup c = some p → p.cash.IsFinite) →
      (∀ s p, (settleAll ts e).lastPrices.lookup s = some p → p.IsPositive) ∧
        ∀ c p, (settleAll ts e).portfolios.lookup c = some p → p.cash.IsFinite := by
  induction ts with
  | nil => exact fun _ lastPrices cash => ⟨lastPrices, cash⟩
  | cons t ts ih =>
      intro e traded lastPrices cash
      obtain ⟨price, small⟩ := traded t List.mem_cons_self
      refine ih (fun u mem => traded u (List.mem_cons_of_mem _ mem)) (fun s p look => ?_)
        (cash_settle cash small)
      have entries : (e.lastPrices.insert t.symbol t.price).lookup s = some p := look
      by_cases here : s = t.symbol
      · subst here
        rw [AList.lookup_insert] at entries
        exact Option.some.inj entries ▸ price
      · rw [AList.lookup_insert_ne here] at entries
        exact lastPrices s p entries

end

/-! ### Moves -/

section

variable {e : MatchingEngine Double} {pending : List (Order Double)} {o : Order Double}

/-- A match trades small amounts. -/
theorem traded (fin : FiniteInvariant e (o :: pending)) (inv : EngineInvariant e (o :: pending))
    (clock : Nat → Int) : ∀ t ∈ (matchBook clock o e).1,
      t.price.IsPositive ∧ ((t.quantity : Double) * t.price).IsSmall := by
  intro t mem
  refine ⟨fin.prices.traded inv o clock t mem, ?_⟩
  rw [inv.matchBook_trades] at mem
  obtain ⟨f, hf, now, rfl⟩ := mem_fillTrades mem
  obtain ⟨l, hl, same, hr, -, pos⟩ := inv.mem_fillFor hf
  have resting := mem_restingIn.mpr ⟨l, hl, hr⟩
  have opened : f.1.2 ∈ e.openOrders (o :: pending) :=
    List.mem_append_right _ (List.mem_append_left _
      (mem_allResting.mpr ⟨o.symbol, mem_restingOrders.mpr ⟨_, resting⟩⟩))
  have kind := ((inv.book o.symbol).own _ f.1.2 resting).2.2
  have price : f.1.2.price = f.1.1 := (fin.own o.symbol _ l hl _ hr).trans same
  have small := fin.small _ opened kind
  rw [Order.IsSmall, price] at small
  have guarded := (price ▸ fin.prices.of_open opened kind).not_le
  rw [tradeOf_price, tradeOf_quantity]
  exact Double.isSmall_of_le pos (inv.fill_le hf) guarded small

/-- **A match** keeps everything finite. -/
theorem matched (fin : FiniteInvariant e (o :: pending)) (inv : EngineInvariant e (o :: pending))
    (clock : Nat → Int) : FiniteInvariant (matched clock o e) pending := by
  obtain ⟨lastPrices, cash⟩ := finite_settleAll (e := (matchBook clock o e).2)
    (matchBook clock o e).1 (fin.traded inv clock) fin.lastPrices fin.cash
  have prices := fin.prices.matched clock
  refine ⟨prices, fin.own.matched comparable_isPositive fin.prices clock, lastPrices, cash,
    fun r mem kind => ?_⟩
  have pos := (inv.matched clock).positive mem
  rcases List.mem_append.mp ((openOrders_matched clock e pending o).mem_iff.mp mem) with mem | mem
  · obtain ⟨t, mem⟩ := mem_restingOrders.mp mem
    rcases inv.resting_le clock mem with ⟨kind, q, le, rfl⟩ | ⟨r', hr', q, le, rfl⟩
    · exact (fin.small o List.mem_cons_self kind).withQuantity
        (fin.prices.arriving o List.mem_cons_self kind) pos le
    · have opened : r' ∈ e.openOrders (o :: pending) :=
        List.mem_append_right _ (List.mem_append_left _
          (mem_allResting.mpr ⟨o.symbol, mem_restingOrders.mpr ⟨t, hr'⟩⟩))
      exact (fin.small r' opened kind).withQuantity (fin.prices.of_open opened kind) pos le
  · exact fin.small r ((openOrders_around e pending o).mem_iff.mpr (List.mem_append_right _ mem))
      kind

theorem matchedAll (clock : Nat → Nat → Int) (orders : List (Order Double)) :
    ∀ (n : Nat) {e : MatchingEngine Double}, FiniteInvariant e orders → EngineInvariant e orders →
      FiniteInvariant (matchedAll clock n orders e) [] := by
  induction orders with
  | nil => exact fun n e fin inv => fin
  | cons o orders ih =>
      exact fun n e fin inv => ih (n + 1) (fin.matched inv (clock n)) (inv.matched (clock n))

/-- A scan makes waiting orders pending. -/
theorem scanned (fin : FiniteInvariant e []) (inv : EngineInvariant e [])
    (order : ReleaseOrder Double) (now : Int) (fullScan : Bool) :
    FiniteInvariant (e.scanned order now fullScan)
      (e.releaseScan order now fullScan).2.released := by
  have split := (inv.releaseScan_exact order now fullScan).split
  refine fin.mono rfl rfl rfl fun r mem => split.mem_iff.mpr ?_
  rcases List.mem_append.mp mem with released | waits
  · exact List.mem_append_right _ (List.mem_append_left _ released)
  · exact List.mem_append_left _ waits

/-- A cancellation, which takes open orders away. -/
theorem cancelled {e' : MatchingEngine Double} {gone : List (Order Double)}
    (fin : FiniteInvariant e []) (split : (e.openOrders []).Perm (gone ++ e'.openOrders []))
    (prices : PricesAre Double.IsPositive e' []) (own : OwnPrices e')
    (lastPrices : e'.lastPrices = e.lastPrices) (portfolios : e'.portfolios = e.portfolios) :
    FiniteInvariant e' [] :=
  ⟨prices, own, lastPrices ▸ fin.lastPrices, portfolios ▸ fin.cash, fun r mem =>
    fin.small r (split.mem_iff.mpr (List.mem_append_right _ mem))⟩

theorem cancelledIn_kept (s : Symbol) (f : OrderBook Double → Bool × OrderBook Double) :
    (e.cancelledIn s f).2.lastPrices = e.lastPrices ∧
      (e.cancelledIn s f).2.portfolios = e.portfolios := by
  unfold MatchingEngine.cancelledIn
  split <;> exact ⟨rfl, rfl⟩

end

end FiniteInvariant

/-! ### Runs -/

/-- A submission that passes the checks is no priced order whose quantity times price is NaN,
an infinity, or half the last step of the finite doubles or more. -/
def EngineCall.Guarded (e : MatchingEngine Double) : EngineCall Double → Prop
  | .submitOrder _ _ request => e.Admits request → request.kind ≠ .market →
      (request.quantity : Double) * request.price < .finite Double.halfLastStep
  | _ => True

namespace FiniteInvariant

variable {e : MatchingEngine Double}

/-- An order that passes the checks is on its way. -/
theorem arrive (fin : FiniteInvariant e []) {now : Int} {clock : Nat → Int}
    {request : OrderRequest Double} (guarded : (EngineCall.submitOrder now clock request).Guarded e)
    (admits : e.Admits request) :
    FiniteInvariant e.withId [buildOrder request e.nextOrderId now] := by
  obtain ⟨quantity, positive, -⟩ := EngineInvariant.valid_of_admits admits
  refine ⟨fin.prices.arrive fun kind => ?_, fin.own, fin.lastPrices, fin.cash, fun r mem kind => ?_⟩
  · exact Double.isPositive_of_mul_lt quantity (positive kind) (guarded admits kind)
  · rcases List.mem_cons.mp mem with rfl | old
    · exact guarded admits kind
    · exact fin.small r old kind

theorem effect (fin : FiniteInvariant e []) (inv : EngineInvariant e []) {call : EngineCall Double}
    (guarded : call.Guarded e) : FiniteInvariant (call.effect e) [] := by
  cases call with
  | submitOrder now clock request =>
      rw [EngineCall.effect]
      rcases submitted_cases now clock request e with ⟨admits, -, eq⟩ | ⟨admits, -, eq⟩ | ⟨-, eq⟩
      · rw [eq]
        exact (fin.arrive guarded admits).matched (inv.admitted now admits) clock
      · rw [eq]
        have queued := (inv.admitted now admits).waitingOrders_enqueue
        exact (fin.arrive guarded admits).mono rfl rfl rfl fun r mem => queued.mem_iff.mp mem
      · rw [eq]
        exact fin.mono rfl rfl rfl fun r mem => mem
  | tryReleaseWaitingOrders order now clock fullScan =>
      exact (fin.scanned inv order now fullScan).matchedAll clock _ 0
        (inv.scanned order now fullScan)
  | cancelOrderAt symbol side price orderId =>
      have one := cancelAtPrice_one (e.bookFor symbol) side price orderId
      obtain ⟨lastPrices, portfolios⟩ := cancelledIn_kept symbol
        (fun b => b.cancelAtPrice side price orderId)
      exact fin.cancelled (inv.cancelOrderAt symbol side price orderId).2
        (fin.prices.cancelledIn one) (fin.own.cancelledIn one) lastPrices portfolios
  | cancelOrder symbol orderId =>
      have one := cancel_one (inv.book symbol) orderId
      obtain ⟨lastPrices, portfolios⟩ := cancelledIn_kept symbol (fun b => b.cancel orderId)
      exact fin.cancelled (inv.cancelOrder symbol orderId).2
        (fin.prices.cancelledIn one) (fin.own.cancelledIn one) lastPrices portfolios
  | cancelWaitingOrder orderId =>
      exact fin.mono rfl rfl rfl fun _ mem => inv.registry.cancel_subset orderId mem

theorem apply (fin : FiniteInvariant e []) (inv : EngineInvariant e []) {call : EngineCall Double}
    (guarded : call.Guarded e) : FiniteInvariant (e.apply call) [] :=
  (fin.effect inv guarded).of_core (core_apply e call)

/-! #### Setting up -/

theorem registerSymbol (fin : FiniteInvariant e []) (symbol : Symbol) {price : Double}
    (positive : price.IsPositive) : FiniteInvariant (e.registerSymbol symbol price) [] := by
  have resting : ∀ o ∈ (e.registerSymbol symbol price).allResting, o ∈ e.allResting := by
    intro o mem
    obtain ⟨s, mem⟩ := mem_allResting.mp mem
    rw [bookFor_registerSymbol] at mem
    exact mem_allResting.mpr ⟨s, mem⟩
  refine ⟨⟨fun o mem => fin.prices.resting o (resting o mem), fun s t l mem => ?_,
    fin.prices.arriving⟩, fun s => ?_, fun s p look => ?_, fin.cash, fun o mem kind => ?_⟩
  · rw [bookFor_registerSymbol] at mem
    exact fin.prices.levels s t l mem
  · rw [bookFor_registerSymbol]
    exact fin.own s
  · have entries : (e.lastPrices.insert symbol price).lookup s = some p := look
    by_cases here : s = symbol
    · subst here
      rw [AList.lookup_insert] at entries
      exact Option.some.inj entries ▸ positive
    · rw [AList.lookup_insert_ne here] at entries
      exact fin.lastPrices s p entries
  · refine fin.small o ?_ kind
    rcases List.mem_append.mp mem with mem | mem
    · exact List.mem_append_left _ mem
    · rcases List.mem_append.mp mem with mem | mem
      · exact List.mem_append_right _ (List.mem_append_left _ (resting o mem))
      · exact List.mem_append_right _ (List.mem_append_right _ mem)

theorem ensureClient (fin : FiniteInvariant e []) (client : ClientId) {cash : Double}
    (finite : cash.IsFinite) : FiniteInvariant (e.ensureClient client cash) [] := by
  refine ⟨fin.prices.mono rfl fun _ mem => mem, fin.own, fin.lastPrices, fun c p look => ?_,
    fin.small⟩
  have entries : (Table.tryEmplace client { cash := cash } e.portfolios).lookup c = some p := look
  by_cases here : c = client
  · subst here
    rw [Table.lookup_tryEmplace_self] at entries
    obtain rfl := Option.some.inj entries
    cases known : e.portfolios.lookup c with
    | none => exact finite
    | some p => exact fin.cash c p known
  · rw [Table.lookup_tryEmplace_ne here] at entries
    exact fin.cash c p entries

theorem grantInitialHoldings (fin : FiniteInvariant e []) (client : ClientId) (symbol : Symbol)
    (quantity : Int) : FiniteInvariant (e.grantInitialHoldings client symbol quantity) [] := by
  have cash := cash_update client fin.cash (f := fun p =>
    { p with holdings := Table.update symbol 0 (· + quantity) p.holdings }) fun p cash => cash
  exact ⟨fin.prices.mono rfl fun _ mem => mem, fin.own, fin.lastPrices, cash, fin.small⟩

theorem openAccount (fin : FiniteInvariant e []) (client : ClientId) :
    FiniteInvariant ((StockMarket.openAccount client).exec e).2 [] := by
  have granted : ∀ (symbols : List Symbol) (e : MatchingEngine Double), FiniteInvariant e [] →
      FiniteInvariant (symbols.foldl (fun e symbol => e.grantInitialHoldings client symbol 50) e)
        [] := by
    intro symbols
    induction symbols with
    | nil => exact fun e fin => fin
    | cons symbol symbols ih => exact fun e fin => ih _ (fin.grantInitialHoldings client symbol 50)
  rw [exec_openAccount]
  exact granted _ _ (fin.ensureClient client (by decide +kernel))

/-! #### Commands -/

/-- Calls that submit nothing. -/
theorem run_of_no_submission (calls : List (EngineCall Double))
    (none : ∀ now clock request, .submitOrder now clock request ∉ calls) :
    ∀ {e : MatchingEngine Double}, FiniteInvariant e [] → EngineInvariant e [] →
      FiniteInvariant (e.run calls) [] := by
  induction calls with
  | nil => exact fun fin inv => fin
  | cons call calls ih =>
      intro e fin inv
      have guarded : call.Guarded e := by
        cases call with
        | submitOrder now clock request => exact absurd List.mem_cons_self (none now clock request)
        | _ => trivial
      exact ih (fun now clock request mem => none now clock request (List.mem_cons_of_mem _ mem))
        (fin.apply inv guarded) (inv.apply call)

/-- **A command** whose submission is guarded. -/
theorem command (fin : FiniteInvariant e []) (inv : EngineInvariant e []) (env : Env)
    {command : Command} (guarded : ∀ request, command = .order (.ok request) →
      (EngineCall.submitOrder env.now env.clock request).Guarded e) :
    FiniteInvariant (e.run (command.calls env e)) [] := by
  by_cases submits : ∃ request, command = .order (.ok request)
  · obtain ⟨request, rfl⟩ := submits
    exact fin.apply inv (guarded request rfl)
  · refine run_of_no_submission _ (fun now clock request mem => ?_) fin inv
    unfold Command.calls at mem
    split at mem
    · exact submits ⟨_, rfl⟩
    · split at mem <;> simp at mem
    · simp at mem
    · simp at mem
    · cases mem

end FiniteInvariant

/-- What happens to the server submits no priced order that passes the checks and costs NaN,
an infinity, or half the last step of the finite doubles or more. -/
def ServerCall.Guarded (e : MatchingEngine Double) : ServerCall → Prop
  | .message client line env => ∀ request, readCommand client (split line) = .order (.ok request) →
      (EngineCall.submitOrder env.now env.clock request).Guarded e
  | _ => True

/-- So it is at every step of a run. -/
def GuardedRun : MatchingEngine Double → List ServerCall → Prop
  | _, [] => True
  | e, call :: calls => call.Guarded e ∧ GuardedRun (e.serve call) calls

namespace FiniteInvariant

variable {e : MatchingEngine Double}

theorem serve (fin : FiniteInvariant e []) (inv : EngineInvariant e []) {call : ServerCall}
    (guarded : call.Guarded e) : FiniteInvariant (e.serve call) [] := by
  cases call with
  | openAccount client => exact fin.openAccount client
  | message client line env =>
      rw [MatchingEngine.serve, afterMessage, dispatchCommand, Command.exec_program]
      exact fin.command inv env guarded
  | watcherTick order now clock fullScan => exact fin.apply inv trivial

theorem serveAll (calls : List ServerCall) : ∀ {e : MatchingEngine Double}, FiniteInvariant e [] →
    EngineInvariant e [] → GuardedRun e calls → FiniteInvariant (e.serveAll calls) [] := by
  induction calls with
  | nil => exact fun fin inv guarded => fin
  | cons call calls ih =>
      exact fun fin inv guarded => ih (fin.serve inv guarded.1) (inv.serve call) guarded.2

end FiniteInvariant

/-- Finite positive reference prices and finite balances. -/
def SetupCall.IsFinite : SetupCall Double → Prop
  | .registerSymbol _ initialPrice => initialPrice.IsPositive
  | .ensureClient _ initialCash => initialCash.IsFinite
  | .grantInitialHoldings _ _ _ => True

/-- An engine that was set up with finite prices and balances. -/
theorem FiniteInvariant.setUp (setup : List (SetupCall Double))
    (finite : ∀ call ∈ setup, call.IsFinite) : FiniteInvariant (setUp setup) [] := by
  have all : ∀ (setup : List (SetupCall Double)) (e : MatchingEngine Double),
      (∀ call ∈ setup, call.IsFinite) → FiniteInvariant e [] →
      FiniteInvariant (setup.foldl SetupCall.apply e) [] := by
    intro setup
    induction setup with
    | nil => exact fun e _ fin => fin
    | cons call setup ih =>
        intro e finite fin
        have now := finite call List.mem_cons_self
        refine ih (call.apply e) (fun c mem => finite c (List.mem_cons_of_mem _ mem)) ?_
        cases call with
        | registerSymbol symbol price => exact fin.registerSymbol symbol now
        | ensureClient client cash => exact fin.ensureClient client now
        | grantInitialHoldings client symbol quantity =>
            exact fin.grantInitialHoldings client symbol quantity
  have none : FiniteInvariant ({} : MatchingEngine Double) [] := by
    have idle : Idle ({} : MatchingEngine Double) := idle_setUp []
    refine ⟨.of_idle idle, .of_idle idle, ?_, ?_, ?_⟩
    · intro s p look
      cases look
    · intro c p look
      cases look
    · intro o mem
      rw [idle.openOrders] at mem
      cases mem
  exact all setup {} finite none

/-- **Prices and balances stay finite** on every run of the server in which no priced order
that passes the checks costs NaN, an infinity, or half the last step of the finite doubles or
more. -/
theorem finite_prices_of_guarded (setup : List (SetupCall Double))
    (finite : ∀ call ∈ setup, call.IsFinite) (calls : List ServerCall)
    (guarded : GuardedRun (setUp setup) calls) : FinitePrices ((setUp setup).serveAll calls) :=
  (FiniteInvariant.serveAll calls (.setUp setup finite) (idle_setUp setup).invariant
    guarded).toFinitePrices

/-- The command submits nothing, a MARKET order, or one that costs little. -/
def Command.costsLittle : Command → Bool
  | .order (.ok request) => request.kind = .market ∨
      (request.quantity : Double) * request.price < .finite Double.halfLastStep
  | _ => true

theorem guarded_of_costsLittle {e : MatchingEngine Double} {client : ClientId} {line : String}
    {env : Env} (little : (readCommand client (split line)).costsLittle = true) :
    (ServerCall.message client line env).Guarded e := by
  intro request read admits kind
  rw [read] at little
  exact (of_decide_eq_true little).resolve_left kind

/-- A SELL order at a finite price, and a BUY order that takes it. -/
def sellThenBuy (sell : String) : List ServerCall :=
  [.openAccount 1, .openAccount 2, .message 1 sell quietEnv,
    .message 2 "ORDER BUY AAPL 1 MARKET" quietEnv]

theorem finite_prices_of_guarded_sellThenBuy :
    FinitePrices ((setUp [.registerSymbol "AAPL" 180.0]).serveAll
      (sellThenBuy "ORDER SELL AAPL 1 LIMIT PRICE=190.5")) := by
  refine finite_prices_of_guarded _ (fun call mem => ?_) _ ⟨trivial, trivial, ?_, ?_, trivial⟩
  · rw [List.mem_singleton.mp mem]
    exact (by decide +kernel : (180.0 : Double).IsPositive)
  · exact guarded_of_costsLittle (by decide +kernel)
  · exact guarded_of_costsLittle (by decide +kernel)

/-- The text `nan` makes a price that rests, trades and gets into the balances. -/
theorem nanPrice_not_finite :
    let e := (setUp [.registerSymbol "AAPL" 180.0]).serveAll
      (sellThenBuy "ORDER SELL AAPL 1 LIMIT PRICE=nan")
    (180.0 : Double).IsPositive ∧ e.lastPrices.lookup "AAPL" = some .nan ∧
      (e.portfolios.lookup 1).map Portfolio.cash = some .nan ∧ ¬FinitePrices e := by
  intro e
  have last : e.lastPrices.lookup "AAPL" = some .nan := by decide +kernel
  refine ⟨by decide +kernel, last, by decide +kernel, fun fin => ?_⟩
  obtain ⟨⟨q, eq, -⟩, -⟩ := fin.lastPrices _ _ last
  cases eq

/-- The amount of a trade can overflow, at a price that is finite. -/
theorem hugePrice_not_finite :
    let e := (setUp [.registerSymbol "AAPL" 180.0]).serveAll
      [.openAccount 1, .openAccount 2, .message 1 "ORDER SELL AAPL 10 LIMIT PRICE=1e308" quietEnv,
        .message 2 "ORDER BUY AAPL 10 MARKET" quietEnv]
    (e.portfolios.lookup 1).map Portfolio.cash = some .posInf ∧
      (e.portfolios.lookup 2).map Portfolio.cash = some .negInf := by
  decide +kernel

end StockMarket
