import StockMarket.MatchingEngine

/-!
Bookkeeping of trades over all methods of the engine.

Between a match and the end of its settlement, trades are on their way in one thread. A
`TradeLedger` is a ledger that a match takes some due amount from and the loop over its
trades pays it back to, and that no other action touches. Then every method owes the ledger
nothing (`TradeLedger.threadProgram`), and the ledger rule speaks of any number of threads.
-/

namespace StockMarket

open Atomic MatchingEngine

variable {P : Type}

/-- The trade in an event. -/
def Event.trade? : Event P → Option (Trade P)
  | .trade t => some t
  | _ => none

namespace MatchingEngine

/-- The trades that were handed to the bus, in that order. -/
def publishedTrades (e : MatchingEngine P) : List (Trade P) :=
  e.published.filterMap Event.trade?

/-- Neither portfolios nor trades differ. -/
structure SameTrades (e e' : MatchingEngine P) : Prop where
  portfolios : e'.portfolios = e.portfolios
  emitted : e'.emitted = e.emitted
  published : e'.publishedTrades = e.publishedTrades

theorem sameTrades_publish {event : Event P} (other : event.trade? = none)
    (e : MatchingEngine P) : SameTrades e (publish event e) := by
  refine ⟨rfl, rfl, ?_⟩
  unfold publishedTrades publish
  simp [List.filterMap_append, other]

end MatchingEngine

section

variable {T G : Type} [AddCommGroup G] [Zero P] [Add P] [Sub P] [Mul P] [IntCast P] [LT P]
  [DecidableLT P]

/-- A ledger of trades, and a quantity that no action changes. -/
structure TradeLedger (fixed : MatchingEngine P → T) (ledger : MatchingEngine P → G)
    (due : List (Trade P) → G) : Prop where
  looks : ∀ e e', SameTrades e e' → fixed e' = fixed e ∧ ledger e' = ledger e
  matched : ∀ clock o e, fixed (matchBook clock o e).2 = fixed e ∧
    ledger (matchBook clock o e).2 + due (matchBook clock o e).1 = ledger e
  settled : ∀ trades, Owes fixed ledger (settleTrades trades) (due trades)

namespace TradeLedger

variable {fixed : MatchingEngine P → T} {ledger : MatchingEngine P → G}
  {due : List (Trade P) → G} {α : Type}

/-- An action that keeps portfolios and trades, before anything else. -/
theorem act {β : Type} (book : TradeLedger fixed ledger due)
    {action : MatchingEngine P → β × MatchingEngine P} {p : β → Prog (MatchingEngine P) α} {d : G}
    (same : ∀ e, SameTrades e (action e).2) (rest : ∀ b, Owes fixed ledger (p b) d) :
    Owes fixed ledger (Prog.act action p) d :=
  Owes.act_of_eq (fun e => (book.looks e _ (same e)).1) (fun e => (book.looks e _ (same e)).2)
    fun _ => rest _

theorem step (book : TradeLedger fixed ledger due)
    {action : MatchingEngine P → α × MatchingEngine P} (same : ∀ e, SameTrades e (action e).2) :
    Owes fixed ledger (Prog.step action) 0 :=
  book.act same fun _ => rfl

theorem modify (book : TradeLedger fixed ledger due) {f : MatchingEngine P → MatchingEngine P}
    (same : ∀ e, SameTrades e (f e)) : Owes fixed ledger (Prog.modify f) 0 :=
  book.step same

theorem read (book : TradeLedger fixed ledger due) (f : MatchingEngine P → α) :
    Owes fixed ledger (Prog.read f) 0 :=
  book.step fun _ => ⟨rfl, rfl, rfl⟩

omit [Zero P] [Add P] [Sub P] [Mul P] [IntCast P] [LT P] [DecidableLT P] in
theorem pure (a : α) : Owes fixed ledger (Pure.pure a : Prog (MatchingEngine P) α) 0 := rfl

theorem count (book : TradeLedger fixed ledger due) (f : Metrics → Metrics) :
    Owes fixed ledger (Prog.modify (MatchingEngine.count f)) 0 :=
  book.modify fun _ => ⟨rfl, rfl, rfl⟩

/-- Other events than trades. -/
theorem publish (book : TradeLedger fixed ledger due) {event : Event P}
    (other : event.trade? = none) :
    Owes fixed ledger (Prog.modify (MatchingEngine.publish event)) 0 :=
  book.modify (sameTrades_publish other)

theorem matchAndSettle (book : TradeLedger fixed ledger due) (clock : Nat → Int)
    (order : Order P) : Owes fixed ledger (MatchingEngine.matchAndSettle clock order) 0 := by
  intro e
  obtain ⟨kept, moved⟩ := book.matched clock order e
  refine ⟨kept, due (matchBook clock order e).1, by rw [moved, add_zero], ?_⟩
  refine book.act (fun _ => ⟨rfl, rfl, rfl⟩) fun _ => ?_
  refine book.act (sameTrades_publish rfl) fun _ => ?_
  refine (book.settled _).bind fun _ => ?_
  refine (book.count _).bind fun _ => ?_
  refine (book.count _).bind fun _ => ?_
  exact pure _

theorem releaseAll (book : TradeLedger fixed ledger due) (clock : Nat → Nat → Int) :
    ∀ (n : Nat) (orders : List (Order P)),
      Owes fixed ledger (MatchingEngine.releaseAll clock n orders) 0
  | _, [] => pure []
  | n, order :: orders => by
      refine (book.matchAndSettle (clock n) order).bind fun result => ?_
      refine (book.releaseAll clock (n + 1) orders).bind fun results => ?_
      exact pure (result :: results)

theorem reportExpired (book : TradeLedger fixed ledger due) :
    ∀ orders : List (Order P), Owes fixed ledger (MatchingEngine.reportExpired orders) 0
  | [] => pure ()
  | _ :: orders => by
      refine (book.count _).bind fun _ => ?_
      refine (book.publish rfl).bind fun _ => ?_
      exact book.reportExpired orders

theorem reject (book : TradeLedger fixed ledger due) (id : Nat) (client : ClientId)
    (reason : String) : Owes fixed ledger (MatchingEngine.reject id client reason) 0 := by
  refine (book.count _).bind fun _ => ?_
  refine (book.publish rfl).bind fun _ => ?_
  exact pure _

variable [LE P] [DecidableLE P]

theorem scanSymbolsStep (book : TradeLedger fixed ledger due)
    (order : Symbol → IterationOrder Nat (Order P)) (now : Int) :
    ∀ (symbols : List Symbol) (result : ScanResult P),
      Owes fixed ledger (MatchingEngine.scanSymbolsStep order now symbols result) 0
  | [], result => pure result
  | _ :: symbols, _ =>
      (book.step fun _ => ⟨rfl, rfl, rfl⟩).bind fun result =>
        book.scanSymbolsStep order now symbols result

variable [OfScientific P]

theorem submitOrder (book : TradeLedger fixed ledger due) (now : Int) (clock : Nat → Int)
    (request : OrderRequest P) :
    Owes fixed ledger (MatchingEngine.submitOrder now clock request) 0 := by
  refine (book.count _).bind fun _ => ?_
  refine (book.step fun _ => ⟨rfl, rfl, rfl⟩).bind fun id => ?_
  refine (book.read _).bind fun reason => ?_
  cases reason with
  | some reason => exact book.reject id request.client reason
  | none =>
      refine (book.read _).bind fun passes => ?_
      split
      · exact book.reject id request.client _
      · refine (book.read _).bind fun referencePrice => ?_
        split
        · exact book.matchAndSettle clock _
        · refine (book.count _).bind fun _ => ?_
          refine (book.modify (f := enqueue _) fun _ => ⟨rfl, rfl, rfl⟩).bind fun _ => ?_
          refine (book.publish rfl).bind fun _ => ?_
          exact pure _

omit [OfScientific P] in
theorem tryReleaseWaitingOrders (book : TradeLedger fixed ledger due) (order : ReleaseOrder P)
    (now : Int) (clock : Nat → Nat → Int) (fullScan : Bool) :
    Owes fixed ledger
      (MatchingEngine.tryReleaseWaitingOrders order now clock fullScan) 0 := by
  have symbols : Owes fixed ledger (symbolsToScan order fullScan) 0 := by
    unfold symbolsToScan
    split
    · exact book.read _
    · exact book.step fun _ => ⟨rfl, rfl, rfl⟩
  refine symbols.bind fun symbols => ?_
  refine (book.scanSymbolsStep order.bucket now symbols {}).bind fun scan => ?_
  refine (book.releaseAll clock 0 scan.released).bind fun released => ?_
  refine (book.reportExpired scan.expired).bind fun _ => ?_
  exact pure _

theorem program (book : TradeLedger fixed ledger due) (call : EngineCall P) :
    Owes fixed ledger call.program 0 := by
  cases call with
  | submitOrder now clock request =>
      exact (book.submitOrder now clock request).bind fun _ => pure ()
  | tryReleaseWaitingOrders order now clock fullScan =>
      exact (book.tryReleaseWaitingOrders order now clock fullScan).bind fun _ => pure ()
  | cancelOrderAt symbol side price orderId =>
      refine Owes.bind ?_ fun _ => pure ()
      refine (book.read _).bind fun known => ?_
      split
      · exact book.step fun _ => ⟨rfl, rfl, rfl⟩
      · exact pure false
  | cancelOrder symbol orderId =>
      refine Owes.bind ?_ fun _ => pure ()
      refine (book.read _).bind fun known => ?_
      split
      · exact book.step fun _ => ⟨rfl, rfl, rfl⟩
      · exact pure false
  | cancelWaitingOrder orderId =>
      exact (book.step fun _ => ⟨rfl, rfl, rfl⟩).bind fun _ => pure ()

/-- **A thread that only makes calls owes nothing**, before the first of them and after the
last. -/
theorem threadProgram (book : TradeLedger fixed ledger due) :
    ∀ calls : List (EngineCall P), Owes fixed ledger (StockMarket.threadProgram calls) 0
  | [] => pure ()
  | call :: calls => (book.program call).bind fun _ => book.threadProgram calls

end TradeLedger

end

end StockMarket
