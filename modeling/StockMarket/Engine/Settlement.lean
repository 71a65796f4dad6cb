import StockMarket.Engine.Ledger
import Mathlib.Algebra.Group.Pi.Lemmas
import Mathlib.Algebra.Group.Prod
import Mathlib.Algebra.Order.Ring.Rat
import Mathlib.Tactic.Abel

/-!
Settlement under every interleaving, with exact cash.

What a client owns is one element of the group `Assets`: the cash, and for each
symbol a number of shares. A trade moves assets from one client to the other, so
`settle` keeps the total (`totalAssets_settle`) and changes each client by the
trade's own amount (`assetsOf_settle`). Between a match and its settlements the
trades are in flight in one thread; that thread then owes their amounts to the
portfolios (`owes_settleTrades`). The ledger rule turns both facts into
statements about any number of threads under any schedule
(`interleaved_settlement`).
-/

namespace StockMarket

open Atomic

/-- Cash, and shares of each symbol. -/
abbrev Assets := ℚ × (Symbol → ℤ)

/-- Shares of one symbol. -/
def sharesOf (symbol : Symbol) (quantity : ℤ) : Assets := (0, Pi.single symbol quantity)

/-- An amount of cash. -/
def cashOf (cash : ℚ) : Assets := (cash, 0)

/-- What a portfolio holds. -/
def Portfolio.assets (p : Portfolio ℚ) : Assets := (p.cash, p.holding)

/-- What the buyer of a trade gets. -/
def Trade.purchase (t : Trade ℚ) : Assets :=
  sharesOf t.symbol t.quantity - cashOf (t.quantity * t.price)

/-- What some trades cost together. -/
def notional (ts : List (Trade ℚ)) : ℚ :=
  (ts.map fun t => (t.quantity : ℚ) * t.price).sum

/-- What a trade changes for a client: one credit if they bought, one debit if
they sold. -/
def Trade.change (t : Trade ℚ) (client : ClientId) : Assets :=
  (if client = t.buyer then t.purchase else 0) - (if client = t.seller then t.purchase else 0)

namespace MatchingEngine

/-- What a client owns. -/
def assetsOf (e : MatchingEngine ℚ) (client : ClientId) : Assets :=
  (e.portfolioSnapshot client).assets

/-- What all portfolios hold together. -/
def totalAssets (e : MatchingEngine ℚ) : Assets :=
  Table.sumBy Portfolio.assets e.portfolios

end MatchingEngine

/-! ### Portfolios -/

@[simp] theorem assets_default : (default : Portfolio ℚ).assets = 0 := by
  refine Prod.ext rfl ?_
  funext s
  rfl

theorem holding_update {P : Type} (p : Portfolio P) (cash : P) (symbol : Symbol) (f : ℤ → ℤ)
    (q : ℤ) (shift : ∀ n, f n = n + q) :
    ({ cash := cash, holdings := Table.update symbol 0 f p.holdings } : Portfolio P).holding
      = p.holding + Pi.single symbol q := by
  funext s
  unfold Portfolio.holding
  by_cases eq : s = symbol
  · subst eq
    simp [shift]
  · simp [Table.lookup_update_ne eq, eq]

theorem assets_debit (p : Portfolio ℚ) (symbol : Symbol) (cash : ℚ) (quantity : ℤ) :
    (MatchingEngine.debit symbol cash quantity p).assets
      = p.assets + (sharesOf symbol quantity - cashOf cash) := by
  refine Prod.ext ?_ ?_
  · simp [MatchingEngine.debit, Portfolio.assets, sharesOf, cashOf, sub_eq_add_neg]
  · have := holding_update p (p.cash - cash) symbol (· + quantity) quantity fun _ => rfl
    simpa [MatchingEngine.debit, Portfolio.assets, sharesOf, cashOf] using this

theorem assets_credit (p : Portfolio ℚ) (symbol : Symbol) (cash : ℚ) (quantity : ℤ) :
    (MatchingEngine.credit symbol cash quantity p).assets
      = p.assets + -(sharesOf symbol quantity - cashOf cash) := by
  refine Prod.ext ?_ ?_
  · simp [MatchingEngine.credit, Portfolio.assets, sharesOf, cashOf]
  · have := holding_update p (p.cash + cash) symbol (· - quantity) (-quantity)
      fun n => sub_eq_add_neg n quantity
    simpa [MatchingEngine.credit, Portfolio.assets, sharesOf, cashOf, Pi.single_neg] using this

/-- What a client owns according to a table of portfolios. -/
def assetsIn (portfolios : Table ClientId (Portfolio ℚ)) (client : ClientId) : Assets :=
  ((portfolios.lookup client).getD default).assets

section

variable {k : ClientId} {f : Portfolio ℚ → Portfolio ℚ} {δ : Assets}

/-- The assets of every client after `m[k] = f(m[k])`. -/
theorem assetsIn_update (shift : ∀ p, (f p).assets = p.assets + δ)
    (portfolios : Table ClientId (Portfolio ℚ)) (c : ClientId) :
    assetsIn (Table.update k default f portfolios) c
      = assetsIn portfolios c + if c = k then δ else 0 := by
  unfold assetsIn
  by_cases eq : c = k
  · subst eq
    rw [Table.lookup_update, Option.getD_some, shift, if_pos rfl]
  · rw [Table.lookup_update_ne eq, if_neg eq, add_zero]

/-- The total after `m[k] = f(m[k])`. -/
theorem sumBy_assets_update (shift : ∀ p, (f p).assets = p.assets + δ)
    (portfolios : Table ClientId (Portfolio ℚ)) :
    Table.sumBy Portfolio.assets (Table.update k default f portfolios)
      = Table.sumBy Portfolio.assets portfolios + δ :=
  Table.sumBy_update_add Portfolio.assets k assets_default shift portfolios

end

namespace MatchingEngine

/-! ### One settlement -/

/-- A settlement changes each client by the trade's own amount. -/
theorem assetsOf_settle (t : Trade ℚ) (e : MatchingEngine ℚ) (c : ClientId) :
    assetsOf (settle t e) c = assetsOf e c + t.change c := by
  change assetsIn (settle t e).portfolios c = assetsIn e.portfolios c + t.change c
  unfold settle
  rw [assetsIn_update fun p => assets_credit p _ _ _, assetsIn_update fun p => assets_debit p _ _ _]
  unfold Trade.change Trade.purchase
  split <;> split <;> abel

/-- A settlement creates and destroys nothing. -/
theorem totalAssets_settle (t : Trade ℚ) (e : MatchingEngine ℚ) :
    totalAssets (settle t e) = totalAssets e := by
  unfold totalAssets settle
  rw [sumBy_assets_update fun p => assets_credit p _ _ _,
    sumBy_assets_update fun p => assets_debit p _ _ _]
  abel

/-! ### What the methods owe -/

/-- What the emitted trades do not account for: the assets of each client less the
amounts of every emitted trade. -/
def unexplained (e : MatchingEngine ℚ) (client : ClientId) : Assets :=
  e.assetsOf client - (e.emitted.map fun t => t.change client).sum

/-- What a thread owes that has still to settle some trades. -/
def inFlight (trades : List (Trade ℚ)) (client : ClientId) : Assets :=
  (trades.map fun t => t.change client).sum

/-- A method that changes no total, and owes the portfolios some assets. -/
abbrev OwesAssets {α : Type} (p : Prog (MatchingEngine ℚ) α) (d : ClientId → Assets) : Prop :=
  Owes totalAssets unexplained p d

section

variable {e e' : MatchingEngine ℚ}

theorem totalAssets_congr (portfolios : e'.portfolios = e.portfolios) :
    totalAssets e' = totalAssets e := by
  unfold totalAssets
  rw [portfolios]

theorem unexplained_congr (portfolios : e'.portfolios = e.portfolios)
    (emitted : e'.emitted = e.emitted) : unexplained e' = unexplained e := by
  funext c
  unfold unexplained assetsOf portfolioSnapshot
  rw [portfolios, emitted]

end

theorem unexplained_settle (t : Trade ℚ) (ts : List (Trade ℚ)) (e : MatchingEngine ℚ) :
    unexplained (settle t e) + inFlight ts = unexplained e + inFlight (t :: ts) := by
  funext c
  simp only [Pi.add_apply, unexplained, inFlight, assetsOf_settle, List.map_cons, List.sum_cons]
  change _ - (e.emitted.map _).sum + _ = _
  abel

theorem unexplained_matchBook (clock : Nat → Int) (order : Order ℚ) (e : MatchingEngine ℚ) :
    unexplained (matchBook clock order e).2 + inFlight (matchBook clock order e).1
      = unexplained e := by
  funext c
  simp only [Pi.add_apply, unexplained, inFlight, matchBook, List.map_append, List.sum_append]
  change e.assetsOf c - _ + _ = _
  abel

/-- The loop over the trades of a match owes what they move. -/
theorem owes_settleTrades : ∀ trades : List (Trade ℚ),
    OwesAssets (settleTrades trades) (inFlight trades)
  | [] => rfl
  | t :: ts => by
      intro e
      refine ⟨totalAssets_settle t e, inFlight ts, unexplained_settle t ts e, ?_⟩
      refine Owes.act_of_eq (fun _ => rfl) (fun _ => rfl) fun _ => ?_
      refine Owes.act_of_eq (fun _ => rfl) (fun _ => rfl) fun _ => ?_
      refine Owes.act_of_eq (fun _ => rfl) (fun _ => rfl) fun _ => ?_
      exact owes_settleTrades ts

/-- Methods change no total, and in the end owe the clients nothing. -/
theorem assetsLedger : TradeLedger totalAssets unexplained inFlight where
  looks _ _ same := ⟨totalAssets_congr same.portfolios,
    unexplained_congr same.portfolios same.emitted⟩
  matched clock order e := ⟨rfl, unexplained_matchBook clock order e⟩
  settled := owes_settleTrades

end MatchingEngine

/-! ### Setting up -/

/-- What a setting-up call gives out, and to whom: `ensure_client` gives its cash
to a new client only. -/
def SetupCall.gives (e : MatchingEngine ℚ) : SetupCall ℚ → List (ClientId × Assets)
  | .registerSymbol _ _ => []
  | .ensureClient client cash => if client ∈ e.portfolios then [] else [(client, cashOf cash)]
  | .grantInitialHoldings client symbol quantity => [(client, sharesOf symbol quantity)]

/-- Everything that setting-up calls give out from a given engine on. -/
def injectionsFrom : MatchingEngine ℚ → List (SetupCall ℚ) → List (ClientId × Assets)
  | _, [] => []
  | e, call :: calls => call.gives e ++ injectionsFrom (call.apply e) calls

/-- Everything that setting-up calls give out. -/
def injections (calls : List (SetupCall ℚ)) : List (ClientId × Assets) :=
  injectionsFrom {} calls

/-- What one client was given. -/
def givenTo (client : ClientId) (gifts : List (ClientId × Assets)) : Assets :=
  ((gifts.filter fun g => g.1 = client).map Prod.snd).sum

/-- What was given out altogether. -/
def givenOut (gifts : List (ClientId × Assets)) : Assets :=
  (gifts.map Prod.snd).sum

theorem givenTo_append (client : ClientId) (gifts gifts' : List (ClientId × Assets)) :
    givenTo client (gifts ++ gifts') = givenTo client gifts + givenTo client gifts' := by
  simp [givenTo]

theorem givenOut_append (gifts gifts' : List (ClientId × Assets)) :
    givenOut (gifts ++ gifts') = givenOut gifts + givenOut gifts' := by
  simp [givenOut]

theorem givenOut_singleton (c : ClientId) (assets : Assets) :
    givenOut [(c, assets)] = assets := by
  simp [givenOut]

theorem givenTo_singleton (client c : ClientId) (assets : Assets) :
    givenTo client [(c, assets)] = if client = c then assets else 0 := by
  by_cases eq : client = c
  · simp [givenTo, eq]
  · simp [givenTo, eq, Ne.symm eq]

namespace MatchingEngine

theorem assets_grant (p : Portfolio ℚ) (symbol : Symbol) (quantity : ℤ) :
    ({ p with holdings := Table.update symbol 0 (· + quantity) p.holdings } : Portfolio ℚ).assets
      = p.assets + sharesOf symbol quantity := by
  refine Prod.ext ?_ ?_
  · simp [Portfolio.assets, sharesOf]
  · exact holding_update p p.cash symbol (· + quantity) quantity fun _ => rfl

/-- The assets of every client after `try_emplace`. -/
theorem assetsIn_tryEmplace (k : ClientId) (p : Portfolio ℚ)
    (portfolios : Table ClientId (Portfolio ℚ)) (c : ClientId) :
    assetsIn (Table.tryEmplace k p portfolios) c
      = assetsIn portfolios c + if c = k ∧ k ∉ portfolios then p.assets else 0 := by
  unfold assetsIn Table.tryEmplace
  by_cases known : k ∈ portfolios
  · simp [known]
  · rw [if_neg known]
    by_cases eq : c = k
    · subst eq
      rw [AList.lookup_insert, AList.lookup_eq_none.mpr known, if_pos ⟨rfl, known⟩,
        Option.getD_some, Option.getD_none, assets_default, zero_add]
    · rw [AList.lookup_insert_ne eq, if_neg fun h => eq h.1, add_zero]

/-- The total after `try_emplace`. -/
theorem sumBy_assets_tryEmplace (k : ClientId) (p : Portfolio ℚ)
    (portfolios : Table ClientId (Portfolio ℚ)) :
    Table.sumBy Portfolio.assets (Table.tryEmplace k p portfolios)
      = Table.sumBy Portfolio.assets portfolios + if k ∈ portfolios then 0 else p.assets := by
  unfold Table.tryEmplace
  by_cases known : k ∈ portfolios
  · rw [if_pos known, if_pos known, add_zero]
  · rw [if_neg known, if_neg known, Table.sumBy_insert_of_notMem _ _ known]

/-- One setting-up call gives out what it says. -/
theorem apply_gives (e : MatchingEngine ℚ) (call : SetupCall ℚ) :
    (∀ c, (call.apply e).assetsOf c = e.assetsOf c + givenTo c (call.gives e)) ∧
      (call.apply e).totalAssets = e.totalAssets + givenOut (call.gives e) ∧
      (call.apply e).emitted = e.emitted := by
  cases call with
  | registerSymbol symbol price =>
      exact ⟨fun c => (add_zero _).symm, (add_zero _).symm, rfl⟩
  | ensureClient client cash =>
      refine ⟨fun c => ?_, ?_, rfl⟩
      · refine (assetsIn_tryEmplace client _ e.portfolios c).trans ?_
        rw [SetupCall.gives]
        by_cases known : client ∈ e.portfolios
        · rw [if_pos known, if_neg fun h => h.2 known]
          rfl
        · rw [if_neg known, givenTo_singleton]
          exact congrArg _ (if_congr (and_iff_left known) rfl rfl)
      · refine (sumBy_assets_tryEmplace client _ e.portfolios).trans ?_
        rw [SetupCall.gives]
        by_cases known : client ∈ e.portfolios
        · rw [if_pos known, if_pos known]
          rfl
        · rw [if_neg known, if_neg known, givenOut_singleton]
          rfl
  | grantInitialHoldings client symbol quantity =>
      refine ⟨fun c => ?_, ?_, rfl⟩
      · rw [SetupCall.gives, givenTo_singleton]
        exact assetsIn_update (fun p => assets_grant p symbol quantity) e.portfolios c
      · rw [SetupCall.gives, givenOut_singleton]
        exact sumBy_assets_update (fun p => assets_grant p symbol quantity) e.portfolios

theorem foldl_gives : ∀ (calls : List (SetupCall ℚ)) (e : MatchingEngine ℚ),
    (∀ c, (calls.foldl SetupCall.apply e).assetsOf c
        = e.assetsOf c + givenTo c (injectionsFrom e calls)) ∧
      (calls.foldl SetupCall.apply e).totalAssets
        = e.totalAssets + givenOut (injectionsFrom e calls) ∧
      (calls.foldl SetupCall.apply e).emitted = e.emitted
  | [], e => ⟨fun c => (add_zero _).symm, (add_zero _).symm, rfl⟩
  | call :: calls, e => by
      obtain ⟨each, total, emitted⟩ := apply_gives e call
      obtain ⟨each', total', emitted'⟩ := foldl_gives calls (call.apply e)
      refine ⟨fun c => ?_, ?_, emitted'.trans emitted⟩
      · rw [List.foldl_cons, each', each, injectionsFrom, givenTo_append, add_assoc]
      · rw [List.foldl_cons, total', total, injectionsFrom, givenOut_append, add_assoc]

/-- The set-up engine holds what was given out. -/
theorem setUp_gives (calls : List (SetupCall ℚ)) :
    (∀ c, (setUp calls).assetsOf c = givenTo c (injections calls)) ∧
      (setUp calls).totalAssets = givenOut (injections calls) ∧ (setUp calls).emitted = [] := by
  obtain ⟨each, total, emitted⟩ := foldl_gives calls {}
  refine ⟨fun c => ?_, ?_, emitted⟩
  · rw [setUp, each]
    exact (congrArg (· + _) assets_default).trans (zero_add _)
  · rw [setUp, total]
    exact zero_add _

end MatchingEngine

/-! ### Any number of threads -/

open MatchingEngine

/-- **Exact settlement under every interleaving.** Threads run calls of the engine
after any set-up. At every moment all portfolios together hold what the set-up
gave out; and once every thread has finished, each client owns what they were
given and the amounts of the emitted trades they took part in, each once. -/
theorem interleaved_settlement (setup : List (SetupCall ℚ)) (threads : List (List (EngineCall ℚ)))
    (e : MatchingEngine ℚ) (rest : List (Prog (MatchingEngine ℚ) Unit))
    (run : Interleaves (setUp setup, threads.map threadProgram) (e, rest)) :
    e.totalAssets = givenOut (injections setup) ∧
      (Finished rest → ∀ client, e.assetsOf client
        = givenTo client (injections setup) + (e.emitted.map fun t => t.change client).sum) := by
  obtain ⟨each, total, emitted⟩ := setUp_gives setup
  have owe : ∀ p ∈ threads.map threadProgram, OwesAssets p 0 := by
    intro p hp
    obtain ⟨calls, -, rfl⟩ := List.mem_map.mp hp
    exact assetsLedger.threadProgram calls
  obtain ⟨kept, settled⟩ := interleaves_conserve run owe
  refine ⟨kept.trans total, fun finished client => ?_⟩
  have mine := congrFun (settled finished) client
  unfold unexplained at mine
  rw [emitted, each, List.map_nil, List.sum_nil, sub_zero] at mine
  exact sub_eq_iff_eq_add.mp mine

/-- A submission with no trigger and no dates. -/
def request {P : Type} (client : ClientId) (side : Side) (kind : OrderKind) (symbol : Symbol)
    (quantity : Int) (price : P) : OrderRequest P where
  client := client
  side := side
  kind := kind
  symbol := symbol
  quantity := quantity
  price := price
  triggerLower := none
  triggerUpper := none
  expiresIn := none
  notBeforeIn := none

/-- A client with cash and one with shares. -/
def buyerAndSeller : List (SetupCall ℚ) :=
  [.registerSymbol "AAPL" 100, .ensureClient 1 1000, .ensureClient 2 0,
    .grantInitialHoldings 2 "AAPL" 10]

/-- Each of the two submits one order, and the orders cross. -/
def crossingThreads : List (List (EngineCall ℚ)) :=
  [[.submitOrder 0 (fun _ => 0) (request 1 .buy .limit "AAPL" 5 100)],
    [.submitOrder 0 (fun _ => 0) (request 2 .sell .limit "AAPL" 5 90)]]

theorem interleaved_settlement_crossing : ∃ e rest,
    Interleaves (setUp buyerAndSeller, crossingThreads.map threadProgram) (e, rest) ∧
      Finished rest ∧ e.emitted.length = 1 ∧
      e.totalAssets = givenOut (injections buyerAndSeller) ∧
      ∀ client, e.assetsOf client = givenTo client (injections buyerAndSeller)
        + (e.emitted.map fun t => t.change client).sum := by
  have run := (interleaves_exec [] [threadProgram crossingThreads[1]]
    (threadProgram crossingThreads[0]) (setUp buyerAndSeller)).trans (interleaves_exec
      [.ret ()] [] (threadProgram crossingThreads[1])
      ((threadProgram crossingThreads[0]).exec (setUp buyerAndSeller)).2)
  have finished : Finished ([.ret ()] ++ [.ret ()] : List (Prog (MatchingEngine ℚ) Unit)) := by
    intro p mem
    rcases List.mem_cons.mp mem with rfl | mem
    · exact ⟨(), rfl⟩
    · exact ⟨(), List.mem_singleton.mp mem⟩
  have settled := interleaved_settlement buyerAndSeller crossingThreads _ _ run
  exact ⟨_, _, run, finished, by decide +kernel, settled.1, settled.2 finished⟩

end StockMarket
