import StockMarket.Engine.Phases
import StockMarket.Engine.Settlement

/-!
The last price of a symbol against the last trade of its book.

A book emits its trades under its own lock, and each thread writes their prices
afterwards, on its own. If two threads have prices of one symbol to write at a time, the
earlier trade's price may be written last and stays (`lastPrice_overwritten`). If no
match trades a symbol while another thread still has a price of that symbol to write,
then whenever nothing is in progress the last price of every symbol is that of the trade
its book emitted last (`lastPrice_of_inTurn`). The invariant is `Noted`: the trades of a
symbol are those whose price is written, and then those that one thread has still to
write.
-/

namespace StockMarket

open Atomic MatchingEngine

variable {P : Type}

/-- The price of the last of some trades, or the reference price if there is none. -/
def lastTradePrice (reference : P) (ts : List (Trade P)) : P :=
  (ts.getLast?.map Trade.price).getD reference

theorem lastTradePrice_append (reference : P) (ts : List (Trade P)) (t : Trade P) :
    lastTradePrice reference (ts ++ [t]) = t.price := by
  rw [lastTradePrice, List.getLast?_append_cons]
  rfl

/-- Each last price is that of the trade which the symbol's book emitted last, or the
reference price of the engine that was set up. -/
def PricesFollow [Zero P] (start e : MatchingEngine P) : Prop :=
  ∀ s, e.lastPrice s = lastTradePrice (start.lastPrice s) (tradesOf s e.emitted)

/-- A match does not trade a symbol while another thread has a price of that symbol to
write. -/
def InTurn (_ : MatchingEngine P) (others : List (Phase P)) (φ φ' : Phase P)
    (_ : MatchingEngine P) : Prop :=
  φ.unpriced = [] → ∀ t ∈ φ'.unpriced, ∀ ψ ∈ others, tradesOf t.symbol ψ.unpriced = []

/-! ### The invariant -/

/-- The trades of a symbol whose prices threads have to write, thread by thread. -/
def unnoted (s : Symbol) (φs : List (Phase P)) : List (List (Trade P)) :=
  (φs.map fun φ => tradesOf s φ.unpriced).filter fun ts => !ts.isEmpty

/-- At most one thread has prices of the symbol to write, and they are those of the last
trades of its book. -/
structure Noted [Zero P] (reference : P) (s : Symbol) (e : MatchingEngine P)
    (φs : List (Phase P)) : Prop where
  single : (unnoted s φs).length ≤ 1
  noted : ∃ written, tradesOf s e.emitted = written ++ (unnoted s φs).flatten ∧
    e.lastPrice s = lastTradePrice reference written

theorem unnoted_cons (s : Symbol) (φ : Phase P) (φs : List (Phase P)) :
    unnoted s (φ :: φs)
      = if tradesOf s φ.unpriced = [] then unnoted s φs
        else tradesOf s φ.unpriced :: unnoted s φs := by
  unfold unnoted
  by_cases none : tradesOf s φ.unpriced = [] <;> simp [none]

/-- Lists of one element at most have one order. -/
theorem unnoted_perm {s : Symbol} {φs φs' : List (Phase P)} (same : φs.Perm φs')
    (single : (unnoted s φs).length ≤ 1) : unnoted s φs' = unnoted s φs := by
  have listed := (same.map fun φ => tradesOf s φ.unpriced).filter fun ts => !ts.isEmpty
  change (unnoted s φs).Perm (unnoted s φs') at listed
  match left : unnoted s φs, single with
  | [], _ =>
      rw [left] at listed
      exact List.nil_perm.mp listed
  | [ts], _ =>
      rw [left] at listed
      exact (List.singleton_perm.mp listed).symm

namespace Noted

section

variable [Zero P] {reference : P} {s : Symbol} {e e' : MatchingEngine P} {φ φ' : Phase P}
  {φs φs' : List (Phase P)}

theorem perm (noted : Noted reference s e φs) (same : φs.Perm φs') :
    Noted reference s e φs' := by
  have listed := unnoted_perm same noted.single
  exact ⟨listed ▸ noted.single, listed ▸ noted.noted⟩

/-- Neither the trades of the symbol nor its last price changed. -/
theorem congr (noted : Noted reference s e (φ :: φs))
    (unpriced : tradesOf s φ'.unpriced = tradesOf s φ.unpriced)
    (emitted : tradesOf s e'.emitted = tradesOf s e.emitted)
    (price : e'.lastPrice s = e.lastPrice s) : Noted reference s e' (φ' :: φs) := by
  have listed : unnoted s (φ' :: φs) = unnoted s (φ :: φs) := by
    rw [unnoted_cons, unnoted_cons, unpriced]
  obtain ⟨written, split, last⟩ := noted.noted
  exact ⟨listed ▸ noted.single, written, by rw [emitted, listed, split], price.trans last⟩

/-- A match of a thread that has no price to write, in its turn. -/
theorem emitted (noted : Noted reference s e (φ :: φs)) {ts : List (Trade P)}
    (none : φ.unpriced = []) (unpriced : φ'.unpriced = ts) (trades : e'.emitted = e.emitted ++ ts)
    (price : e'.lastPrice s = e.lastPrice s) (turn : InTurn e φs φ φ' e') :
    Noted reference s e' (φ' :: φs) := by
  have before : tradesOf s φ.unpriced = [] := by rw [none]; rfl
  have after : tradesOf s e'.emitted = tradesOf s e.emitted ++ tradesOf s ts := by
    rw [trades, tradesOf, List.filter_append]
    rfl
  by_cases own : tradesOf s ts = []
  · refine noted.congr ?_ ?_ price
    · rw [unpriced, own, before]
    · rw [after, own, List.append_nil]
  · have others : unnoted s φs = [] := by
      obtain ⟨t, mem⟩ := List.exists_mem_of_ne_nil _ own
      obtain ⟨listed, here⟩ := List.mem_filter.mp mem
      have here : t.symbol = s := of_decide_eq_true here
      refine List.filter_eq_nil_iff.mpr fun us hus => ?_
      obtain ⟨ψ, hψ, rfl⟩ := List.mem_map.mp hus
      have waits := turn none t (unpriced ▸ listed) ψ hψ
      rw [here] at waits
      simp [waits]
    obtain ⟨written, split, last⟩ := noted.noted
    rw [unnoted_cons, before, if_pos rfl, others] at split
    have listed : unnoted s (φ' :: φs) = [tradesOf s ts] := by
      rw [unnoted_cons, unpriced, if_neg own, others]
    refine ⟨by simp [listed], written, ?_, price.trans last⟩
    rw [after, split, listed]
    simp

end

variable [Zero P] [LT P] [DecidableLT P] [LE P] [DecidableLE P] {reference : P} {s : Symbol}
  {e e' : MatchingEngine P} {φ φ' : Phase P} {φs : List (Phase P)}

omit [LT P] [DecidableLT P] [LE P] [DecidableLE P] in
/-- The price of the first trade that is not noted is written. -/
theorem priced {t : Trade P} {ts : List (Trade P)} (noted : Noted reference s e (φ :: φs))
    (before : φ.unpriced = t :: ts) (after : φ'.unpriced = ts) :
    Noted reference s (setLastPrice t.symbol t.price e) (φ' :: φs) := by
  by_cases here : t.symbol = s
  · subst here
    have own : tradesOf t.symbol φ.unpriced = t :: tradesOf t.symbol ts := by
      rw [before, tradesOf, List.filter_cons_of_pos (by simp)]
      rfl
    have listed : unnoted t.symbol (φ :: φs) = (t :: tradesOf t.symbol ts) ::
        unnoted t.symbol φs := by
      rw [unnoted_cons, own, if_neg (by simp)]
    have single := noted.single
    rw [listed, List.length_cons] at single
    have others : unnoted t.symbol φs = [] := List.length_eq_zero_iff.mp (by omega)
    obtain ⟨written, split, -⟩ := noted.noted
    rw [listed, others] at split
    have left : (unnoted t.symbol (φ' :: φs)).length ≤ 1 ∧
        (unnoted t.symbol (φ' :: φs)).flatten = tradesOf t.symbol ts := by
      rw [unnoted_cons, after, others]
      by_cases rest : tradesOf t.symbol ts = [] <;> simp [rest]
    refine ⟨left.1, written ++ [t], ?_, ?_⟩
    · change tradesOf t.symbol e.emitted = _
      rw [split, left.2]
      simp
    · have look : (setLastPrice t.symbol t.price e).lastPrices.lookup t.symbol = some t.price :=
        AList.lookup_insert _
      rw [lastTradePrice_append, lastPrice, look, Option.getD_some]
  · refine noted.congr ?_ rfl ?_
    · rw [before, after, tradesOf, tradesOf, List.filter_cons_of_neg (by simp [here])]
    · have look : (setLastPrice t.symbol t.price e).lastPrices.lookup s = e.lastPrices.lookup s :=
        AList.lookup_insert_ne (Ne.symm here)
      rw [lastPrice, look, lastPrice]

/-- **Every move in turn keeps it.** -/
theorem move (noted : Noted reference s e (φ :: φs)) (moves : Move φ e φ' e')
    (turn : InTurn e φs φ φ' e') : Noted reference s e' (φ' :: φs) := by
  cases moves with
  | quiet φ same =>
      refine noted.congr rfl (congrArg _ same.emitted) ?_
      rw [lastPrice, same.lastPrices, lastPrice]
  | matchNew clock o => exact noted.emitted rfl rfl rfl rfl turn
  | matchReleased clock o later => exact noted.emitted rfl rfl rfl rfl turn
  | price t released ts => exact noted.priced rfl rfl
  | _ => exact noted.congr rfl rfl rfl

end Noted

/-! ### Runs -/

section

variable [Zero P] [Add P] [Sub P] [Mul P] [IntCast P] [LT P] [DecidableLT P] [LE P] [DecidableLE P]
  [OfScientific P]

/-- **If the matches of a symbol wait for the prices of its earlier trades**, then whenever
nothing is in progress every last price is that of the last trade. -/
theorem lastPrice_of_inTurn (setup : List (SetupCall P)) (threads : List (List (EngineCall P)))
    {e : MatchingEngine P} {threads' : List (Prog (MatchingEngine P) Unit × Phase P)}
    (run : EngineRun InTurn (setUp setup, startThreads threads) (e, threads'))
    (rest : ∀ φ ∈ phases threads', φ = .idle) : PricesFollow (setUp setup) e := by
  intro s
  have none : ∀ φs : List (Phase P), (∀ φ ∈ φs, φ = .idle) → unnoted s φs = [] := by
    intro φs idle
    refine List.filter_eq_nil_iff.mpr fun ts mem => ?_
    obtain ⟨φ, hφ, rfl⟩ := List.mem_map.mp mem
    rw [idle φ hφ]
    simp [Phase.unpriced, tradesOf]
  have start : Noted ((setUp setup).lastPrice s) s (setUp setup)
      (phases (startThreads threads)) := by
    have started := none (phases (startThreads threads)) phases_startThreads
    refine ⟨by simp [started], [], ?_, rfl⟩
    rw [started, (idle_setUp setup).emitted]
    rfl
  have noted := run.keep (fun _ _ _ same noted => noted.perm same)
    (fun _ _ _ _ _ moves turn noted => noted.move moves turn) start
  obtain ⟨written, split, last⟩ := noted.noted
  rw [none _ rest, List.flatten_nil, List.append_nil] at split
  rw [last, split]

end

/-- The seller offers shares at two prices. -/
def twoOffers : List (EngineCall ℚ) :=
  [.submitOrder 0 (fun _ => 0) (request 2 .sell .limit "AAPL" 4 90),
    .submitOrder 0 (fun _ => 0) (request 2 .sell .limit "AAPL" 4 95)]

/-- The buyer takes shares up to a price. -/
def buysUpTo (price : ℚ) : List (EngineCall ℚ) :=
  [.submitOrder 0 (fun _ => 0) (request 1 .buy .limit "AAPL" 4 price)]

theorem lastPrice_of_inTurn_oneAfterTheOther : ∃ e threads',
    EngineRun InTurn (setUp buyerAndSeller, startThreads [twoOffers ++ buysUpTo 90, buysUpTo 95])
      (e, threads') ∧
      (∀ φ ∈ phases threads', φ = .idle) ∧ e.emitted.map Trade.price = [90, 95] ∧
      PricesFollow (setUp buyerAndSeller) e := by
  have keep : ∀ (e : MatchingEngine ℚ) (φ φ' : Phase ℚ) (e' : MatchingEngine ℚ), Move φ e φ' e' →
      True → InTurn e [.idle] φ φ' e' ∧ True := by
    refine fun e φ φ' e' _ _ => ⟨fun _ t _ ψ mem => ?_, trivial⟩
    rw [List.mem_singleton.mp mem]
    rfl
  obtain ⟨φ, rfl, first⟩ := (performs_threadProgram (twoOffers ++ buysUpTo 90)).run_among []
    [(threadProgram (buysUpTo 95), .idle)] keep (s := setUp buyerAndSeller) trivial
  obtain ⟨φ, rfl, second⟩ := (performs_threadProgram (buysUpTo 95)).run_among
    [(.ret (), .idle)] [] keep
    (s := ((threadProgram (twoOffers ++ buysUpTo 90)).exec (setUp buyerAndSeller)).2) trivial
  have run : EngineRun InTurn
      (setUp buyerAndSeller, startThreads [twoOffers ++ buysUpTo 90, buysUpTo 95])
      (_, [(.ret (), .idle), (.ret (), .idle)]) := first.trans second
  have rest : ∀ φ ∈ phases [((.ret (), .idle) : Prog (MatchingEngine ℚ) Unit × Phase ℚ),
      (.ret (), .idle)], φ = .idle := by
    simp [phases]
  exact ⟨_, _, run, rest, by decide +kernel,
    lastPrice_of_inTurn buyerAndSeller [twoOffers ++ buysUpTo 90, buysUpTo 95] run rest⟩

/-- A submission of an order for the symbol, or a release pass. -/
def EngineCall.TradesOnly (s : Symbol) : EngineCall P → Prop
  | .submitOrder _ _ request => request.symbol = s
  | .tryReleaseWaitingOrders _ _ _ _ => True
  | _ => False

/-- The first buyer's thread stops between its match and the price; the second trade is
made and its price written; then the price of the first trade is written over it. -/
theorem lastPrice_overwritten : ¬∀ (setup : List (SetupCall ℚ)) (s : Symbol)
    (threads : List (List (EngineCall ℚ))),
    (∀ calls ∈ threads, ∀ call ∈ calls, call.TradesOnly s) →
    ∀ e ps, Interleaves (setUp setup, threads.map threadProgram) (e, ps) → Finished ps →
      e.lastPrice s = lastTradePrice ((setUp setup).lastPrice s) (tradesOf s e.emitted) := by
  intro claim
  set first := threadProgram (twoOffers ++ buysUpTo 90)
  set second := threadProgram (buysUpTo 95)
  have stopped := interleaves_advance [] [second] 26 first (setUp buyerAndSeller)
  set middle := first.advance 26 (setUp buyerAndSeller)
  have between := interleaves_exec [middle.1] [] second middle.2
  have rest := interleaves_exec [] [.ret (second.exec middle.2).1] middle.1 (second.exec middle.2).2
  have follows := claim buyerAndSeller "AAPL" [twoOffers ++ buysUpTo 90, buysUpTo 95]
    (by simp [twoOffers, buysUpTo, EngineCall.TradesOnly, request]) _ _
    ((stopped.trans between).trans rest) (by simp [Finished])
  exact absurd follows (by decide +kernel)

end StockMarket
