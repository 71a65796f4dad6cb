import StockMarket.Engine.Threads
import StockMarket.Engine.ReleaseScan

/-!
Triggers under concurrency.

A submission reads the last price and, if that does not let its order in, adds the order
to the registry in a second step. A trade in between that takes the price into the
order's band marks the symbol before the order waits there; once that mark is drained,
no dirty-only scan looks at the order any more (`trigger_lost`). Apart from this no
trigger is lost: if no order comes to wait inside its band while nobody attends to its
symbol, then whenever nothing is in progress and no symbol is dirty, no order without
dates waits inside its band (`noneMissed_of_watched`). The invariant is `Watching`: a
symbol with such an order is marked, or some thread is about to mark or to scan it.
-/

namespace StockMarket

open Atomic MatchingEngine

variable {P : Type}

/-- The symbol is marked dirty, or some thread is about to mark or to scan it. -/
def Attended (e : MatchingEngine P) (φs : List (Phase P)) (s : Symbol) : Prop :=
  s ∈ e.dirtySymbols ∨ ∃ φ ∈ φs, s ∈ φ.attended

section

variable [Zero P] [LE P]

/-- No order without start date and expiry waits with the last price in its band. -/
def NoneMissed (e : MatchingEngine P) : Prop :=
  ∀ o, e.registry.Waits o → o.notBefore = none → o.expiresAt = none →
    ¬o.releaseBandContains (e.lastPrice o.symbol)

/-- An order without start date and expiry which comes to wait is outside its band then, or
its symbol is attended to. -/
def Watched (e : MatchingEngine P) (others : List (Phase P)) (φ φ' : Phase P)
    (_ : MatchingEngine P) : Prop :=
  ∀ o, φ = .held o → φ' = .idle → o.notBefore = none → o.expiresAt = none →
    o.releaseBandContains (e.lastPrice o.symbol) → Attended e others o.symbol

/-- The symbol of a waiting order without dates that is in its band is attended to. -/
def Watching (e : MatchingEngine P) (φs : List (Phase P)) : Prop :=
  ∀ o, e.registry.Waits o → o.notBefore = none → o.expiresAt = none →
    o.releaseBandContains (e.lastPrice o.symbol) → Attended e φs o.symbol

end

/-- A symbol that is not attended to any more was not attended to before. -/
theorem Attended.mono {e e' : MatchingEngine P} {φ φ' : Phase P} {φs : List (Phase P)} {s : Symbol}
    (attended : Attended e (φ :: φs) s) (dirty : s ∈ e.dirtySymbols → Attended e' (φ' :: φs) s)
    (own : s ∈ φ.attended → Attended e' (φ' :: φs) s) : Attended e' (φ' :: φs) s := by
  rcases attended with marked | ⟨ψ, mem, here⟩
  · exact dirty marked
  · rcases List.mem_cons.mp mem with rfl | mem
    · exact own here
    · exact .inr ⟨ψ, List.mem_cons_of_mem _ mem, here⟩

theorem Attended.head {e : MatchingEngine P} {φ : Phase P} {φs : List (Phase P)} {s : Symbol}
    (own : s ∈ φ.attended) : Attended e (φ :: φs) s :=
  .inr ⟨φ, List.mem_cons_self, own⟩

namespace Watching

section

variable [Zero P] [LE P] {e e' : MatchingEngine P} {φ φ' : Phase P} {φs φs' : List (Phase P)}

theorem perm (watching : Watching e φs) (same : φs.Perm φs') : Watching e φs' := by
  intro o waits start expiry inBand
  rcases watching o waits start expiry inBand with marked | ⟨φ, mem, here⟩
  · exact .inl marked
  · exact .inr ⟨φ, same.mem_iff.mp mem, here⟩

/-- No order came to wait, and whatever moved a price or lost a mark is attended to. -/
theorem mono (watching : Watching e (φ :: φs))
    (waits : ∀ o, e'.registry.Waits o → e.registry.Waits o)
    (price : ∀ s, e'.lastPrice s = e.lastPrice s ∨ Attended e' (φ' :: φs) s)
    (attended : ∀ s, Attended e (φ :: φs) s → Attended e' (φ' :: φs) s) :
    Watching e' (φ' :: φs) := by
  intro o waiting start expiry inBand
  rcases price o.symbol with same | here
  · exact attended o.symbol (watching o (waits o waiting) start expiry (same ▸ inBand))
  · exact here

/-- Registry, prices and marks are as before. -/
theorem congr (watching : Watching e (φ :: φs)) (registry : e'.registry = e.registry)
    (lastPrices : e'.lastPrices = e.lastPrices) (dirty : e'.dirtySymbols = e.dirtySymbols)
    (own : φ.attended ⊆ φ'.attended) : Watching e' (φ' :: φs) := by
  refine watching.mono (fun o waits => registry ▸ waits) (fun s => .inl ?_) fun s attended => ?_
  · rw [lastPrice, lastPrices, lastPrice]
  · exact attended.mono (fun marked => .inl (dirty ▸ marked)) fun here => .head (own here)

/-- Orders are taken out of the registry, and nothing else. -/
theorem fewer (watching : Watching e (φ :: φs)) {orderId : Nat}
    (registry : RegistryInvariant e.registry) (own : φ.attended ⊆ φ'.attended) :
    Watching (e.withoutWaiting orderId) (φ' :: φs) := by
  refine watching.mono (fun o waits => ?_) (fun s => .inl rfl) fun s attended => ?_
  · have left : o ∈ (e.registry.cancel orderId).2.allWaiting :=
      (registry.cancel orderId).mem_allWaiting.mpr waits
    exact registry.mem_allWaiting.mp (registry.cancel_subset orderId left)
  · exact attended.mono .inl fun here => .head (own here)

end

variable [Zero P] [LT P] [DecidableLT P] [LE P] [DecidableLE P] {e e' : MatchingEngine P}
  {φ φ' : Phase P} {φs : List (Phase P)}

omit [LT P] [DecidableLT P] in
/-- What is in its band when its symbol is scanned leaves the registry. -/
theorem scanned {order : Symbol → IterationOrder Nat (Order P)} {now : Int} {s : Symbol}
    {symbols : List Symbol} {result : ScanResult P}
    (watching : Watching e (φ :: φs)) (before : φ.attended = s :: symbols)
    (after : φ'.attended = symbols) :
    Watching (scanStep order now s result e).2 (φ' :: φs) := by
  intro o waits start expiry inBand
  have registry : (scanStep order now s result e).2.registry
      = (OrderRegistry.scanSymbols order now e.lastPrice [s] (e.registry, {})).1 :=
        scanSymbol_registry
  rw [registry] at waits
  obtain ⟨waited, stays⟩ := (RegistryInvariant.waits_scanSymbols (List.nodup_singleton s)).mp waits
  by_cases here : o.symbol = s
  · have fresh : ¬o.isExpired now := by simp [Order.isExpired, expiry]
    have started : o.isStarted now := by simp [Order.isStarted, start]
    exact absurd ⟨List.mem_singleton.mpr here, .inr ⟨fresh, started, inBand⟩⟩ stays
  · refine (watching o waited start expiry inBand).mono .inl fun mem => .head ?_
    rw [before] at mem
    rw [after]
    exact (List.mem_cons.mp mem).resolve_left here

/-- **Every watched move keeps it.** -/
theorem move (watching : Watching e (φ :: φs)) (engine : EngineInvariant e
    ((φ :: φs).flatMap Phase.underway)) (moves : Move φ e φ' e') (watched : Watched e φs φ φ' e') :
    Watching e' (φ' :: φs) := by
  cases moves with
  | quiet φ same =>
      exact watching.congr same.registry same.lastPrices same.dirtySymbols (List.Subset.refl _)
  | queue o =>
      intro w waits start expiry inBand
      rcases (engine.registry.waits_add engine.unseen).mp waits with rfl | waited
      · rcases watched w rfl rfl start expiry inBand with marked | ⟨ψ, mem, here⟩
        · exact .inl marked
        · exact .inr ⟨ψ, List.mem_cons_of_mem _ mem, here⟩
      · exact (watching w waited start expiry inBand).mono .inl fun mem => by cases mem
  | price t released ts =>
      refine watching.mono (fun _ waits => waits) (fun s => ?_) fun s attended => ?_
      · by_cases here : s = t.symbol
        · exact .inr (.head (List.mem_singleton.mpr here))
        · have look : (setLastPrice t.symbol t.price e).lastPrices.lookup s
            = e.lastPrices.lookup s :=
            AList.lookup_insert_ne here
          exact .inl (by rw [lastPrice, look, lastPrice])
      · exact attended.mono .inl fun mem => by cases mem
  | mark s released ts =>
      refine watching.mono (fun _ waits => waits) (fun _ => .inl rfl) fun t attended => ?_
      refine attended.mono (fun marked => .inl ?_) fun mem => .inl ?_
      · exact (AList.mem_insert _).mpr (.inr marked)
      · exact (AList.mem_insert _).mpr (.inl (List.mem_singleton.mp mem))
  | drain order =>
      refine watching.mono (fun _ waits => waits) (fun _ => .inl rfl) fun s attended => ?_
      refine attended.mono (fun marked => .head ?_) fun mem => by cases mem
      obtain ⟨u, look⟩ := Option.isSome_iff_exists.mp (AList.lookup_isSome.mpr marked)
      exact List.mem_map.mpr ⟨⟨s, u⟩, order.mem_walk.mpr look, rfl⟩
  | scan order now s symbols result => exact watching.scanned rfl rfl
  | cancelBook φ c s => exact watching.congr rfl rfl rfl (List.Subset.refl _)
  | cancelWaiting φ orderId => exact watching.fewer engine.registry (List.Subset.refl _)
  | miss s miss => exact watching.fewer engine.registry (List.Subset.refl _)
  | found s hit => exact watching.fewer engine.registry (List.Subset.refl _)
  | _ => exact watching.congr rfl rfl rfl (List.nil_subset _)

end Watching

/-! ### Runs -/

/-- The threads' invariant, and no trigger lost so far. -/
structure WatchedThreads [Zero P] [LT P] [LE P] (e : MatchingEngine P) (φs : List (Phase P)) :
    Prop where
  threads : ThreadsInvariant e φs
  watching : Watching e φs

section

variable [Zero P] [Add P] [Sub P] [Mul P] [IntCast P] [LT P] [DecidableLT P] [LE P] [DecidableLE P]
  [OfScientific P] [IsStrictOrder P (· < ·)]

/-- **If no order comes to wait inside its band unattended**, then whenever nothing is in
progress and no symbol is dirty, no order without dates waits inside its band. -/
theorem noneMissed_of_watched (setup : List (SetupCall P)) (threads : List (List (EngineCall P)))
    {e : MatchingEngine P} {threads' : List (Prog (MatchingEngine P) Unit × Phase P)}
    (run : EngineRun Watched (setUp setup, startThreads threads) (e, threads'))
    (rest : ∀ φ ∈ phases threads', φ = .idle) (clean : e.dirtySymbols = ∅) : NoneMissed e := by
  have start : WatchedThreads (setUp setup) (phases (startThreads threads)) := by
    refine ⟨.of_idle (idle_setUp setup).invariant phases_startThreads, fun o waits => ?_⟩
    have none : o ∈ (setUp setup).waitingOrders :=
      (idle_setUp setup).invariant.registry.mem_allWaiting.mpr waits
    rw [waitingOrders, (idle_setUp setup).registry] at none
    cases none
  have kept : WatchedThreads e (phases threads') :=
    run.keep (fun _ _ _ same inv => ⟨inv.threads.perm same, inv.watching.perm same⟩)
      (fun _ _ _ _ _ moves watched inv =>
        ⟨inv.threads.move moves, inv.watching.move inv.threads.engine moves watched⟩) start
  intro o waits start expiry inBand
  rcases kept.watching o waits start expiry inBand with marked | ⟨φ, mem, here⟩
  · rw [clean] at marked
    exact absurd marked (AList.notMem_empty _)
  · rw [rest φ mem] at here
    cases here

end

/-- An order without dates that a thread holds back is outside its band. -/
def HeldOut [Zero P] [LE P] (e : MatchingEngine P) (φ : Phase P) : Prop :=
  ∀ o, φ = .held o → o.notBefore = none → ¬o.releaseBandContains (e.lastPrice o.symbol)

/-- So a thread that runs while the others wait queues nothing inside its band. -/
theorem HeldOut.move [Zero P] [LT P] [DecidableLT P] [LE P] [DecidableLE P]
    {e e' : MatchingEngine P} {φ φ' : Phase P} (moves : Move φ e φ' e') (out : HeldOut e φ) :
    HeldOut e' φ' := by
  intro o held start
  cases moves with
  | quiet φ same =>
      rw [lastPrice, same.lastPrices]
      exact out o held start
  | hold waits =>
      cases held
      refine fun inBand => waits ⟨?_, inBand⟩
      simp [Order.isStarted, start]
  | cancelBook φ c s => exact out o held start
  | cancelWaiting φ orderId => exact out o held start
  | _ => cases held

/-- A STOP order waits above the price. -/
def stopAbove : List (EngineCall ℚ) :=
  [.submitOrder 0 (fun _ => 0) (request 1 .buy .stop "AAPL" 1 105)]

/-- A trade takes the price there, and the release pass follows. -/
def tradeAbove : List (EngineCall ℚ) :=
  [.submitOrder 0 (fun _ => 0) (request 2 .sell .limit "AAPL" 4 110),
    .submitOrder 0 (fun _ => 0) (request 1 .buy .limit "AAPL" 4 110),
    .tryReleaseWaitingOrders storedOrder 1 (fun _ _ => 1) false]

theorem noneMissed_of_watched_stopAbove : ∃ e threads',
    EngineRun Watched (setUp buyerAndSeller, startThreads [stopAbove, tradeAbove]) (e, threads') ∧
      (∀ φ ∈ phases threads', φ = .idle) ∧ e.dirtySymbols = ∅ ∧
      e.allResting.map Order.id = [1] ∧ NoneMissed e := by
  have keep : ∀ (others : List (Phase ℚ)) (e : MatchingEngine ℚ) (φ φ' : Phase ℚ)
      (e' : MatchingEngine ℚ), Move φ e φ' e' → HeldOut e φ →
        Watched e others φ φ' e' ∧ HeldOut e' φ' :=
    fun others e φ φ' e' moves out => ⟨fun o held _ start _ inBand =>
      absurd inBand (out o held start), out.move moves⟩
  have out : ∀ e : MatchingEngine ℚ, HeldOut e .idle := fun e o held => by cases held
  obtain ⟨φ, rfl, first⟩ := (performs_threadProgram stopAbove).run_among []
    [(threadProgram tradeAbove, .idle)] (keep _) (out (setUp buyerAndSeller))
  obtain ⟨φ, rfl, second⟩ := (performs_threadProgram tradeAbove).run_among [(.ret (), .idle)] []
    (keep _) (out ((threadProgram stopAbove).exec (setUp buyerAndSeller)).2)
  have run : EngineRun Watched (setUp buyerAndSeller, startThreads [stopAbove, tradeAbove])
      (_, [(.ret (), .idle), (.ret (), .idle)]) := first.trans second
  have rest : ∀ φ ∈ phases [((.ret (), .idle) : Prog (MatchingEngine ℚ) Unit × Phase ℚ),
      (.ret (), .idle)], φ = .idle := by
    simp [phases]
  have clean : ((threadProgram tradeAbove).exec
      ((threadProgram stopAbove).exec (setUp buyerAndSeller)).2).2.dirtySymbols = ∅ := by
    refine AList.ext ?_
    decide +kernel
  exact ⟨_, _, run, rest, clean, by decide +kernel,
    noneMissed_of_watched buyerAndSeller [stopAbove, tradeAbove] run rest clean⟩

/-- A submission, or a release pass over the dirty symbols. -/
def EngineCall.SubmitsOrReleasesDirty : EngineCall P → Prop
  | .submitOrder _ _ _ => True
  | .tryReleaseWaitingOrders _ _ _ fullScan => fullScan = false
  | _ => False

/-- The thread of the STOP order stops after it has read the last price; a trade is made
above the order's trigger, and the release pass drains the mark and finds no order; then
the STOP order comes to wait. -/
theorem trigger_lost : ¬∀ (setup : List (SetupCall ℚ)) (threads : List (List (EngineCall ℚ))),
    (∀ calls ∈ threads, ∀ call ∈ calls, call.SubmitsOrReleasesDirty) →
    ∀ e ps, Interleaves (setUp setup, threads.map threadProgram) (e, ps) → Finished ps →
      e.dirtySymbols = ∅ → NoneMissed e := by
  intro claim
  set first := threadProgram stopAbove
  set second := threadProgram tradeAbove
  have stopped := interleaves_advance [] [second] 5 first (setUp buyerAndSeller)
  set middle := first.advance 5 (setUp buyerAndSeller)
  have between := interleaves_exec [middle.1] [] second middle.2
  have rest := interleaves_exec [] [.ret (second.exec middle.2).1] middle.1 (second.exec middle.2).2
  have none := claim buyerAndSeller [stopAbove, tradeAbove]
    (by simp [stopAbove, tradeAbove, EngineCall.SubmitsOrReleasesDirty]) _ _
    ((stopped.trans between).trans rest) (by simp [Finished])
    (AList.ext (by decide +kernel))
  refine none (buildOrder (request 1 .buy .stop "AAPL" 1 105) 1 0) ?_ rfl rfl ?_
  · unfold OrderRegistry.Waits
    decide +kernel
  · decide +kernel

end StockMarket
