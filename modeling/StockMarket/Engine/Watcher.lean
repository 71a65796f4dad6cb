import StockMarket.Engine.MarketMaker
import StockMarket.Simulation

/-!
How long an order waits that could leave the registry.

Most passes of the release watcher scan the symbols that traded; an order that waits for a date,
or expires, on a symbol that nobody trades is found by a full pass only, and every
`full_scan_every_n_ticks`-th pass is one. So an order that any scan would take out is out after
that many passes, whatever the other threads do in between (`gone_within`): the watcher notes
whether it is gone already (`Leaving`), and nobody puts an order with its id in again. Prices
are comparable here: a last price that is NaN lies in no band, and no scan would release anything.
-/

namespace StockMarket

open Atomic MatchingEngine

variable {P : Type}

/-- The loop of `SimulationServer::watcher_loop`, whose ticks are counted from `n`; `everyTicks` is
`full_scan_every_n_ticks`. -/
def watcherLoop (everyTicks : Int) : Nat → List (WatcherTick P) → List (EngineCall P)
  | _, [] => []
  | n, tick :: ticks =>
    .tryReleaseWaitingOrders tick.order tick.now tick.clock
      (0 < everyTicks ∧ ((n + 1 : Nat) : Int) % everyTicks = 0) ::
      watcherLoop everyTicks (n + 1) ticks

/-- The order that is on its way to the registry, or may be. -/
def Phase.entering : Phase P → List (Order P)
  | .submitting order | .checked order | .held order => [order]
  | _ => []

/-- Of the orders with the id, only the given one may wait, and it does not if it is `gone`. -/
structure Leaving (w : Order P) (gone : Bool) (e : MatchingEngine P) (φs : List (Phase P)) :
    Prop where
  given : w.id < e.nextOrderId
  entering : ∀ o ∈ φs.flatMap Phase.entering, o.id ≠ w.id
  waits : ∀ o, e.registry.Waits o → o.id = w.id → o = w ∧ gone = false

namespace Leaving

variable {w : Order P} {gone : Bool} {e e' : MatchingEngine P} {φ φ' : Phase P}
  {φs φs' : List (Phase P)}

theorem perm (leaving : Leaving w gone e φs) (same : φs.Perm φs') : Leaving w gone e φs' where
  given := leaving.given
  entering o mem := leaving.entering o ((same.flatMap_right Phase.entering).mem_iff.mpr mem)
  waits := leaving.waits

/-- Orders may leave the registry, and the thread may let go of its order. -/
theorem fewer (leaving : Leaving w gone e (φ :: φs)) (next : e.nextOrderId ≤ e'.nextOrderId)
    (entering : φ'.entering ⊆ φ.entering) (waits : ∀ o, e'.registry.Waits o → e.registry.Waits o) :
    Leaving w gone e' (φ' :: φs) where
  given := leaving.given.trans_le next
  entering := by
    intro o mem
    rw [List.flatMap_cons] at mem
    refine leaving.entering o ?_
    rw [List.flatMap_cons]
    rcases List.mem_append.mp mem with own | other
    · exact List.mem_append_left _ (entering own)
    · exact List.mem_append_right _ other
  waits o waiting := leaving.waits o (waits o waiting)

/-- **Every move of another thread** leaves it as it is. -/
theorem move [Zero P] [LT P] [DecidableLT P] [LE P] [DecidableLE P] [IsStrictOrder P (· < ·)]
    (leaving : Leaving w gone e (φ :: φs)) (sound : Reached e) (moves : Move φ e φ' e') :
    Leaving w gone e' (φ' :: φs) := by
  obtain ⟨ψs, inv, -⟩ := sound
  have registry := inv.engine.registry
  have cancelled (orderId : Nat) : ∀ o, (e.withoutWaiting orderId).registry.Waits o →
      e.registry.Waits o := by
    intro o waiting
    have left := (registry.cancel orderId).mem_allWaiting.mpr waiting
    exact registry.mem_allWaiting.mp (registry.cancel_subset orderId left)
  have same : ∀ o, e.registry.Waits o → e.registry.Waits o := fun _ waiting => waiting
  cases moves with
  | quiet φ market =>
      refine leaving.fewer market.nextOrderId.ge (List.Subset.refl _) fun o waiting => ?_
      rwa [market.registry] at waiting
  | @draft _ o fresh =>
      refine ⟨Nat.lt_succ_of_lt leaving.given, fun r mem => ?_, leaving.waits⟩
      rw [List.flatMap_cons] at mem
      rcases List.mem_append.mp mem with own | other
      · rw [List.mem_singleton.mp own, fresh]
        exact leaving.given.ne'
      · exact leaving.entering r (List.mem_append_right _ other)
  | queue o =>
      have own : o.id ≠ w.id := leaving.entering o List.mem_cons_self
      refine ⟨leaving.given, fun r mem => leaving.entering r (List.mem_cons_of_mem _ mem), ?_⟩
      intro r waiting same
      rcases waits_of_add waiting with rfl | old
      · exact absurd same own
      · exact leaving.waits r old same
  | reject o | refuse o => exact leaving.fewer le_rfl (List.nil_subset _) same
  | check pos known => exact leaving.fewer le_rfl (List.Subset.refl _) same
  | hold waits => exact leaving.fewer le_rfl (List.Subset.refl _) same
  | matchNew clock o => exact leaving.fewer le_rfl (List.nil_subset _) same
  | matchReleased clock o later => exact leaving.fewer le_rfl (List.nil_subset _) same
  | price t released ts => exact leaving.fewer le_rfl (List.nil_subset _) same
  | mark s released ts => exact leaving.fewer le_rfl (List.nil_subset _) same
  | list symbols => exact leaving.fewer le_rfl (List.nil_subset _) same
  | drain order => exact leaving.fewer le_rfl (List.nil_subset _) same
  | scan order now s symbols result =>
      refine leaving.fewer le_rfl (List.nil_subset _) fun o waiting => ?_
      have after : (scanStep order now s result e).2.registry = (OrderRegistry.scanSymbols order
        now e.lastPrice [s] (e.registry, {})).1 := scanSymbol_registry
      rw [after] at waiting
      exact ((RegistryInvariant.waits_scanSymbols (List.nodup_singleton s)).mp waiting).1
  | cancelBook φ c s => exact leaving.fewer le_rfl (List.Subset.refl _) same
  | cancelWaiting φ orderId =>
      exact leaving.fewer le_rfl (List.Subset.refl _) (cancelled orderId)
  | probeUnknown orderId unknown => exact leaving.fewer le_rfl (List.nil_subset _) same
  | probe miss => exact leaving.fewer le_rfl (List.nil_subset _) same
  | probeFound hit => exact leaving.fewer le_rfl (List.nil_subset _) same
  | @miss _ orderId _ _ | @found _ orderId _ _ =>
      exact leaving.fewer le_rfl (List.nil_subset _) (cancelled orderId)

end Leaving

/-! ### The passes of the watcher -/

section

variable [LT P] {α β : Type} {w : Order P} {gone : Bool}

/-- The watcher knows whether the order is gone after the program if it knew before. -/
abbrev Notes (w : Order P) (ends : α → Bool → Prop) (p : Prog (MatchingEngine P) α) (gone : Bool) :
    Prop :=
  KnowsAmong Reached (Leaving w) ends p gone

/-- An action that keeps the registry and takes no id. -/
theorem notes_step {action : MatchingEngine P → α × MatchingEngine P}
    (same : ∀ e, (action e).2.registry = e.registry ∧ (action e).2.nextOrderId = e.nextOrderId) :
    Notes w (fun _ k => k = gone) (Prog.step action) gone := by
  refine KnowsAmong.step fun e φs _ leaving => ⟨gone, ?_, rfl⟩
  obtain ⟨registry, next⟩ := same e
  exact ⟨next ▸ leaving.given, leaving.entering, registry ▸ leaving.waits⟩

/-- One program after another that both leave the notes as they are. -/
theorem Notes.andThen {p : Prog (MatchingEngine P) α} {f : α → Prog (MatchingEngine P) β}
    {ends : β → Bool → Prop} (first : Notes w (fun _ k => k = gone) p gone)
    (rest : ∀ a, Notes w ends (f a) gone) : Notes w ends (p >>= f) gone :=
  KnowsAmong.bind first fun a _ same => same ▸ rest a

theorem notes_count (f : Metrics → Metrics) :
    Notes w (fun _ k => k = gone) (Prog.modify (count f) : Prog (MatchingEngine P) Unit) gone :=
  notes_step fun _ => ⟨rfl, rfl⟩

theorem notes_publish (event : Event P) :
    Notes w (fun _ k => k = gone) (Prog.modify (publish event)) gone :=
  notes_step fun _ => ⟨rfl, rfl⟩

theorem notes_reportExpired : ∀ orders : List (Order P),
    Notes w (fun _ k => k = gone) (reportExpired orders) gone
  | [] => rfl
  | _ :: orders => (notes_count _).andThen fun _ => (notes_publish _).andThen fun _ =>
      notes_reportExpired orders

variable [Zero P] [Add P] [Sub P] [Mul P] [IntCast P]

theorem notes_settleTrades : ∀ trades : List (Trade P),
    Notes w (fun _ k => k = gone) (settleTrades trades) gone
  | [] => rfl
  | t :: ts => by
      have settled : Notes w (fun _ k => k = gone) (Prog.modify (settle t)) gone :=
        notes_step fun _ => ⟨rfl, rfl⟩
      have priced : Notes w (fun _ k => k = gone) (Prog.modify (setLastPrice t.symbol t.price))
          gone := notes_step fun _ => ⟨rfl, rfl⟩
      have marked : Notes w (fun _ k => k = gone)
          (Prog.modify (markDirty t.symbol) : Prog (MatchingEngine P) Unit) gone :=
        notes_step fun _ => ⟨rfl, rfl⟩
      refine settled.andThen fun _ => priced.andThen fun _ => marked.andThen fun _ => ?_
      exact (notes_publish _).andThen fun _ => notes_settleTrades ts

variable [DecidableLT P]

theorem notes_matchAndSettle (clock : Nat → Int) (o : Order P) :
    Notes w (fun _ k => k = gone) (matchAndSettle clock o) gone := by
  have matched : Notes w (fun _ k => k = gone) (Prog.step (matchBook clock o)) gone :=
    notes_step fun _ => ⟨rfl, rfl⟩
  refine matched.andThen fun trades => ?_
  refine (notes_count _).andThen fun _ => ?_
  refine (notes_publish _).andThen fun _ => ?_
  refine (notes_settleTrades trades).andThen fun _ => ?_
  refine (notes_count _).andThen fun _ => ?_
  exact (notes_count _).andThen fun _ => rfl

theorem notes_releaseAll (clock : Nat → Nat → Int) : ∀ (n : Nat) (orders : List (Order P)),
    Notes w (fun _ k => k = gone) (releaseAll clock n orders) gone
  | _, [] => rfl
  | n, o :: orders => (notes_matchAndSettle (clock n) o).andThen fun _ =>
      (notes_releaseAll clock (n + 1) orders).andThen fun _ => rfl

variable [LE P] [DecidableLE P]

omit [Add P] [Sub P] [Mul P] [IntCast P] [DecidableLT P] in
/-- **A scan** that comes to the order's symbol takes it out, at whatever price. -/
theorem notes_scanSymbolsStep (order : Symbol → IterationOrder Nat (Order P)) {now : Int}
    (due : ∀ price, w.leaves now price) : ∀ (symbols : List Symbol) (result : ScanResult P)
      (gone : Bool), Notes w (fun _ k => gone = true ∨ w.symbol ∈ symbols → k = true)
        (scanSymbolsStep order now symbols result) gone
  | [], _, gone => fun known => known.elim id (List.not_mem_nil · |>.elim)
  | s :: symbols, result, gone => by
      have one : Notes w (fun _ k => gone = true ∨ w.symbol = s → k = true)
          (.step (scanStep order now s result)) gone := by
        refine KnowsAmong.step fun e φs sound leaving => ?_
        have after : (scanStep order now s result e).2.registry = (OrderRegistry.scanSymbols order
          now e.lastPrice [s] (e.registry, {})).1 := scanSymbol_registry
        have left : ∀ o, (scanStep order now s result e).2.registry.Waits o →
            e.registry.Waits o ∧ ¬(o.symbol ∈ [s] ∧ o.leaves now (e.lastPrice o.symbol)) := by
          intro o waiting
          rw [after] at waiting
          exact (RegistryInvariant.waits_scanSymbols (List.nodup_singleton s)).mp waiting
        by_cases here : w.symbol = s
        · refine ⟨true, ⟨leaving.given, leaving.entering, fun o waiting same => ?_⟩, fun _ => rfl⟩
          obtain ⟨before, stays⟩ := left o waiting
          obtain ⟨rfl, -⟩ := leaving.waits o before same
          exact absurd ⟨List.mem_singleton.mpr here, due _⟩ stays
        · refine ⟨gone, ⟨leaving.given, leaving.entering, fun o waiting same => ?_⟩,
          fun known => ?_⟩
          · exact leaving.waits o (left o waiting).1 same
          · exact known.resolve_right here
      refine KnowsAmong.bind one fun scan k known => ?_
      refine (notes_scanSymbolsStep order due symbols scan k).mono fun _ k' later found => ?_
      refine later ?_
      rcases found with gone | mem
      · exact .inl (known (.inl gone))
      · exact (List.mem_cons.mp mem).imp (fun here => known (.inr here)) id

/-- **A full pass** takes the order out, and no pass brings it back. -/
theorem notes_tryReleaseWaitingOrders (order : ReleaseOrder P) {now : Int}
    (clock : Nat → Nat → Int) (fullScan : Bool) (due : ∀ price, w.leaves now price) :
    Notes w (fun _ k => gone = true ∨ fullScan = true → k = true)
      (tryReleaseWaitingOrders order now clock fullScan) gone := by
  have symbols : Notes w (fun symbols k => gone = true ∨ fullScan = true →
      k = true ∨ w.symbol ∈ symbols) (symbolsToScan order fullScan) gone := by
    unfold symbolsToScan
    split
    · refine KnowsAmong.step fun e φs _ leaving => ?_
      by_cases waiting : e.registry.Waits w
      · refine ⟨gone, leaving, fun _ => .inr ?_⟩
        obtain ⟨⟨s, bucket⟩, mem, here⟩ := List.mem_map.mp (mem_symbols_of_waits waiting)
        have walked := order.symbols.mem_walk.mpr (Table.mem_entries_iff.mp mem)
        exact List.mem_map.mpr ⟨⟨s, bucket⟩, walked, here⟩
      · refine ⟨true, ⟨leaving.given, leaving.entering, fun o waits same => ?_⟩, fun _ => .inl rfl⟩
        obtain ⟨rfl, -⟩ := leaving.waits o waits same
        exact absurd waits waiting
    · rename_i fast
      refine (notes_step fun _ => ⟨rfl, rfl⟩).mono fun _ k same known => .inl ?_
      exact same.trans (known.resolve_right fast)
  refine KnowsAmong.bind symbols fun symbols k found => ?_
  refine KnowsAmong.bind (notes_scanSymbolsStep order.bucket due symbols {} k)
    fun scan k' scanned => ?_
  refine (notes_releaseAll clock 0 scan.released).andThen fun _ => ?_
  refine (notes_reportExpired _).andThen fun _ => ?_
  exact fun known => scanned (found known)

variable [OfScientific P]

/-- The loop of the watcher, if one of its next ticks is a full one. -/
theorem notes_watcherLoop {everyTicks : Int} (pos : 0 < everyTicks) :
    ∀ (ticks : List (WatcherTick P)) (n : Nat) (gone : Bool),
      (∀ tick ∈ ticks, ∀ price, w.leaves tick.now price) →
      Notes w (fun _ k => (gone = true ∨
          ∃ m : Nat, n < m ∧ m ≤ n + ticks.length ∧ (m : Int) % everyTicks = 0) → k = true)
        (threadProgram (watcherLoop everyTicks n ticks)) gone
  | [], n, gone, _ => by
      rintro (known | ⟨m, above, most, -⟩)
      · exact known
      · rw [List.length_nil] at most
        omega
  | tick :: ticks, n, gone, due => by
      obtain ⟨now, later⟩ := List.forall_mem_cons.mp due
      set full := decide (0 < everyTicks ∧ ((n + 1 : Nat) : Int) % everyTicks = 0)
      have pass : Notes w (fun _ k => gone = true ∨ full = true → k = true)
          (EngineCall.tryReleaseWaitingOrders tick.order tick.now tick.clock full).program gone :=
        KnowsAmong.bind (notes_tryReleaseWaitingOrders tick.order tick.clock full now)
          fun _ _ known => known
      refine KnowsAmong.bind pass fun _ k known => ?_
      refine (notes_watcherLoop pos ticks (n + 1) k later).mono fun _ k' rest found => ?_
      refine rest ?_
      rcases found with gone | ⟨m, above, most, turn⟩
      · exact .inl (known (.inl gone))
      · rw [List.length_cons] at most
        by_cases here : m = n + 1
        · subst here
          exact .inl (known (.inr (decide_eq_true ⟨pos, turn⟩)))
        · exact .inr ⟨m, by omega, by omega, turn⟩

end

/-- Of as many ticks as `everyTicks` says, one is full. -/
theorem exists_full {everyTicks : Int} (pos : 0 < everyTicks) {n length : Nat}
    (enough : everyTicks ≤ length) :
    ∃ m : Nat, n < m ∧ m ≤ n + length ∧ (m : Int) % everyTicks = 0 := by
  obtain ⟨every, rfl⟩ := Int.eq_ofNat_of_zero_le pos.le
  have some : 0 < every := by exact_mod_cast pos
  have most : every ≤ length := by exact_mod_cast enough
  have split := Nat.div_add_mod n every
  have small := Nat.mod_lt n some
  refine ⟨every * (n / every + 1), ?_, ?_, ?_⟩
  · rw [Nat.mul_add]
    omega
  · rw [Nat.mul_add]
    omega
  · exact_mod_cast Nat.mul_mod_right every (n / every + 1)

/-! ### Runs -/

section

variable [LinearOrder P] [Zero P] [Add P] [Sub P] [Mul P] [IntCast P] [OfScientific P]

/-- The order would leave at any price: it has expired, or it waits for nothing but a start date
that has come. -/
def Order.Due (o : Order P) (now : Int) : Prop :=
  o.isExpired now ∨ o.isStarted now ∧ o.releaseLower = none ∧ o.releaseUpper = none

omit [Zero P] [Add P] [Sub P] [Mul P] [IntCast P] [OfScientific P] in
theorem Order.Due.leaves {o : Order P} {now : Int} (due : o.Due now) (price : P) :
    o.leaves now price := by
  rcases due with expired | ⟨started, lower, upper⟩
  · exact .inl expired
  · by_cases expired : o.isExpired now
    · exact .inl expired
    · refine .inr ⟨expired, started, ?_⟩
      rw [Order.releaseBandContains, lower, upper]
      exact ⟨le_refl price, le_refl price⟩

omit [Zero P] [Add P] [Sub P] [Mul P] [IntCast P] [OfScientific P] in
/-- An order that waits is not on its way to the registry as well. -/
theorem ThreadsInvariant.entering_ne {e : MatchingEngine P} {φs : List (Phase P)}
    (inv : ThreadsInvariant e φs) {o w : Order P} (mem : o ∈ φs.flatMap Phase.entering)
    (waits : w ∈ e.waitingOrders) : o.id ≠ w.id := by
  have held : o ∈ φs.flatMap Phase.drafts ++ (φs.flatMap Phase.underway ++ e.allResting) := by
    obtain ⟨φ, known, entering⟩ := List.mem_flatMap.mp mem
    cases φ with
    | submitting _ => exact List.mem_append_left _ (List.mem_flatMap.mpr ⟨_, known, entering⟩)
    | checked _ | held _ =>
        exact List.mem_append_right _ (List.mem_append_left _
          (List.mem_flatMap.mpr ⟨_, known, entering⟩))
    | _ => cases entering
  have distinct := inv.distinct
  rw [claimed, openOrders, ← List.append_assoc, ← List.append_assoc, List.map_append,
    List.nodup_append] at distinct
  rw [← List.append_assoc] at held
  exact distinct.2.2 _ (List.mem_map_of_mem held) _ (List.mem_map_of_mem waits)

/-- **No order that is due waits longer than the full passes are apart.** The watcher of a server
runs among any other threads. If an order waits when the watcher is between two ticks, and it is
due at the times of the next ones, then it waits no longer once the watcher has made as many as
`full_scan_every_n_ticks` says, and no order with its id does; whatever the other threads do, on
whatever symbols they trade, and under any schedule. -/
theorem gone_within (setup : List (SetupCall P)) (others : List (List (EngineCall P)))
    {everyTicks : Int} (pos : 0 < everyTicks) (before ticks : List (WatcherTick P))
    (enough : everyTicks ≤ ticks.length) {e e' : MatchingEngine P}
    {ps ps' : List (Prog (MatchingEngine P) Unit)}
    (run : Interleaves (setUp setup, threadProgram (watcherLoop everyTicks 0 (before ++ ticks)) ::
      others.map threadProgram)
      (e, threadProgram (watcherLoop everyTicks before.length ticks) :: ps))
    {w : Order P} (waits : w ∈ e.waitingOrders) (due : ∀ tick ∈ ticks, w.Due tick.now)
    (later : Interleaves (e, threadProgram (watcherLoop everyTicks before.length ticks) :: ps)
      (e', .ret () :: ps')) :
    ∀ o ∈ e'.waitingOrders, o.id ≠ w.id := by
  set calls := watcherLoop everyTicks 0 (before ++ ticks) :: others
  have programs : (startThreads calls).map Prod.fst = calls.map threadProgram := by
    simp [startThreads]
  have always : ∀ c, Interleaves (setUp setup, calls.map threadProgram) c → Reached c.1 :=
    fun c run => sound_of_run programs (following_startThreads calls) phases_startThreads run
  obtain ⟨threads, same, following, phased⟩ := Interleaves.phased run programs
    (following_startThreads calls)
  have start : ThreadsInvariant (setUp setup) (phases (startThreads calls)) :=
    .of_idle (idle_setUp setup).invariant phases_startThreads
  have inv : ThreadsInvariant e (phases threads) := ThreadsInvariant.run phased start
  obtain ⟨t, threads, rfl, -, rfl⟩ := List.map_eq_cons_iff.mp same
  have registry := inv.engine.registry
  have here := registry.mem_allWaiting.mp waits
  have holds : Leaving w false e (phases threads) := by
    refine ⟨inv.engine.given _ ?_, fun o mem => inv.entering_ne ?_ waits, fun o waiting same => ?_⟩
    · exact List.mem_map_of_mem (List.mem_append_right _ (List.mem_append_right _ waits))
    · exact List.mem_append_right _ mem
    · exact ⟨registry.unique waiting here same, rfl⟩
  obtain ⟨s, p', threads', gone, reached, -, leaving, knows⟩ :=
    interleaves_knows_among (fun c run' => always c (run.trans run'))
      (fun t mem => following t (List.mem_cons_of_mem _ mem))
      (fun _ _ _ _ same leaving => leaving.perm same)
      (fun _ _ _ _ _ _ sound moves leaving => leaving.move sound moves) holds
      (notes_watcherLoop pos ticks before.length false fun tick mem => (due tick mem).leaves) later
  obtain ⟨rfl, pool⟩ := Prod.mk.inj reached
  obtain ⟨rfl, -⟩ := List.cons.inj pool
  have none : gone = true := knows (.inr (exists_full pos enough))
  intro o waiting same
  obtain ⟨φs, inv', -⟩ := always _ (run.trans later)
  have still := (leaving.waits o (inv'.engine.registry.mem_allWaiting.mp waiting) same).2
  exact Bool.false_ne_true (still.symm.trans none)

end

/-- A stop that expires after a second. -/
def expiringStop : List (EngineCall ℚ) :=
  [.submitOrder 0 (fun _ => 0) { request 2 .sell .stop "AAPL" 5 90 with expiresIn := some 1 }]

/-- Two ticks, a second and two seconds later. -/
def twoPasses : List (WatcherTick ℚ) :=
  [⟨⟨⟨.stored, fun _ => .stored⟩, .stored⟩, after 0 1, fun _ _ => 0⟩,
    ⟨⟨⟨.stored, fun _ => .stored⟩, .stored⟩, after 0 2, fun _ _ => 0⟩]

theorem gone_within_twoPasses : ∃ e e' : MatchingEngine ℚ, ∃ w ∈ e.waitingOrders,
    Interleaves (e, [threadProgram (watcherLoop 2 0 twoPasses), .ret ()]) (e', [.ret (), .ret ()]) ∧
      ∀ o ∈ e'.waitingOrders, o.id ≠ w.id := by
  set watcher := threadProgram (watcherLoop 2 0 twoPasses)
  have submitted := interleaves_exec [watcher] [] (threadProgram expiringStop)
    (setUp buyerAndSeller)
  have passed := interleaves_exec [] [.ret ()] watcher
    ((threadProgram expiringStop).exec (setUp buyerAndSeller)).2
  set e := ((threadProgram expiringStop).exec (setUp buyerAndSeller)).2
  have one : e.waitingOrders.map (fun o => o.expiresAt) = [some (after 0 1)] := by decide +kernel
  obtain ⟨w, all, expires⟩ := List.map_eq_singleton_iff.mp one
  have waits : w ∈ e.waitingOrders := all ▸ List.mem_singleton_self w
  have due : ∀ tick ∈ twoPasses, w.Due tick.now := by
    intro tick mem
    refine .inl ?_
    rw [Order.isExpired, expires]
    revert tick
    simp [twoPasses, after]
  exact ⟨e, _, w, waits, passed, gone_within buyerAndSeller
    [expiringStop] (by norm_num) [] twoPasses
    (by simp [twoPasses]) submitted waits due passed⟩

end StockMarket
