import StockMarket.Engine.Participants
import StockMarket.Lib.Runs
import StockMarket.Lib.Scripts
import StockMarket.Simulation

/-!
The market that the bots make.

A bot decides by the prices that it reads and by the answers that it gets; but whatever it
decides, it uses the engine through calls only, and these are of the kind of the bot (`Makes`).
So every run of a simulation is, as far as the engine can tell, a run of threads that each have
a list of calls of their kind (`SimulationRun.scripted_run`). From this come the properties of the
market as a whole: the only orders that are rejected are those that nobody could pay or deliver
(`onlyRiskRejections`), what waits are stops (`waiting_of_bots`), and each market maker has one
quote of each side at most (`oneQuoteOfEachMaker`). The seed prices are numbers here, and what the
bots compute from them is exact.
-/

namespace StockMarket

open Atomic MatchingEngine

/-! ### What the bots send -/

/-- A thread of a simulation, with the client that it trades for. -/
inductive Participant where
  | noise (id : ClientId)
  | momentum (id : ClientId)
  | maker (id : ClientId)
  | watcher

namespace SimulationConfig

/-- The clients of the noise traders. -/
def noiseIds (config : SimulationConfig ℚ) : Set Int :=
  { id | 1 ≤ id ∧ id ≤ config.noiseTraders }

/-- The clients of the momentum bots. -/
def momentumIds (config : SimulationConfig ℚ) : Set Int :=
  { id | config.noiseTraders < id ∧ id ≤ config.noiseTraders + config.momentumTraders }

/-- The clients of the market makers. -/
def makerIds (config : SimulationConfig ℚ) : Set Int :=
  { id | config.noiseTraders + config.momentumTraders < id ∧ id ≤ config.clients }

end SimulationConfig

/-- The request is one that a bot of the client may send: none of the first checks fails. -/
structure SimulationConfig.Sends (config : SimulationConfig ℚ) (id : ClientId)
    (request : OrderRequest ℚ) : Prop where
  own : request.client = id
  listed : request.symbol ∈ config.allSymbols
  positive : 0 < request.quantity
  priced : request.kind ≠ .market → 0 < request.price
  started : request.notBeforeIn = none

/-- A request without a band. -/
def OrderRequest.Free {P : Type} (request : OrderRequest P) : Prop :=
  request.triggerLower = none ∧ request.triggerUpper = none

/-- The calls that a thread makes. -/
def SimulationConfig.Makes (config : SimulationConfig ℚ) : Participant → EngineCall ℚ → Prop
  | .noise id, .submitOrder _ _ request =>
    config.Sends id request ∧ (request.kind = .market ∨ request.kind = .limit → request.Free)
  | .momentum id, .submitOrder _ _ request =>
    config.Sends id request ∧ request.Free ∧
      (request.kind = .market ∨ request.kind = .stop ∧ request.expiresIn = some 120)
  | .maker id, .submitOrder _ _ request =>
    config.Sends id request ∧ request.Free ∧ request.kind = .limit
  | .maker _, .cancelOrder _ _ => True
  | .watcher, .tryReleaseWaitingOrders _ _ _ _ => True
  | _, _ => False

/-- The program makes calls of the kind of the participant, and its result is as `ends` says. -/
abbrev SimulationConfig.Plays {α : Type} (config : SimulationConfig ℚ) (who : Participant)
    (ends : α → Prop) (p : Prog (MatchingEngine ℚ) α) : Prop :=
  Scripted EngineCall.program (config.Makes who) ends p

theorem cent_pos : (0 : ℚ) < 0.01 := by decide +kernel

theorem larger_pos {x y : ℚ} (pos : 0 < x) : 0 < larger x y := by
  unfold larger
  split
  · exact pos.trans ‹x < y›
  · exact pos

theorem SimulationConfig.sends_noise {config : SimulationConfig ℚ} {id : ClientId}
    (tick : NoiseTick (config.bot id)) {reference : ℚ} (known : 0 < reference) :
    config.Sends id (tick.request reference) where
  own := rfl
  listed := tick.picked
  positive := tick.quantity.2.1
  priced := by
    intro priced
    unfold NoiseTick.request
    dsimp only
    split
    · contradiction
    · exact larger_pos cent_pos
    · exact larger_pos cent_pos
    · exact known
  started := rfl

theorem SimulationConfig.sends_momentum {config : SimulationConfig ℚ} {id : ClientId}
    (tick : MomentumTick (config.bot id)) (side : Side) :
    config.Sends id (tick.request side) where
  own := rfl
  listed := tick.picked
  positive := tick.quantity.2.1
  priced := fun priced => absurd rfl priced
  started := rfl

theorem SimulationConfig.sends_stop {config : SimulationConfig ℚ} {id : ClientId}
    (tick : MomentumTick (config.bot id)) (side : Side) (reference : ℚ) :
    config.Sends id (tick.stopRequest side reference) where
  own := rfl
  listed := tick.picked
  positive := tick.quantity.2.1
  priced := fun _ => larger_pos cent_pos
  started := rfl

/-! ### The bots as threads with scripts -/

theorem threadProgram_eq_script {P : Type} [Zero P] [Add P] [Sub P] [Mul P] [IntCast P] [LT P]
    [DecidableLT P] [LE P] [DecidableLE P] [OfScientific P] : ∀ calls : List (EngineCall P),
    threadProgram calls = script EngineCall.program calls
  | [] => rfl
  | call :: calls => by
      rw [threadProgram, script, threadProgram_eq_script calls]

section

variable {config : SimulationConfig ℚ}

/-- A submission of the participant's kind, and then more. -/
theorem plays_submitOrder {α : Type} {who : Participant} {ends : α → Prop} {now : Int}
    {clock : Nat → Int} {request : OrderRequest ℚ} {k : SubmitResult ℚ → Prog (MatchingEngine ℚ) α}
    (kind : config.Makes who (.submitOrder now clock request))
    (rest : ∀ result, config.Plays who ends (k result)) :
    config.Plays who ends (submitOrder now clock request >>= k) :=
  .call (.submitOrder now clock request) k rfl kind rest

theorem plays_noiseStep {id : ClientId} (tick : NoiseTick (config.bot id)) :
    config.Plays (.noise id) (fun _ => True) (noiseStep (config.bot id) tick) := by
  refine .look _ _ fun price => ?_
  by_cases unknown : referencePrice price tick.marketPrice ≤ 0
  · simp only [if_pos unknown]
    exact .ret trivial
  · simp only [if_neg unknown]
    refine plays_submitOrder ⟨config.sends_noise tick (not_le.mp unknown), ?_⟩
      fun _ => .ret trivial
    intro plain
    rcases plain with market | limit
    · change tick.kind = .market at market
      simp [OrderRequest.Free, NoiseTick.request, market]
    · change tick.kind = .limit at limit
      simp [OrderRequest.Free, NoiseTick.request, limit]

theorem plays_noiseRun {id : ClientId} : ∀ ticks : List (NoiseTick (config.bot id)),
    config.Plays (.noise id) (fun _ => True) (noiseRun (config.bot id) ticks)
  | [] => .ret trivial
  | tick :: ticks => (plays_noiseStep tick).bind fun _ _ => plays_noiseRun ticks

theorem plays_momentumStep {id : ClientId} (history : Table Symbol (List ℚ))
    (tick : MomentumTick (config.bot id)) :
    config.Plays (.momentum id) (fun _ => True) (momentumStep (config.bot id) history tick) := by
  refine .look _ _ fun price => ?_
  by_cases unknown : referencePrice price tick.marketPrice ≤ 0
  · simp only [if_pos unknown]
    exact .ret trivial
  · simp only [if_neg unknown]
    split
    · exact .ret trivial
    · rename_i side _
      refine plays_submitOrder ⟨config.sends_momentum tick side, ⟨rfl, rfl⟩, .inl rfl⟩ fun _ => ?_
      refine plays_submitOrder ⟨config.sends_stop tick side _, ⟨rfl, rfl⟩, .inr ⟨rfl, rfl⟩⟩
        fun _ => ?_
      exact .ret trivial

theorem plays_momentumRun {id : ClientId} :
    ∀ (ticks : List (MomentumTick (config.bot id))) (history : Table Symbol (List ℚ)),
      config.Plays (.momentum id) (fun _ => True) (momentumRun (config.bot id) history ticks)
  | [], _ => .ret trivial
  | tick :: ticks, history =>
      (plays_momentumStep history tick).bind fun history _ => plays_momentumRun ticks history

/-- A market maker of the client. -/
structure MarketMakerBot.Of (id : ClientId) (bot : MarketMakerBot ℚ) : Prop where
  own : bot.client = id
  spread : 0 ≤ bot.spreadFraction

namespace MarketMakerBot.Of

variable {id : ClientId} {bot : MarketMakerBot ℚ}

theorem setLastOrder (of : bot.Of id) (side : Side) (orderId : Nat) :
    (bot.setLastOrder side orderId).Of id := by
  cases side <;> exact ⟨of.own, of.spread⟩

theorem remember (of : bot.Of id) (side : Side) (quantity : Int) (result : SubmitResult ℚ) :
    (bot.remember side quantity result).Of id := by
  unfold MarketMakerBot.remember
  split
  · exact of.setLastOrder side result.orderId
  · exact of

theorem plays_cancelQuote (of : bot.Of id) (side : Side) :
    config.Plays (.maker id) (MarketMakerBot.Of id) (bot.cancelQuote side) := by
  unfold MarketMakerBot.cancelQuote
  split
  · have kind : config.Makes (.maker id) (.cancelOrder bot.lastQuoteSymbol (bot.lastOrder side)) :=
      trivial
    exact .call _ _ rfl kind fun _ => .ret (of.setLastOrder side 0)
  · exact .ret of

theorem plays_quote (of : bot.Of id) {tick : QuoteTick ℚ} {side : Side} {price : ℚ}
    (picked : tick.symbol ∈ config.allSymbols) (drawn : 0 < tick.quantity side)
    (priced : 0 < price) :
    config.Plays (.maker id) (MarketMakerBot.Of id) (bot.quote tick side price) :=
  plays_submitOrder ⟨⟨of.own, picked, drawn, fun _ => priced, rfl⟩, ⟨rfl, rfl⟩, rfl⟩
    fun result => .ret (of.remember side (tick.quantity side) result)

theorem plays_step (of : bot.Of id) {tick : QuoteTick ℚ} (picked : tick.symbol ∈ config.allSymbols)
    (drawn : ∀ side, 0 < tick.quantity side) :
    config.Plays (.maker id) (MarketMakerBot.Of id) (bot.step tick) := by
  refine (of.plays_cancelQuote .buy).bind fun bot of => ?_
  refine (of.plays_cancelQuote .sell).bind fun bot of => ?_
  refine .look _ _ fun price => ?_
  have placed : MarketMakerBot.Of id { bot with lastQuoteSymbol := tick.symbol } :=
    ⟨of.own, of.spread⟩
  by_cases unknown : (if price ≤ 0 then tick.marketPrice else price) ≤ 0
  · simp only [if_pos unknown]
    exact .ret placed
  · simp only [if_neg unknown]
    have known := not_le.mp unknown
    generalize (if price ≤ 0 then tick.marketPrice else price) = mid at known ⊢
    have bid : 0 < if 0.01 < mid - mid * bot.spreadFraction / 2.0 then
        mid - mid * bot.spreadFraction / 2.0 else (0.01 : ℚ) := larger_pos cent_pos
    have ask : 0 < mid + mid * bot.spreadFraction / 2.0 := by
      have half : 0 ≤ mid * bot.spreadFraction / 2.0 :=
        div_nonneg (mul_nonneg known.le of.spread) (by decide +kernel)
      exact add_pos_of_pos_of_nonneg known half
    refine (placed.plays_quote picked (drawn .buy) bid).bind fun bot of => ?_
    exact of.plays_quote picked (drawn .sell) ask

theorem plays_run : ∀ (ticks : List (QuoteTick ℚ)) {bot : MarketMakerBot ℚ}, bot.Of id →
    (∀ tick ∈ ticks, tick.symbol ∈ config.allSymbols ∧ ∀ side, 0 < tick.quantity side) →
    config.Plays (.maker id) (fun _ => True) (bot.run ticks)
  | [], _, _, _ => .ret trivial
  | tick :: ticks, _, of, fine => by
      obtain ⟨⟨picked, drawn⟩, others⟩ := List.forall_mem_cons.mp fine
      exact (of.plays_step picked drawn).bind fun _ of => plays_run ticks of others

end MarketMakerBot.Of

/-- The release watcher makes its passes. -/
theorem plays_releaseWatcher (ticks : List (WatcherTick ℚ)) :
    config.Plays .watcher (fun _ => True) (threadProgram (releaseWatcher 0 ticks)) := by
  have passes : ∀ (ticks : List (WatcherTick ℚ)) (n : Nat), ∀ call ∈ releaseWatcher n ticks,
      config.Makes .watcher call := by
    intro ticks n
    induction n, ticks using releaseWatcher.induct with
    | case1 => simp [releaseWatcher]
    | case2 n last => simp [releaseWatcher, SimulationConfig.Makes]
    | case3 n tick ticks later ih =>
        rw [releaseWatcher, List.forall_mem_cons]
        · exact ⟨trivial, ih⟩
        · exact later
  rw [threadProgram_eq_script]
  exact .script (passes ticks 0)

end

/-! ### The simulation as a whole -/

/-- The participants, in the order of their threads. -/
def SimulationConfig.participants (config : SimulationConfig ℚ) : List Participant :=
  ((List.range config.noiseTraders).map fun (i : Nat) => .noise (i + 1)) ++
    ((List.range config.momentumTraders).map fun (i : Nat) =>
      .momentum (config.noiseTraders + i + 1)) ++
    ((List.range config.marketMakers).map fun (i : Nat) =>
      .maker (config.noiseTraders + config.momentumTraders + i + 1)) ++ [.watcher]

section

variable {config : SimulationConfig ℚ}

/-- Each thread with its participant. -/
def SimulationRun.cast (run : SimulationRun config) :
    List (Prog (MatchingEngine ℚ) Unit × Participant) :=
  ((List.range config.noiseTraders).map fun (i : Nat) =>
    (noiseRun _ (run.noise i), .noise (i + 1))) ++
    ((List.range config.momentumTraders).map fun (i : Nat) =>
      (momentumRun _ ∅ (run.momentum i), .momentum (config.noiseTraders + i + 1))) ++
    ((List.range config.marketMakers).map fun (i : Nat) =>
      ((config.marketMaker (config.noiseTraders + config.momentumTraders + i + 1)).run
        (run.quotes i), .maker (config.noiseTraders + config.momentumTraders + i + 1))) ++
    [(threadProgram (releaseWatcher 0 run.watcher), .watcher)]

namespace SimulationRun

variable (run : SimulationRun config)

theorem map_fst_cast : run.cast.map Prod.fst = run.threads := by
  simp [cast, threads, Function.comp_def]

theorem map_snd_cast : run.cast.map Prod.snd = config.participants := by
  simp [cast, SimulationConfig.participants, Function.comp_def]

/-- Every thread makes the calls of its participant. -/
theorem plays_cast : ∀ t ∈ run.cast, config.Plays t.2 (fun _ => True) t.1 := by
  simp only [cast, List.forall_mem_append, List.forall_mem_map, List.forall_mem_singleton]
  refine ⟨⟨⟨fun i _ => plays_noiseRun _, fun i _ => plays_momentumRun _ _⟩, fun i _ => ?_⟩,
    plays_releaseWatcher _⟩
  refine MarketMakerBot.Of.plays_run _ ⟨rfl, cent_pos.le⟩ fun tick mem => ?_
  refine ⟨run.picked i tick mem, fun side => ?_⟩
  have five := (run.drawn i tick mem side).1
  omega

/-- The program of a market maker. -/
theorem program_of_maker {p : Prog (MatchingEngine ℚ) Unit} {id : ClientId}
    (mem : (p, .maker id) ∈ run.cast) : ∃ ticks, p = (config.marketMaker id).run ticks := by
  simp only [cast, List.mem_append, List.mem_map, List.mem_singleton] at mem
  rcases mem with ((⟨i, -, same⟩ | ⟨i, -, same⟩) | ⟨i, -, same⟩) | same
  all_goals cases same
  exact ⟨run.quotes i, rfl⟩

/-- Where some threads of a simulation, together with others, have taken the engine, there threads
with scripts take it. -/
theorem scripts_of_sublist {cast : List (Prog (MatchingEngine ℚ) Unit × Participant)}
    (part : cast ⊆ run.cast) (front : List (Prog (MatchingEngine ℚ) Unit))
    {ps : List (Prog (MatchingEngine ℚ) Unit)} {e e' : MatchingEngine ℚ}
    (reached : Interleaves (e, front ++ cast.map Prod.fst) (e', ps)) :
    ∃ scripts, List.Forall₂ (fun calls who => ∀ call ∈ calls, config.Makes who call) scripts
      (cast.map Prod.snd) ∧ ∃ qs,
      Interleaves (e, front ++ scripts.map threadProgram) (e', qs) ∧
      (Finished ps → Finished qs) := by
  have plays : List.Forall₂ (fun p kind => Scripted EngineCall.program kind (fun _ => True) p)
      (cast.map Prod.fst) (cast.map fun t => config.Makes t.2) := by
    rw [List.forall₂_map_left_iff, List.forall₂_map_right_iff, List.forall₂_same]
    exact fun t mem => run.plays_cast t (part mem)
  obtain ⟨scripts, kinds, qs, reached, done⟩ := reached.scripts plays
  refine ⟨scripts, ?_, qs, ?_, done⟩
  · rw [List.forall₂_map_right_iff] at kinds ⊢
    exact kinds
  · rwa [List.map_congr_left fun calls _ => threadProgram_eq_script calls]

/-- **The bots decide nothing that a script could not.** At every moment of every schedule of a
simulation, the engine is as threads leave it that each make a list of calls of their
participant's kind, fixed beforehand; and once all bots have stopped, so have these. -/
theorem scripted_run {e : MatchingEngine ℚ} {ps : List (Prog (MatchingEngine ℚ) Unit)}
    (reached : Interleaves (setUp config.setup, run.threads) (e, ps)) :
    ∃ scripts, List.Forall₂ (fun calls who => ∀ call ∈ calls, config.Makes who call) scripts
      config.participants ∧ ∃ qs,
      Interleaves (setUp config.setup, scripts.map threadProgram) (e, qs) ∧
      (Finished ps → Finished qs) := by
  rw [← run.map_fst_cast] at reached
  have found := run.scripts_of_sublist (List.Subset.refl _) [] reached
  rwa [run.map_snd_cast] at found

end SimulationRun

/-! ### The market of the bots -/

/-- A waiting order of a bot: a stop of a noise trader, with or without a limit, or the protective
stop of a momentum bot, which expires two minutes after its submission. -/
def SimulationConfig.Waiting (config : SimulationConfig ℚ) (o : Order ℚ) : Prop :=
  o.notBefore = none ∧
    (o.client ∈ config.noiseIds ∧ (o.kind = .stop ∨ o.kind = .limitStop) ∨
      o.client ∈ config.momentumIds ∧ o.kind = .stop ∧
        o.expiresAt = some (after o.submittedAt 120))

/-- What may be found in the market of the bots. -/
def SimulationConfig.rules (config : SimulationConfig ℚ) : Rules ℚ where
  member (c : Int) := 1 ≤ c ∧ c ≤ config.clients
  listed s := s ∈ config.allSymbols
  fits o := o.Conditional → config.Waiting o
  reason r := r = "insufficient cash" ∨ r = "insufficient holdings"
  blind _ _ fits := fits

theorem closed_setup (config : SimulationConfig ℚ) :
    Closed config.rules (setUp config.setup) := by
  refine closed_setUp config.setup (fun (c : Int) => ?_) fun s => ?_
  · rw [mem_portfolios_setUp]
    simp only [SimulationConfig.setup, SimulationConfig.makeClient, SimulationConfig.rules,
      List.mem_append, List.mem_map, List.mem_flatMap, List.mem_range, List.mem_cons]
    constructor
    · rintro ⟨_, ⟨s, -, rfl⟩ | ⟨i, small, rfl | ⟨s, -, rfl⟩⟩, account⟩
      · cases account
      all_goals
        cases account
        omega
    · rintro ⟨one, most⟩
      have back : ((c - 1).toNat : Int) + 1 = c := by omega
      exact ⟨_, .inr ⟨(c - 1).toNat, by omega, .inl rfl⟩, congrArg some back⟩
  · rw [mem_books_setUp]
    simp only [SimulationConfig.setup, SimulationConfig.makeClient, SimulationConfig.rules,
      SimulationConfig.allSymbols, List.mem_append, List.mem_map, List.mem_flatMap, List.mem_range,
      List.mem_cons]
    constructor
    · rintro ⟨_, ⟨s', listed, rfl⟩ | ⟨i, -, rfl | ⟨s', -, rfl⟩⟩, listing⟩
      · cases listing
        exact ⟨s', listed, rfl⟩
      all_goals cases listing
    · rintro ⟨s', listed, rfl⟩
      exact ⟨_, .inl ⟨s', listed, rfl⟩, rfl⟩

/-- The clients of the participants. -/
theorem mem_participants {who : Participant} (mem : who ∈ config.participants) :
    match who with
    | .noise id => id ∈ config.noiseIds
    | .momentum id => id ∈ config.momentumIds
    | .maker id => id ∈ config.makerIds
    | .watcher => True := by
  simp only [SimulationConfig.participants, List.mem_append, List.mem_map, List.mem_range,
    List.mem_singleton] at mem
  rcases mem with ((⟨i, small, rfl⟩ | ⟨i, small, rfl⟩) | ⟨i, small, rfl⟩) | rfl
  · exact ⟨(by omega : (1 : Int) ≤ i + 1), (by omega : (i + 1 : Int) ≤ config.noiseTraders)⟩
  · have low : (config.noiseTraders : Int) < config.noiseTraders + i + 1 := by omega
    have high : (config.noiseTraders + i + 1 : Int)
        ≤ config.noiseTraders + config.momentumTraders := by omega
    exact ⟨low, high⟩
  · have low : (config.noiseTraders + config.momentumTraders : Int)
        < config.noiseTraders + config.momentumTraders + i + 1 := by omega
    have high : (config.noiseTraders + config.momentumTraders + i + 1 : Int) ≤ config.clients := by
      rw [SimulationConfig.clients]
      omega
    exact ⟨low, high⟩
  · trivial

/-- A request of a bot passes the first checks, and it waits only as the bots' orders do. -/
theorem SimulationConfig.Sends.admits {id : ClientId} {request : OrderRequest ℚ}
    (sends : config.Sends id request)
    (waits : ∀ i now, (buildOrder request i now).Conditional →
      config.Waiting (buildOrder request i now)) : config.rules.Admits request where
  fits := fun i now _ _ => waits i now
  invalid := by
    intro e listed reason failed
    have known : e.symbolExists request.symbol :=
      decide_eq_true ((listed request.symbol).mpr sends.listed)
    have priced : ¬(request.kind ≠ .market ∧ request.price ≤ 0) := by
      rintro ⟨kind, price⟩
      exact absurd (sends.priced kind) (not_lt.mpr price)
    rw [invalidReason, if_neg (not_le.mpr sends.positive), if_neg priced,
      if_neg (not_not.mpr known)] at failed
    cases failed
  cash := fun _ => .inl rfl
  holdings := fun _ => .inr rfl

/-- An order without a band, and not for later, waits only if it is a stop. -/
theorem kind_of_conditional {request : OrderRequest ℚ} (started : request.notBeforeIn = none)
    (free : request.Free) {i : Nat} {now : Int} (waits : (buildOrder request i now).Conditional) :
    request.kind = .stop := by
  by_contra other
  refine absurd waits ?_
  have kind : request.kind = .market ∨ request.kind = .limit ∨ request.kind = .limitStop := by
    cases same : request.kind with
    | stop => exact absurd same other
    | _ => simp
  rcases kind with kind | kind | kind <;>
    simp [Order.Conditional, buildOrder, kind, started, free.1, free.2]

theorem calls_of_makes {who : Participant} (mem : who ∈ config.participants)
    {call : EngineCall ℚ} (makes : config.Makes who call) : config.rules.Call call := by
  have range := mem_participants mem
  cases call with
  | submitOrder now clock request =>
      cases who with
      | noise id =>
          obtain ⟨sends, plain⟩ := makes
          obtain rfl := sends.own
          refine sends.admits fun i now waits => ⟨?_, .inl ⟨range, ?_⟩⟩
          · simp [buildOrder, sends.started]
          · change request.kind = .stop ∨ request.kind = .limitStop
            cases kind : request.kind with
            | stop => exact .inl rfl
            | limitStop => exact .inr rfl
            | market =>
                have free := plain (.inl kind)
                exact absurd (kind_of_conditional sends.started free waits) (by simp [kind])
            | limit =>
                have free := plain (.inr kind)
                exact absurd (kind_of_conditional sends.started free waits) (by simp [kind])
      | momentum id =>
          obtain ⟨sends, free, kinds⟩ := makes
          obtain rfl := sends.own
          refine sends.admits fun i now waits => ?_
          have stop := kind_of_conditional sends.started free waits
          refine ⟨?_, .inr ⟨range, stop, ?_⟩⟩
          · simp [buildOrder, sends.started]
          · rcases kinds with market | ⟨-, expires⟩
            · exact absurd (stop.symm.trans market) (by simp)
            · simp [buildOrder, expires]
      | maker id =>
          obtain ⟨sends, free, limit⟩ := makes
          refine sends.admits fun i now waits => ?_
          have stop := kind_of_conditional sends.started free waits
          exact absurd (stop.symm.trans limit) (by simp)
      | watcher => cases makes
  | _ => trivial

/-- The market of a simulation is as its rules have it, at every moment of every schedule. -/
theorem SimulationRun.closed (run : SimulationRun config) {e : MatchingEngine ℚ}
    {ps : List (Prog (MatchingEngine ℚ) Unit)}
    (reached : Interleaves (setUp config.setup, run.threads) (e, ps)) :
    Reached e ∧ Closed config.rules e := by
  obtain ⟨scripts, kinds, qs, reached, -⟩ := run.scripted_run reached
  refine (closed_setup config).of_interleaves (fun calls mem call made => ?_) reached
  obtain ⟨who, known, makes⟩ := exists_of_forall₂ kinds.flip mem
  exact calls_of_makes known (makes call made)

/-- **Only what cannot be paid or delivered is rejected.** Under every schedule, whatever the bots
draw and read, no request of theirs fails one of the first checks of the engine: every rejection
that is published is one of the risk check. -/
theorem onlyRiskRejections (run : SimulationRun config) {e : MatchingEngine ℚ}
    {ps : List (Prog (MatchingEngine ℚ) Unit)}
    (reached : Interleaves (setUp config.setup, run.threads) (e, ps)) (id : Nat)
    (client : ClientId) (reason : String)
    (rejected : .orderRejected id client reason ∈ e.published) :
    reason = "insufficient cash" ∨ reason = "insufficient holdings" :=
  (run.closed reached).2.rejections id client reason rejected

/-- **What waits are the bots' stops.** Under every schedule each order in the registry is a stop of
a noise trader, with or without a limit, or the stop of a momentum bot, which expires two minutes
after its submission; no order of a market maker waits, and none waits for a date. -/
theorem waiting_of_bots (run : SimulationRun config) {e : MatchingEngine ℚ}
    {ps : List (Prog (MatchingEngine ℚ) Unit)}
    (reached : Interleaves (setUp config.setup, run.threads) (e, ps)) :
    ∀ o ∈ e.waitingOrders, config.Waiting o := by
  intro o mem
  obtain ⟨⟨φs, inv, -⟩, closed⟩ := run.closed reached
  obtain ⟨proper, waits⟩ := closed.waits o (inv.engine.registry.mem_allWaiting.mp mem)
  exact proper.fits waits

/-! ### The market makers -/

/-- No two threads have the same participant. -/
theorem nodup_participants : config.participants.Nodup := by
  have noise : Function.Injective fun (i : Nat) => Participant.noise (i + 1) := by
    intro i j same
    simpa using same
  have momentum : Function.Injective fun (i : Nat) =>
      Participant.momentum (config.noiseTraders + i + 1) := by
    intro i j same
    simpa using same
  have maker : Function.Injective fun (i : Nat) =>
      Participant.maker (config.noiseTraders + config.momentumTraders + i + 1) := by
    intro i j same
    simpa using same
  simp only [SimulationConfig.participants, List.nodup_append, List.mem_append, List.mem_map,
    List.mem_singleton]
  refine ⟨⟨⟨List.nodup_range.map noise, List.nodup_range.map momentum, ?_⟩,
    List.nodup_range.map maker, ?_⟩, List.nodup_singleton _, ?_⟩
  · rintro _ ⟨i, -, rfl⟩ _ ⟨j, -, rfl⟩ same
    cases same
  · rintro _ (⟨i, -, rfl⟩ | ⟨i, -, rfl⟩) _ ⟨j, -, rfl⟩ same <;> cases same
  · rintro _ ((⟨i, -, rfl⟩ | ⟨i, -, rfl⟩) | ⟨i, -, rfl⟩) _ rfl same <;> cases same

/-- A call of another participant is not by the client. -/
theorem notBy_of_makes {who : Participant} (known : who ∈ config.participants) {id : ClientId}
    (maker : id ∈ config.makerIds) (other : who ≠ .maker id) {call : EngineCall ℚ}
    (makes : config.Makes who call) : call.NotBy id := by
  have range := mem_participants known
  cases call with
  | submitOrder now clock request =>
      rintro rfl
      obtain ⟨above, -⟩ := maker
      cases who with
      | noise c =>
          obtain rfl := makes.1.own
          obtain ⟨-, most⟩ := range
          have few : (config.noiseTraders : Int)
              ≤ config.noiseTraders + config.momentumTraders := by omega
          exact absurd (above.trans_le most) (not_lt.mpr few)
      | momentum c =>
          obtain rfl := makes.1.own
          exact absurd (above.trans_le range.2) (lt_irrefl _)
      | maker c => exact other (congrArg Participant.maker makes.1.own.symm)
      | watcher => cases makes
  | _ => trivial

/-- A market maker among threads that do not submit in its client's name. -/
theorem remembers_of_interleaves {setup : List (SetupCall ℚ)} {bot : MarketMakerBot ℚ}
    {ticks : List (QuoteTick ℚ)} {others : List (List (EngineCall ℚ))}
    (alone : ∀ calls ∈ others, ∀ call ∈ calls, call.NotBy bot.client) {e : MatchingEngine ℚ}
    {ps : List (Prog (MatchingEngine ℚ) Unit)}
    (run : Interleaves (setUp setup, bot.run ticks :: others.map threadProgram) (e, ps)) :
    Reached e ∧ ∃ bot', Remembers bot.client bot' e := by
  have programs : ((bot.run ticks, (.idle : Phase ℚ)) :: startThreads others).map Prod.fst
      = bot.run ticks :: others.map threadProgram := by
    simp [startThreads]
  have following : Following Move (fun _ φ => φ = .idle)
      ((bot.run ticks, (.idle : Phase ℚ)) :: startThreads others) :=
    List.forall_mem_cons.mpr ⟨performs_run ticks bot, following_startThreads others⟩
  have idle : ∀ φ ∈ phases ((bot.run ticks, (.idle : Phase ℚ)) :: startThreads others),
      φ = .idle :=
    List.forall_mem_cons.mpr ⟨rfl, phases_startThreads⟩
  have always : ∀ c, Interleaves (setUp setup, bot.run ticks :: others.map threadProgram) c →
      Reached c.1 := fun c run => sound_of_run programs following idle run
  have none : Remembers bot.client bot (setUp setup) := by
    refine ⟨rfl, fun s r mem _ => ?_, fun w waiting _ => ?_⟩
    · rw [(idle_setUp setup).book s] at mem
      cases mem
    · rw [(idle_setUp setup).registry] at waiting
      cases waiting
  have harmless : ∀ q ∈ others.map threadProgram, Harmless bot.client q := by
    intro q mem
    obtain ⟨calls, known, rfl⟩ := List.mem_map.mp mem
    exact harmless_threadProgram calls (alone calls known)
  obtain ⟨s, p, ps', bot', same, remembers, -⟩ :=
    interleaves_knows always none (tracks_run ticks bot) harmless run
  obtain ⟨rfl, -⟩ := Prod.mk.inj same
  exact ⟨always _ run, bot', remembers⟩

/-- **The market makers never pile up quotes.** Under every schedule of a simulation, and whatever
its bots draw and read, each market maker has at most one order of each side in all books
together, and none in the registry. -/
theorem oneQuoteOfEachMaker (run : SimulationRun config) {e : MatchingEngine ℚ}
    {ps : List (Prog (MatchingEngine ℚ) Unit)}
    (reached : Interleaves (setUp config.setup, run.threads) (e, ps)) {id : ClientId}
    (maker : .maker id ∈ config.participants) :
    (∀ side, (e.allResting.filter fun o => o.client = id ∧ o.side = side).length ≤ 1) ∧
      ∀ o ∈ e.waitingOrders, o.client ≠ id := by
  have nodup : (run.cast.map Prod.snd).Nodup := run.map_snd_cast ▸ nodup_participants
  have range := mem_participants maker
  rw [← run.map_snd_cast] at maker
  rw [← run.map_fst_cast] at reached
  obtain ⟨⟨p, who⟩, mem, rfl⟩ := List.mem_map.mp maker
  obtain ⟨ticks, rfl⟩ := run.program_of_maker mem
  -- the market maker's thread goes to the front, and the others get scripts
  obtain ⟨before, after, split⟩ := List.append_of_mem mem
  have part : before ++ after ⊆ run.cast := by
    rw [split]
    exact (List.Sublist.append_left (List.sublist_cons_self _ _) _).subset
  rw [split, List.map_append, List.map_cons, List.nodup_middle, ← List.map_append,
    List.nodup_cons] at nodup
  rw [split, List.map_append, List.map_cons] at reached
  obtain ⟨ps', -, front⟩ := reached.perm List.perm_middle
  rw [← List.map_append] at front
  obtain ⟨scripts, kinds, qs, scripted, -⟩ :=
    run.scripts_of_sublist part [(config.marketMaker id).run ticks] front
  have alone : ∀ calls ∈ scripts, ∀ call ∈ calls, call.NotBy id := by
    intro calls made call mem
    obtain ⟨who, known, makes⟩ := exists_of_forall₂ kinds.flip made
    have listed : who ∈ config.participants := by
      rw [← run.map_snd_cast]
      exact List.map_subset _ part known
    exact notBy_of_makes listed range (fun same => nodup.1 (same ▸ known)) (makes call mem)
  obtain ⟨⟨φs, inv, -⟩, bot, remembers⟩ := remembers_of_interleaves alone scripted
  refine ⟨fun side => ?_, fun o waiting => ?_⟩
  · have one : ∀ o ∈ e.allResting, o.client = id ∧ o.side = side →
        o.id = bot.lastOrder side := by
      rintro o rests ⟨owner, rfl⟩
      obtain ⟨s, mem⟩ := mem_allResting.mp rests
      exact (remembers.rests s o mem owner).2.1
    exact length_filter_le_one inv.engine.nodup_allResting _ one
  · exact remembers.waits o (inv.engine.registry.mem_allWaiting.mp waiting)

end

/-! ### A small market -/

/-- One bot of each kind, with little cash. -/
def smallMarket : SimulationConfig ℚ where
  symbols := [⟨"AAPL", 100, 0.20⟩]
  noiseTraders := 1
  momentumTraders := 1
  marketMakers := 1
  botInitialCash := 500
  botInitialShares := 50

theorem offsetScale_smallMarket (id : ClientId) :
    (smallMarket.bot id).offsetScale 0.10 "AAPL" = 0.01 := by
  change clamp ((smallMarket.volatilities.lookup "AAPL").getD 0.20 / 20.0) 0.002 0.10 = (0.01 : ℚ)
  decide +kernel

/-- A step in the middle of what may be drawn. -/
def smallTick (id : ClientId) (side : Side) (kind : OrderKind) :
    NoiseTick (smallMarket.bot id) where
  symbol := "AAPL"
  picked := List.mem_singleton_self _
  marketPrice := 0
  side := side
  quantity := ⟨7, by omega⟩
  kind := kind
  expiresIn := none
  offset := ⟨0, by rw [offsetScale_smallMarket]; decide +kernel⟩
  stopOffset := ⟨0.02, by rw [offsetScale_smallMarket]; decide +kernel⟩
  bandBelow := ⟨0.02, by rw [offsetScale_smallMarket]; decide +kernel⟩
  bandAbove := ⟨0.02, by rw [offsetScale_smallMarket]; decide +kernel⟩
  now := 0
  clock := fun _ => 0

/-- The noise trader asks for more than it can pay, and then for a stop. -/
def smallRun : SimulationRun smallMarket where
  noise i := [smallTick (i + 1) .buy .market, smallTick (i + 1) .sell .stop]
  momentum _ := []
  quotes _ := [⟨"AAPL", 0, fun _ => 5, fun _ => 0, fun _ _ => 0⟩]
  watcher := [⟨⟨⟨.stored, fun _ => .stored⟩, .stored⟩, 0, fun _ _ => 0⟩]
  picked _ tick mem := by
    rw [List.mem_singleton.mp mem]
    exact List.mem_singleton_self _
  drawn _ tick mem side := by
    rw [List.mem_singleton.mp mem]
    exact ⟨le_refl 5, (by decide : (5 : Int) ≤ 20)⟩

/-- The market maker goes first, then the noise trader, then the watcher. -/
theorem exists_smallRun : ∃ e ps, Interleaves (setUp smallMarket.setup, smallRun.threads) (e, ps) ∧
    e.published.filterMap (fun event => match event with
      | .orderRejected _ client reason => some (client, reason)
      | _ => none) = [(1, "insufficient cash")] ∧
    e.waitingOrders.map (fun o => (o.client, o.kind)) = [(1, .stop)] ∧
    e.allResting.map (fun o => (o.client, o.side)) = [(3, .buy), (3, .sell)] := by
  let noise := noiseRun _ (smallRun.noise 0)
  let momentum := momentumRun _ ∅ (smallRun.momentum 0)
  let maker := (smallMarket.marketMaker 3).run (smallRun.quotes 0)
  let watcher := threadProgram (releaseWatcher 0 smallRun.watcher)
  have first := interleaves_exec [noise, momentum] [watcher] maker (setUp smallMarket.setup)
  have second := interleaves_exec [] [momentum, .ret (), watcher] noise
    (maker.exec (setUp smallMarket.setup)).2
  have third := interleaves_exec [.ret (), momentum, .ret ()] [] watcher
    (noise.exec (maker.exec (setUp smallMarket.setup)).2).2
  refine ⟨_, _, first.trans (second.trans third), ?_, ?_, ?_⟩
  all_goals decide +kernel

theorem scripted_run_smallRun : ∃ e ps,
    Interleaves (setUp smallMarket.setup, smallRun.threads) (e, ps) ∧ ∃ scripts,
      List.Forall₂ (fun calls who => ∀ call ∈ calls, smallMarket.Makes who call) scripts
        smallMarket.participants ∧ ∃ qs,
      Interleaves (setUp smallMarket.setup, scripts.map threadProgram) (e, qs) := by
  obtain ⟨e, ps, reached, -⟩ := exists_smallRun
  obtain ⟨scripts, kinds, qs, scripted, -⟩ := smallRun.scripted_run reached
  exact ⟨e, ps, reached, scripts, kinds, qs, scripted⟩

theorem onlyRiskRejections_smallRun : ∃ e ps,
    Interleaves (setUp smallMarket.setup, smallRun.threads) (e, ps) ∧ ∃ id client reason,
      .orderRejected id client reason ∈ e.published ∧
      (reason = "insufficient cash" ∨ reason = "insufficient holdings") := by
  obtain ⟨e, ps, reached, rejected, -⟩ := exists_smallRun
  obtain ⟨event, mem, same⟩ :=
    List.mem_filterMap.mp (rejected.symm ▸ List.mem_singleton_self (1, "insufficient cash"))
  cases event with
  | orderRejected id client reason =>
      have risk := onlyRiskRejections smallRun reached id client reason mem
      exact ⟨e, ps, reached, id, client, reason, mem, risk⟩
  | _ => cases same

theorem waiting_of_bots_smallRun : ∃ e ps,
    Interleaves (setUp smallMarket.setup, smallRun.threads) (e, ps) ∧
      e.waitingOrders.map (fun o => (o.client, o.kind)) = [(1, .stop)] ∧
      ∀ o ∈ e.waitingOrders, smallMarket.Waiting o := by
  obtain ⟨e, ps, reached, -, stop, -⟩ := exists_smallRun
  exact ⟨e, ps, reached, stop, waiting_of_bots smallRun reached⟩

theorem oneQuoteOfEachMaker_smallRun : ∃ e ps,
    Interleaves (setUp smallMarket.setup, smallRun.threads) (e, ps) ∧
      e.allResting.map (fun o => (o.client, o.side)) = [(3, .buy), (3, .sell)] ∧
      ∀ side, (e.allResting.filter fun o => o.client = 3 ∧ o.side = side).length ≤ 1 := by
  obtain ⟨e, ps, reached, -, -, quotes⟩ := exists_smallRun
  have maker : .maker 3 ∈ smallMarket.participants := by
    simp [SimulationConfig.participants, smallMarket]
  exact ⟨e, ps, reached, quotes, (oneQuoteOfEachMaker smallRun reached maker).1⟩

end StockMarket
