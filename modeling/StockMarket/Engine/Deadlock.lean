import StockMarket.Locking

/-!
Neither program deadlocks.

All locks are taken in one ascending order (`rank`), and only `main` waits for threads. What is left
are the two conditions of the bus. `main` flushes while the worker runs: what is in flight is what
the worker has still to give back (`WorkerAt`), so that the worker meets the condition of `flush`.
The worker may wait for events, but only until `main` asks it to stop.
-/

namespace StockMarket.Locking

open Locks
open Code (block await)

/-! ### The order of the locks -/

def rank : Mutex → Nat
  | .subscription => 0
  | .subscribers => 1
  | .recorder | .marketData => 2
  | .portfolios | .registry | .directory => 3
  | .books => 4
  | .book _ | .prices | .dirty | .queue | .sampler => 5
  | .logger => 6

/-- `main` waits for the others. -/
def level : ThreadName → Nat
  | .main => 0
  | _ => 1

/-- What code other than the worker's loop and the bus's destructor does: only the worker changes
what is in flight, nobody asks the bus to stop, and only `main` waits, for what the worker meets
and for threads other than the worker. -/
def Permitted : ThreadName → Program → Prop
  | own, .act f => ∀ s, (f s).stopping = s.stopping ∧ (own ≠ .worker → (f s).inFlight = s.inFlight)
  | own, .serve _ ready take _ => own = .main ∧
      (∀ s, s.queue = 0 → s.inFlight = 0 → ready s = true) ∧
      ∀ s, (take s).2.stopping = s.stopping ∧ (take s).2.inFlight = s.inFlight
  | _, .fork name _ => name ≠ .main ∧ name ≠ .worker
  | own, .join name => own = .main ∧ name ≠ .main ∧ name ≠ .worker
  | _, _ => True

abbrev Safe : ThreadName → Nat → Program → Prop := Code.Safe rank level Permitted

section

variable {own name : ThreadName} {b : Nat} {c : Program} {m : Mutex}

@[simp] theorem safe_oneOf {codes : List Program} :
    Safe own b (oneOf codes) ↔ ∀ c ∈ codes, Safe own b c := by
  induction codes with
  | nil => simp [oneOf]
  | cons c codes ih => rw [List.forall_mem_cons, ← ih]; exact Code.safe_either

@[simp] theorem safe_maybe : Safe own b (maybe c) ↔ Safe own b c := by simp [maybe]

@[simp] theorem safe_locked : Safe own b (locked m) ↔ b ≤ rank m := by simp [locked]

@[simp] theorem safe_read : Safe own b (read m) ↔ b ≤ rank m := by simp [read]

@[simp] theorem safe_log : Safe own b log ↔ b ≤ 6 := by simp [log, rank]

end

/-! ### Every function keeps to the order -/

section

variable {own : ThreadName} {b : Nat} {symbol : Symbol} {symbols : List Symbol}

@[simp] theorem publish_safe : Safe own b NotificationBus.publish ↔ b ≤ 5 := by
  simp [NotificationBus.publish, Permitted, rank]

/-- The condition of `flush` is that of an idle worker. -/
theorem flush_safe : Safe .main 0 NotificationBus.flush := by
  refine ⟨⟨rfl, trivial⟩, ⟨rfl, fun s empty none => ?_, fun s => ⟨rfl, rfl⟩⟩, trivial⟩
  exact decide_eq_true ⟨empty, none⟩

@[simp] theorem lastPrice_safe : Safe own b MatchingEngine.lastPrice ↔ b ≤ 5 := by
  simp [MatchingEngine.lastPrice, rank]

@[simp] theorem allLastPrices_safe : Safe own b MatchingEngine.allLastPrices ↔ b ≤ 5 := by
  simp [MatchingEngine.allLastPrices, rank]

@[simp] theorem symbols_safe : Safe own b MatchingEngine.symbols ↔ b ≤ 4 := by
  simp [MatchingEngine.symbols, rank]

/-- The recorder takes snapshots under its own lock. -/
@[simp] theorem snapshot_safe : Safe own b (MatchingEngine.snapshot symbol) ↔ b ≤ 4 := by
  simp [MatchingEngine.snapshot, MatchingEngine.symbolExists, MatchingEngine.bookFor,
    OrderBook.snapshot, rank]
  omega

@[simp] theorem restingOrders_safe : Safe own b (MatchingEngine.restingOrders symbol) ↔ b ≤ 4 := by
  simp [MatchingEngine.restingOrders, MatchingEngine.symbolExists, MatchingEngine.bookFor,
    OrderBook.restingOrders, rank]
  omega

theorem registerSymbol_safe : Safe own 0 MatchingEngine.registerSymbol := by
  simp [MatchingEngine.registerSymbol]

theorem matchAndSettle_safe : Safe own 0 (MatchingEngine.matchAndSettle symbol) := by
  simp [MatchingEngine.matchAndSettle, MatchingEngine.bookFor, OrderBook.match_,
    MatchingEngine.settle, MatchingEngine.markDirty]

/-- The prices are read while the portfolios are locked. -/
theorem passesRiskCheck_safe : Safe own 0 MatchingEngine.passesRiskCheck := by
  simp [MatchingEngine.passesRiskCheck, rank]

theorem submitOrder_safe : Safe own 0 (MatchingEngine.submitOrder symbol) := by
  simp [MatchingEngine.submitOrder, MatchingEngine.symbolExists, OrderRegistry.add,
    passesRiskCheck_safe, matchAndSettle_safe]

/-- And while the registry is. -/
theorem tryReleaseWaitingOrders_safe :
    Safe own 0 (MatchingEngine.tryReleaseWaitingOrders symbols) := by
  simp [MatchingEngine.tryReleaseWaitingOrders, OrderRegistry.scanAndRelease,
    OrderRegistry.scanAndReleaseSymbol, MatchingEngine.drainDirtySymbols, rank,
    matchAndSettle_safe]

theorem cancelOrder_safe : Safe own 0 (MatchingEngine.cancelOrder symbol) := by
  simp [MatchingEngine.cancelOrder, MatchingEngine.symbolExists, MatchingEngine.bookFor,
    OrderBook.cancel]

/-- Subscribers are called under a lock that comes before theirs. -/
theorem subscribers_safe : Safe own 2 subscribers := by
  simp [subscribers, MarketData.onEvent, MarketRecorder.onEvent, rank]

theorem takeSample_safe : Safe own 0 (MarketRecorder.takeSample symbols) := by
  simp [MarketRecorder.takeSample, MatchingEngine.allPortfolios]

theorem samplerLoop_safe : Safe own 0 (MarketRecorder.samplerLoop symbols) := by
  simp [MarketRecorder.samplerLoop, takeSample_safe]

theorem recorder_start_safe : Safe own 0 (MarketRecorder.start symbols) := by
  simp [MarketRecorder.start, NotificationBus.subscribe, takeSample_safe, samplerLoop_safe, rank,
    Permitted]

theorem recorder_destroy_safe : Safe .main 0 MarketRecorder.destroy := by
  simp [MarketRecorder.destroy, MarketRecorder.stop, MarketRecorder.unsubscribe,
    NotificationBus.unsubscribe, rank, level, Permitted]

theorem writeReport_safe : Safe .main 0 (MarketRecorder.writeReport symbols) := by
  simp [MarketRecorder.writeReport, flush_safe, takeSample_safe, MatchingEngine.allPortfolios,
    MatchingEngine.waitingOrders, OrderRegistry.allWaiting, rank]

theorem bot_step_safe {kind : BotKind} : Safe own 0 (TradingBot.step symbols kind) := by
  cases kind <;> simp [TradingBot.step, TradingBot.referencePrice, MarketData.get,
    submitOrder_safe, cancelOrder_safe]

theorem startBots_safe {bots : List BotKind} : Safe own 0 (Simulation.startBots symbols bots) := by
  refine Code.safe_block.mpr (List.forall_mem_map.mpr fun bot _ => ?_)
  simp [TradingBot.run, bot_step_safe, Permitted]

theorem stopBots_safe {bots : List BotKind} : Safe .main 0 (Simulation.stopBots bots) := by
  refine Code.safe_block.mpr (List.forall_mem_map.mpr fun bot _ => ?_)
  simp [level, Permitted]

theorem simulation_run_safe {bots : List BotKind} :
    Safe .main 0 (Simulation.run symbols bots) := by
  simp [Simulation.run, Simulation.runReleaseWatcher, Simulation.runMetricsRecorder,
    MatchingEngine.waitingOrderCount, OrderRegistry.size, MarketRecorder.stop, MarketData.get,
    MatchingEngine.portfolioSnapshot, tryReleaseWaitingOrders_safe, recorder_start_safe,
    startBots_safe, stopBots_safe, writeReport_safe, level, Permitted]

theorem simulation_main_safe {bots : List BotKind} :
    Safe .main 0 (Simulation.main symbols bots) := by
  simp [Simulation.main, Simulation.construct, Simulation.destroy, MarketData.construct,
    MarketData.destroy, NotificationBus.subscribe, NotificationBus.unsubscribe,
    MatchingEngine.ensureClient, MatchingEngine.grantInitialHoldings, registerSymbol_safe,
    simulation_run_safe, recorder_destroy_safe]

theorem save_safe : Safe own 0 PersistenceStore.save := by
  simp [PersistenceStore.save, ClientDirectory.call, MatchingEngine.allPortfolios]

theorem load_safe : Safe own 0 PersistenceStore.load := by
  simp [PersistenceStore.load, ClientDirectory.call, MatchingEngine.ensureClient,
    MatchingEngine.grantInitialHoldings, registerSymbol_safe]

theorem dispatchCommand_safe : Safe own 0 (SimulationServer.dispatchCommand symbols) := by
  simp [SimulationServer.dispatchCommand, submitOrder_safe, cancelOrder_safe,
    MatchingEngine.cancelWaitingOrder, OrderRegistry.cancel, MatchingEngine.portfolioSnapshot,
    MarketData.get, MatchingEngine.waitingOrderCount, OrderRegistry.size]

theorem handleConnection_safe : Safe own 0 (SimulationServer.handleConnection symbols) := by
  simp [SimulationServer.handleConnection, SimulationServer.authenticate, ClientDirectory.call,
    MatchingEngine.ensureClient, MatchingEngine.grantInitialHoldings, dispatchCommand_safe]

theorem server_start_safe : Safe .main 0 (SimulationServer.start symbols) := by
  simp [SimulationServer.start, SimulationServer.acceptLoop, SimulationServer.watcherLoop,
    SimulationServer.persistenceLoop, SimulationServer.metricsLoop, handleConnection_safe,
    tryReleaseWaitingOrders_safe, save_safe, MatchingEngine.waitingOrderCount, OrderRegistry.size,
    Permitted]

theorem server_main_safe : Safe .main 0 (SimulationServer.main symbols) := by
  simp [SimulationServer.main, SimulationServer.stop, MarketRecorder.stop, MarketData.construct,
    MarketData.destroy, NotificationBus.subscribe, NotificationBus.unsubscribe,
    registerSymbol_safe, load_safe, save_safe, recorder_start_safe, recorder_destroy_safe,
    writeReport_safe, server_start_safe, level, Permitted]

end

/-! ### What a permitted step does -/

section

variable {p : Pool ThreadName Mutex BusState} {frame : Frame ThreadName Mutex BusState}
  {data : BusState} {new rest : List (Frame ThreadName Mutex BusState)}
  {forked : List (Thread ThreadName Mutex BusState)} {own : ThreadName}

/-- It leaves permitted code behind, and the worker alone changes what is in flight. -/
theorem steps_permitted (steps : frame.Steps p data new forked)
    (every : ∀ c, frame = .run c → c.Every Permitted own) :
    data.stopping = p.data.stopping ∧ (own ≠ .worker → data.inFlight = p.data.inFlight) ∧
      ∀ t ∈ forked, (t.name ≠ .main ∧ t.name ≠ .worker) ∧ t.Every Permitted := by
  have started := (steps.every every).2
  cases steps with
  | act f => exact ⟨(every _ rfl p.data).1, (every _ rfl p.data).2,
      List.forall_mem_nil _⟩
  | take c free met =>
      have kept := (every _ rfl).1.2.2 p.data
      exact ⟨kept.1, fun _ => kept.2, List.forall_mem_nil _⟩
  | fork name c =>
      refine ⟨rfl, fun _ => rfl, List.forall_mem_singleton.mpr ?_⟩
      exact ⟨(every _ rfl).1, started _ List.mem_cons_self⟩
  | _ => exact ⟨rfl, fun _ => rfl, List.forall_mem_nil _⟩

/-! ### The bus's worker and main -/

/-- Frames of permitted code. -/
def Quiet (own : ThreadName) (front : List (Frame ThreadName Mutex BusState)) : Prop :=
  ∀ c, .run c ∈ front → c.Every Permitted own

/-- Where `main` is: at its program, or at the destructor of the bus. -/
inductive MainAt (s : BusState) : List (Frame ThreadName Mutex BusState) → Prop where
  | running {front : List (Frame ThreadName Mutex BusState)} (going : s.stopping = false)
      (quiet : Quiet .main front) :
      MainAt s (front ++ [.run NotificationBus.requestStop, .run (.join .worker)])
  | stop (going : s.stopping = false) :
      MainAt s [.run (.act fun s => { s with stopping := true }), .release .queue .exclusive,
        .run (.join .worker)]
  | stopped (stopping : s.stopping = true) :
      MainAt s [.release .queue .exclusive, .run (.join .worker)]
  | joining (stopping : s.stopping = true) : MainAt s [.run (.join .worker)]
  | finished (stopping : s.stopping = true) : MainAt s []

/-- Where the worker is: in a round or between two, or it has been told to stop. -/
inductive WorkerAt (s : BusState) : List (Frame ThreadName Mutex BusState) → Prop where
  | running {front : List (Frame ThreadName Mutex BusState)} {d : Int} (quiet : Quiet .worker front)
      (owes : OwesAll BusState.inFlight front d) (inFlight : s.inFlight + d = 0) :
      WorkerAt s (front ++ [.run (NotificationBus.run subscribers)])
  | leaving (stopping : s.stopping = true) : WorkerAt s [.release .queue .exclusive]
  | finished (stopping : s.stopping = true) : WorkerAt s []

theorem MainAt.congr {s s' : BusState} {stack : List (Frame ThreadName Mutex BusState)}
    (position : MainAt s stack) (same : s'.stopping = s.stopping) : MainAt s' stack := by
  cases position with
  | running going quiet => exact .running (same ▸ going) quiet
  | stop going => exact .stop (same ▸ going)
  | stopped stopping => exact .stopped (same ▸ stopping)
  | joining stopping => exact .joining (same ▸ stopping)
  | finished stopping => exact .finished (same ▸ stopping)

theorem WorkerAt.mono {s s' : BusState} {stack : List (Frame ThreadName Mutex BusState)}
    (position : WorkerAt s stack) (same : s'.inFlight = s.inFlight)
    (stays : s.stopping = true → s'.stopping = true) : WorkerAt s' stack := by
  cases position with
  | running quiet owes inFlight => exact .running quiet owes (same ▸ inFlight)
  | leaving stopping => exact .leaving (stays stopping)
  | finished stopping => exact .finished (stays stopping)

theorem Quiet.steps (quiet : Quiet own (frame :: rest)) (steps : frame.Steps p data new forked) :
    Quiet own (new ++ rest) := by
  intro c mem
  rcases List.mem_append.mp mem with first | later
  · exact (steps.every fun c here => quiet c (here ▸ List.mem_cons_self)).1 c first
  · exact quiet c (List.mem_cons_of_mem _ later)

/-- A round of the worker gives back what it has taken. -/
theorem dispatch_owes : (NotificationBus.dispatch subscribers).Owes BusState.inFlight (-1) := by
  have silent : subscribers.Owes BusState.inFlight 0 := by
    simp [subscribers, oneOf, MarketData.onEvent, MarketRecorder.onEvent, maybe, locked, log,
      Code.Owes]
  exact ⟨0, -1, silent, ⟨-1, 0, fun s => rfl, rfl, rfl⟩, rfl⟩

theorem subscribers_quiet : Quiet .worker [.run (NotificationBus.dispatch subscribers)] := by
  intro c mem
  obtain rfl := Frame.run.inj (List.mem_singleton.mp mem)
  have told : subscribers.Every Permitted .worker := subscribers_safe.2
  refine ⟨told, fun s => ⟨rfl, fun other => ?_⟩, trivial⟩
  exact absurd rfl other

theorem WorkerAt.moves (position : WorkerAt p.data (frame :: rest))
    (steps : frame.Steps p data new forked) :
    WorkerAt data (new ++ rest) ∧ data.stopping = p.data.stopping ∧
      ∀ t ∈ forked, (t.name ≠ .main ∧ t.name ≠ .worker) ∧ t.Every Permitted := by
  generalize stack : frame :: rest = all at position
  cases position with
  | @running front d quiet owes inFlight =>
      cases front with
      | nil =>
          obtain ⟨rfl, rfl⟩ := List.cons.inj stack
          obtain rfl : d = 0 := owes
          rw [Int.add_zero] at inFlight
          simp only [NotificationBus.run] at steps
          cases steps with
          | take c free met =>
              by_cases last : p.data.queue = 0 ∧ p.data.stopping = true
              · simp only [if_pos last]
                exact ⟨.leaving last.2, trivial, List.forall_mem_nil _⟩
              · simp only [if_neg last]
                refine ⟨?_, trivial, List.forall_mem_nil _⟩
                have round : OwesAll BusState.inFlight
                    [.release .queue .exclusive,
                        .run (NotificationBus.dispatch subscribers)] (-1) :=
                  ⟨-1, 0, dispatch_owes, rfl, rfl⟩
                refine .running ?_ round ?_
                · intro c mem
                  rcases List.mem_cons.mp mem with here | later
                  · cases here
                  · exact subscribers_quiet c later
                · change p.data.inFlight + 1 + -1 = 0
                  omega
      | cons first front =>
          obtain ⟨rfl, rfl⟩ := List.cons.inj stack
          obtain ⟨same, -, started⟩ := steps_permitted steps fun c here =>
            quiet c (here ▸ List.mem_cons_self)
          obtain ⟨d', owes', paid⟩ := steps.owes owes
          refine ⟨?_, same, started⟩
          exact List.append_assoc new front _ ▸ .running (quiet.steps steps) owes' (by omega)
  | leaving stopping =>
      obtain ⟨rfl, rfl⟩ := List.cons.inj stack
      cases steps with
      | release => exact ⟨.finished stopping, rfl, List.forall_mem_nil _⟩
  | finished => cases stack

theorem MainAt.moves (position : MainAt p.data (frame :: rest))
    (steps : frame.Steps p data new forked) :
    MainAt data (new ++ rest) ∧ data.inFlight = p.data.inFlight ∧
      (p.data.stopping = true → data.stopping = true) ∧
      ∀ t ∈ forked, (t.name ≠ .main ∧ t.name ≠ .worker) ∧ t.Every Permitted := by
  generalize stack : frame :: rest = all at position
  cases position with
  | @running front going quiet =>
      cases front with
      | nil =>
          obtain ⟨rfl, rfl⟩ := List.cons.inj stack
          simp only [NotificationBus.requestStop] at steps
          cases steps with
          | lock c free => exact ⟨.stop going, rfl, id, List.forall_mem_nil _⟩
      | cons first front =>
          obtain ⟨rfl, rfl⟩ := List.cons.inj stack
          obtain ⟨same, kept, started⟩ := steps_permitted steps fun c here =>
            quiet c (here ▸ List.mem_cons_self)
          refine ⟨?_, kept ThreadName.noConfusion, fun stopping => same ▸ stopping, started⟩
          exact List.append_assoc new front _ ▸ .running (same ▸ going) (quiet.steps steps)
  | stop going =>
      obtain ⟨rfl, rfl⟩ := List.cons.inj stack
      cases steps with
      | act => exact ⟨.stopped rfl, rfl, fun _ => rfl, List.forall_mem_nil _⟩
  | stopped stopping =>
      obtain ⟨rfl, rfl⟩ := List.cons.inj stack
      cases steps with
      | release => exact ⟨.joining stopping, rfl, id, List.forall_mem_nil _⟩
  | joining stopping =>
      obtain ⟨rfl, rfl⟩ := List.cons.inj stack
      cases steps with
      | join => exact ⟨.finished stopping, rfl, id, List.forall_mem_nil _⟩
  | finished => cases stack

end

/-- `main` has finished only when the bus is stopping. -/
theorem MainAt.ended {s : BusState} (position : MainAt s []) : s.stopping = true := by
  generalize stack : [] = all at position
  cases position with
  | running => exact absurd stack.symm (List.append_ne_nil_of_right_ne_nil _ (List.cons_ne_nil _ _))
  | finished stopping => exact stopping
  | _ => cases stack

/-- So has the worker. -/
theorem WorkerAt.ended {s : BusState} (position : WorkerAt s []) : s.stopping = true := by
  generalize stack : [] = all at position
  cases position with
  | running => exact absurd stack.symm (List.append_ne_nil_of_right_ne_nil _ (List.cons_ne_nil _ _))
  | leaving => cases stack
  | finished stopping => exact stopping

/-- The first two threads are `main` and the worker of the bus, and the others run permitted
code. -/
def Running (p : Pool ThreadName Mutex BusState) : Prop :=
  ∃ main worker others, p.threads = ⟨.main, main⟩ :: ⟨.worker, worker⟩ :: others ∧
    MainAt p.data main ∧ WorkerAt p.data worker ∧
    ∀ t ∈ others, (t.name ≠ .main ∧ t.name ≠ .worker) ∧ t.Every Permitted

/-- A step keeps them so. -/
theorem Running.step {p p' : Pool ThreadName Mutex BusState} (running : Running p)
    (step : Step p p') : Running p' := by
  obtain ⟨main, worker, others, threads, atMain, atWorker, permitted⟩ := running
  cases step with
  | @move data data' before after forked name frame rest new steps =>
      cases before with
      | nil =>
          obtain ⟨moved, rfl⟩ := List.cons.inj threads
          obtain ⟨rfl, rfl⟩ := Thread.mk.inj moved
          obtain ⟨moves, same, stays, started⟩ := atMain.moves steps
          refine ⟨_, worker, others ++ forked, rfl, moves, atWorker.mono same stays, ?_⟩
          exact List.forall_mem_append.mpr ⟨permitted, started⟩
      | cons first before =>
          obtain ⟨rfl, tail⟩ := List.cons.inj threads
          cases before with
          | nil =>
              obtain ⟨moved, rfl⟩ := List.cons.inj tail
              obtain ⟨rfl, rfl⟩ := Thread.mk.inj moved
              obtain ⟨moves, same, started⟩ := atWorker.moves steps
              refine ⟨main, _, after ++ forked, rfl, atMain.congr same, moves, ?_⟩
              exact List.forall_mem_append.mpr ⟨permitted, started⟩
          | cons second before =>
              obtain ⟨rfl, rfl⟩ := List.cons.inj tail
              obtain ⟨earlier, others⟩ := List.forall_mem_append.mp permitted
              obtain ⟨⟨⟨notMain, notWorker⟩, every⟩, later⟩ := List.forall_mem_cons.mp others
              obtain ⟨same, kept, started⟩ := steps_permitted steps fun c top =>
                every c (top ▸ List.mem_cons_self)
              refine ⟨main, worker, before ++ ⟨name, new ++ rest⟩ :: after ++ forked, rfl,
                atMain.congr same, atWorker.mono (kept notWorker) fun going => same ▸ going, ?_⟩
              have quiet : Quiet name (frame :: rest) := every
              simp only [List.forall_mem_append, List.forall_mem_cons]
              exact ⟨⟨earlier, ⟨⟨notMain, notWorker⟩, quiet.steps steps⟩, later⟩, started⟩

theorem running_started {main : Program} (safe : Safe .main 0 main) : Running (started main) := by
  have program : Quiet .main [.run main] := by
    intro c mem
    obtain rfl := Frame.run.inj (List.mem_singleton.mp mem)
    exact safe.2
  have nothing : Quiet .worker [] := fun c mem => absurd mem List.not_mem_nil
  have even : OwesAll BusState.inFlight ([] : List (Frame ThreadName Mutex BusState)) 0 := rfl
  exact ⟨_, _, [], rfl, .running rfl program, .running nothing even rfl, List.forall_mem_nil _⟩

theorem ordered_started {main : Program} (safe : Safe .main 0 main) :
    (started main).Ordered rank level := by
  have told : Safe .worker 2 subscribers := subscribers_safe
  refine List.forall_mem_cons.mpr ⟨⟨safe.1, ?_, ?_, trivial⟩, List.forall_mem_singleton.mpr ?_⟩
  · exact ⟨Nat.zero_le _, trivial⟩
  · exact ⟨rfl, Nat.one_pos⟩
  · exact ⟨⟨rfl, ⟨Nat.zero_le _, told.1⟩, ⟨Nat.zero_le _, trivial⟩, trivial⟩, trivial⟩

/-! ### No deadlock -/

/-- The worker waits for an event, and the bus is not stopping. -/
def Idle (p : Pool ThreadName Mutex BusState) (t : Thread ThreadName Mutex BusState) : Prop :=
  t = ⟨.worker, [.run (NotificationBus.run subscribers)]⟩ ∧ p.data.queue = 0 ∧
    p.data.stopping = false

/-- A thread waits for another, or it flushes, which is to wait for the worker. -/
inductive Waits (p : Pool ThreadName Mutex BusState) :
    Thread ThreadName Mutex BusState → Thread ThreadName Mutex BusState → Prop where
  | blocked {t t' : Thread ThreadName Mutex BusState} (waits : p.WaitsFor t t') : Waits p t t'
  | flush {t t' : Thread ThreadName Mutex BusState} (unmet : t.Unmet p) (flushes : t.name = .main)
      (worker : t'.name = .worker) : Waits p t t'

/-- Each thread has finished, or is the idle worker, or waits, directly or through others, for a
thread that can move. And if none can move, then all have finished. -/
structure Live (p : Pool ThreadName Mutex BusState) : Prop where
  reaches : ∀ t ∈ p.threads, t.stack = [] ∨ Idle p t ∨
    ∃ t' ∈ p.threads, Relation.ReflTransGen (Waits p) t t' ∧ t'.CanMove p
  ends : p.Moving ∨ p.Finished

/-- The worker stands at its own condition only, and then there is nothing for it to do. -/
theorem WorkerAt.idle {p : Pool ThreadName Mutex BusState}
    {worker : List (Frame ThreadName Mutex BusState)} (position : WorkerAt p.data worker)
    (unmet : (⟨.worker, worker⟩ : Thread _ _ _).Unmet p) :
    Idle p ⟨.worker, worker⟩ ∧ p.data.inFlight = 0 := by
  obtain ⟨m, ready, take, body, rest, top, waiting⟩ := unmet
  obtain rfl : worker = _ := top
  generalize stack : Frame.run (.serve m ready take body) :: rest = all at position
  cases position with
  | @running front d quiet owes inFlight =>
      cases front with
      | nil =>
          obtain ⟨loop, rfl⟩ := List.cons.inj stack
          obtain ⟨-, rfl, -, -⟩ := Code.serve.inj (Frame.run.inj loop)
          obtain ⟨going, empty⟩ := Bool.or_eq_false_iff.mp waiting
          obtain rfl : d = 0 := owes
          refine ⟨⟨rfl, ?_, going⟩, by omega⟩
          exact Nat.eq_zero_of_not_pos (of_decide_eq_false empty)
      | cons first front =>
          obtain ⟨rfl, -⟩ := List.cons.inj stack
          exact absurd (quiet _ List.mem_cons_self).1.1 ThreadName.noConfusion
  | leaving => cases stack
  | finished => cases stack

/-- `main` waits for a condition only where it flushes. -/
theorem MainAt.flushing {p : Pool ThreadName Mutex BusState}
    {main : List (Frame ThreadName Mutex BusState)} (position : MainAt p.data main)
    (unmet : (⟨.main, main⟩ : Thread _ _ _).Unmet p) :
    p.data.stopping = false ∧ ¬(p.data.queue = 0 ∧ p.data.inFlight = 0) := by
  obtain ⟨m, ready, take, body, rest, top, waiting⟩ := unmet
  obtain rfl : main = _ := top
  generalize stack : Frame.run (.serve m ready take body) :: rest = all at position
  cases position with
  | @running front going quiet =>
      cases front with
      | nil => cases stack
      | cons first front =>
          obtain ⟨rfl, -⟩ := List.cons.inj stack
          have met := (quiet _ List.mem_cons_self).1.2.1 p.data
          exact ⟨going, fun done => Bool.false_ne_true (waiting.symm.trans (met done.1 done.2))⟩
  | _ => cases stack

/-- Only `main` joins, and the worker only once the bus is stopping. -/
theorem Running.joins {p : Pool ThreadName Mutex BusState} (running : Running p)
    {t : Thread ThreadName Mutex BusState} (mem : t ∈ p.threads) {name : ThreadName}
    {rest : List (Frame ThreadName Mutex BusState)} (top : t.stack = .run (.join name) :: rest) :
    name ≠ .main ∧ (name = .worker → p.data.stopping = true) := by
  obtain ⟨main, worker, others, threads, atMain, atWorker, permitted⟩ := running
  rw [threads] at mem
  rcases List.mem_cons.mp mem with rfl | mem
  · generalize stack : main = all at atMain
    cases atMain with
    | @running front going quiet =>
        cases front with
        | nil => cases top.symm.trans stack
        | cons first front =>
            obtain ⟨rfl, -⟩ := List.cons.inj (top.symm.trans stack)
            obtain ⟨-, notMain, notWorker⟩ := quiet _ List.mem_cons_self
            exact ⟨notMain, fun same => absurd same notWorker⟩
    | joining stopping =>
        obtain ⟨here, -⟩ := List.cons.inj (top.symm.trans stack)
        obtain rfl := Code.join.inj (Frame.run.inj here)
        exact ⟨ThreadName.noConfusion, fun _ => stopping⟩
    | _ => cases top.symm.trans stack
  · rcases List.mem_cons.mp mem with rfl | mem
    · generalize stack : worker = all at atWorker
      cases atWorker with
      | @running front d quiet owes inFlight =>
          cases front with
          | nil => cases top.symm.trans stack
          | cons first front =>
              obtain ⟨rfl, -⟩ := List.cons.inj (top.symm.trans stack)
              exact absurd (quiet _ List.mem_cons_self).1 ThreadName.noConfusion
      | _ => cases top.symm.trans stack
    · obtain ⟨⟨notMain, -⟩, every⟩ := permitted t mem
      have here : Permitted t.name (.join name) :=
        every (.join name) (top ▸ List.mem_cons_self)
      exact absurd here.1 notMain

/-- Whoever stands at a condition is the idle worker, or it is `main`, which flushes while the
worker has something to do. -/
theorem Running.unmet {p : Pool ThreadName Mutex BusState} (running : Running p)
    {t : Thread ThreadName Mutex BusState} (mem : t ∈ p.threads) (unmet : t.Unmet p) :
    (Idle p t ∧ p.data.inFlight = 0) ∨ (t.name = .main ∧ p.data.stopping = false ∧
      ¬(p.data.queue = 0 ∧ p.data.inFlight = 0)) := by
  obtain ⟨main, worker, others, threads, atMain, atWorker, permitted⟩ := running
  rw [threads] at mem
  rcases List.mem_cons.mp mem with rfl | mem
  · exact .inr ⟨rfl, atMain.flushing unmet⟩
  · rcases List.mem_cons.mp mem with rfl | mem
    · exact .inl (atWorker.idle unmet)
    · obtain ⟨⟨notMain, -⟩, every⟩ := permitted t mem
      obtain ⟨m, ready, take, body, rest, top, -⟩ := unmet
      have here : Permitted t.name (.serve m ready take body) :=
        (every (.serve m ready take body) (top ▸ List.mem_cons_self)).1
      exact absurd here.1 notMain

/-- Nobody waits for a thread that stands at its condition. -/
theorem Running.alone {p : Pool ThreadName Mutex BusState} (running : Running p)
    (ordered : p.Ordered rank level) {t t' : Thread ThreadName Mutex BusState}
    (mem : t ∈ p.threads) (chain : Relation.ReflTransGen p.WaitsFor t t') (unmet : t'.Unmet p) :
    t = t' := by
  rcases chain.cases_tail with same | ⟨c, before, last⟩
  · exact same.symm
  · obtain ⟨rest, top⟩ := ordered.joins_of_unmet last unmet
    obtain ⟨notMain, stopping⟩ := running.joins (Pool.mem_of_chain mem before) top
    rcases running.unmet last.mem unmet with ⟨idle, -⟩ | ⟨flushes, -⟩
    · have stopped := stopping (congrArg Thread.name idle.1)
      exact absurd (idle.2.2.symm.trans stopped) Bool.false_ne_true
    · exact absurd flushes notMain

theorem Waits.chain {p : Pool ThreadName Mutex BusState}
    {t t' : Thread ThreadName Mutex BusState} (chain : Relation.ReflTransGen p.WaitsFor t t') :
    Relation.ReflTransGen (Waits p) t t' :=
  Relation.ReflTransGen.mono (fun _ _ => .blocked) _ _ chain

/-- While `main` flushes, the worker can move or waits for a thread that can. -/
theorem Running.worker_reaches {p : Pool ThreadName Mutex BusState} (running : Running p)
    (ordered : p.Ordered rank level) (going : p.data.stopping = false)
    (busy : ¬(p.data.queue = 0 ∧ p.data.inFlight = 0)) : ∃ worker ∈ p.threads,
      worker.name = .worker ∧ ∃ t' ∈ p.threads,
        Relation.ReflTransGen p.WaitsFor worker t' ∧ t'.CanMove p := by
  obtain ⟨main, worker, others, threads, -, atWorker, -⟩ := id running
  have there : (⟨.worker, worker⟩ : Thread _ _ _) ∈ p.threads :=
    threads ▸ List.mem_cons_of_mem _ List.mem_cons_self
  have unfinished : worker ≠ [] := by
    rintro rfl
    exact Bool.false_ne_true (going.symm.trans atWorker.ended)
  refine ⟨_, there, rfl, ?_⟩
  obtain ⟨t', chain, can | unmet⟩ := ordered.reaches there unfinished
  · exact ⟨t', Pool.mem_of_chain there chain, chain, can⟩
  · obtain rfl := running.alone ordered there chain unmet
    rcases running.unmet there unmet with ⟨idle, none⟩ | ⟨other, -⟩
    · exact absurd ⟨idle.2.1, none⟩ busy
    · exact ThreadName.noConfusion other

/-- Nobody waits in vain. -/
theorem Running.reaches {p : Pool ThreadName Mutex BusState} (running : Running p)
    (ordered : p.Ordered rank level) {t : Thread ThreadName Mutex BusState}
    (mem : t ∈ p.threads) : t.stack = [] ∨ Idle p t ∨
      ∃ t' ∈ p.threads, Relation.ReflTransGen (Waits p) t t' ∧ t'.CanMove p := by
  by_cases unfinished : t.stack = []
  · exact .inl unfinished
  · refine .inr ?_
    obtain ⟨t', chain, can | unmet⟩ := ordered.reaches mem unfinished
    · exact .inr ⟨t', Pool.mem_of_chain mem chain, Waits.chain chain, can⟩
    · obtain rfl := running.alone ordered mem chain unmet
      rcases running.unmet mem unmet with ⟨idle, -⟩ | ⟨flushes, going, busy⟩
      · exact .inl idle
      · obtain ⟨worker, -, named, t', mem', chain', can⟩ :=
          running.worker_reaches ordered going busy
        have first : Waits p t worker := .flush unmet flushes named
        exact .inr ⟨t', mem', (Waits.chain chain').head first, can⟩

/-- If no thread can move, then `main` has finished, so that the worker is not idle. -/
theorem Running.ends {p : Pool ThreadName Mutex BusState} (running : Running p)
    (ordered : p.Ordered rank level) : p.Moving ∨ p.Finished := by
  by_cases moving : p.Moving
  · exact .inl moving
  · have rests : ∀ t ∈ p.threads, t.stack = [] ∨ Idle p t := by
      intro t mem
      rcases running.reaches ordered mem with finished | idle | ⟨t', mem', -, can⟩
      · exact .inl finished
      · exact .inr idle
      · exact absurd ⟨t', mem', can⟩ moving
    obtain ⟨main, worker, others, threads, atMain, -, -⟩ := running
    have stopping : p.data.stopping = true := by
      rcases rests ⟨.main, main⟩ (threads ▸ List.mem_cons_self) with finished | idle
      · obtain rfl : main = [] := finished
        exact atMain.ended
      · exact ThreadName.noConfusion (congrArg Thread.name idle.1)
    refine .inr fun t mem => ?_
    rcases rests t mem with finished | idle
    · exact finished
    · exact absurd (idle.2.2.symm.trans stopping) Bool.false_ne_true

theorem Running.run {p p' : Pool ThreadName Mutex BusState} (running : Running p)
    (run : Run p p') : Running p' := by
  induction run with
  | refl => exact running
  | tail _ step ih => exact ih.step step

theorem live_of_run {main : Program} (safe : Safe .main 0 main)
    {p : Pool ThreadName Mutex BusState} (run : Run (started main) p) : Live p := by
  have running : Running p := (running_started safe).run run
  have ordered : p.Ordered rank level := run.ordered (ordered_started safe)
  exact ⟨fun _ => running.reaches ordered, running.ends ordered⟩

/-- **Neither program deadlocks.** In whatever order the threads of the simulation or of the server
run, and whatever branches they take, no thread waits in vain, and the threads can go on until all
have finished. -/
theorem programs_live (symbols : List Symbol) (bots : List BotKind)
    {p : Pool ThreadName Mutex BusState}
    (run : Run (started (Simulation.main symbols bots)) p ∨
      Run (started (SimulationServer.main symbols)) p) : Live p := by
  rcases run with simulation | server
  · exact live_of_run simulation_main_safe simulation
  · exact live_of_run server_main_safe server

/-- The server's `main` subscribes the market data, while the worker waits. -/
theorem programs_live_subscribing : ∃ p, Run (started (SimulationServer.main ["A"])) p ∧
    (∃ t ∈ p.threads, t.Holds .subscribers .exclusive) ∧ Live p := by
  have unheld {m : Mutex} {c d e f : Program} : Pool.Free (⟨{}, [⟨.main, [.run c, .run d, .run e,
      .run f]⟩, ⟨.worker, [.run (NotificationBus.run subscribers)]⟩]⟩ :
        Pool ThreadName Mutex BusState) m .exclusive := by
    intro t mem mode holds
    simp only [List.mem_cons, List.not_mem_nil, or_false] at mem
    rcases mem with rfl | rfl <;> simp [Thread.Holds] at holds
  have run : Run (started (SimulationServer.main ["A"])) _ :=
    (Relation.ReflTransGen.single (Step.first (.seq _ _))).tail (Step.first (.lock _ unheld))
  refine ⟨_, run, ⟨_, List.mem_cons_self, ?_⟩, programs_live ["A"] [] (.inr run)⟩
  exact List.mem_cons_of_mem _ List.mem_cons_self

end StockMarket.Locking
