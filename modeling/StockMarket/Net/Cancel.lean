import StockMarket.Engine.Cancellation
import StockMarket.Net.Server

/-!
The CANCEL command among other commands and release passes.

`dispatch_command` looks for the order in the book first and in the registry next, each
under its own lock; a release pass takes orders the other way. A CANCEL that runs beside
a release pass can miss an order in both places although the order is in one of them, or
on its way, at every moment (`cancel_slips`). As long as the order does not pass a CANCEL
in this way, the answer ERR NOT_FOUND means that the order was gone at some moment of the
command; and after OK CANCELLED no trade names the order (`cancel_sound`).
-/

namespace StockMarket

open Atomic MatchingEngine

/-! ### Threads of the server -/

/-- The program of what happens to a server. -/
def ServerCall.program : ServerCall → Prog (MatchingEngine Double) Unit
  | .openAccount client => StockMarket.openAccount client
  | .message client line env => do
    let _ ← dispatchCommand env line client
    return ()
  | .watcherTick order now clock fullScan => do
    let _ ← tryReleaseWaitingOrders order now clock fullScan
    return ()

/-- A thread to which several things happen, one after the other. -/
def serverThread : List ServerCall → Prog (MatchingEngine Double) (Option Response)
  | [] => return none
  | call :: calls => do
    call.program
    serverThread calls

/-- The thread of a CANCEL, with its answer. -/
def cancelThread (env : Env) (client : ClientId) (orderId : Nat) (symbol : Symbol) :
    Prog (MatchingEngine Double) (Option Response) := do
  let response ← (Command.cancel (some orderId) symbol).program env client
  return some response

/-- The phases in which the threads end: the CANCEL's answer says what it found. -/
def Answered (orderId : Nat) (symbol : Symbol) : Option Response → Phase Double → Prop
  | none, φ => φ = .idle
  | some response, φ => response = cancelResponse true ∧ φ = .cancelled orderId ∨
      response = cancelResponse false ∧ φ = .missed orderId symbol

/-! ### Other commands -/

/-- Every command starts and ends with nothing in progress. -/
theorem performs_command (env : Env) (client : ClientId) (command : Command) :
    Performs (command.program env client) .idle .idle := by
  cases command with
  | order request =>
      cases request with
      | error message => exact performs_pure _ _
      | ok request =>
          exact (performs_submitOrder env.now env.clock request).bind fun _ => performs_pure _ _
  | cancel orderId symbol =>
      cases orderId with
      | none => exact performs_pure _ _
      | some orderId =>
          refine (performs_cancelOrder symbol orderId).bind fun found => ?_
          split
          · exact performs_pure _ _
          · exact (performs_cancelWaitingOrder orderId).bind fun _ => performs_pure _ _
  | cancelWaiting orderId =>
      cases orderId with
      | none => exact performs_pure _ _
      | some orderId =>
          exact (performs_cancelWaitingOrder orderId).bind fun _ => performs_pure _ _
  | cancelBook orderId symbol side price =>
      cases orderId with
      | none => exact performs_pure _ _
      | some orderId =>
          cases price with
          | none => exact performs_pure _ _
          | some price =>
              exact (performs_cancelOrderAt symbol side price orderId).bind fun _ =>
                performs_pure _ _
  | portfolio => exact (performs_read _ _).bind fun _ => performs_pure _ _
  | market symbol =>
      refine (performs_read _ _).bind fun _ => ?_
      exact (performs_read _ _).bind fun _ => performs_pure _ _
  | symbols => exact (performs_read _ _).bind fun _ => performs_pure _ _
  | metrics =>
      refine (performs_read _ _).bind fun _ => ?_
      exact (performs_read _ _).bind fun _ => performs_pure _ _
  | unknown => exact performs_pure _ _

theorem performs_grantAll (client : ClientId) : ∀ symbols : List Symbol,
    Performs (grantAll client symbols) .idle .idle
  | [] => rfl
  | symbol :: symbols => by
      refine Performs.bind ?_ fun _ => performs_grantAll client symbols
      exact performs_modify (f := grantInitialHoldings client symbol 50)
        (fun _ => ⟨rfl, rfl, rfl, rfl, rfl, rfl⟩) _

/-- Whatever happens to a server starts and ends with nothing in progress. -/
theorem performs_serverCall (call : ServerCall) : Performs call.program .idle .idle := by
  cases call with
  | openAccount client =>
      have opened := performs_modify (f := ensureClient client (100000.0 : Double))
        (fun _ => ⟨rfl, rfl, rfl, rfl, rfl, rfl⟩) .idle
      refine opened.bind fun _ => ?_
      exact (performs_read _ _).bind fun symbols => performs_grantAll client symbols
  | message client line env =>
      exact (performs_command env client _).bind fun _ => performs_pure _ _
  | watcherTick order now clock fullScan =>
      refine Performs.bind ?_ fun _ => performs_pure _ _
      exact performs_tryReleaseWaitingOrders order now clock fullScan

/-- The threads beside the CANCEL. -/
theorem follows_serverThread (orderId : Nat) (symbol : Symbol) : ∀ calls : List ServerCall,
    Follows Move (Answered orderId symbol) (serverThread calls) .idle
  | [] => rfl
  | call :: calls =>
      Follows.bind (performs_serverCall call) fun _ _ idle =>
        idle ▸ follows_serverThread orderId symbol calls

/-! ### The CANCEL -/

/-- The CANCEL's look in the book, for a known symbol. -/
theorem follows_bookProbe (symbol : Symbol) (orderId : Nat) :
    Follows Move (fun found φ => φ = if found then .cancelled orderId else .probed orderId symbol)
      (.step fun e : MatchingEngine Double =>
        let (found, book) := (e.bookFor symbol).cancel orderId
        (found, { e with books := e.books.insert symbol book })) .idle := by
  intro e
  cases hit : ((e.bookFor symbol).cancel orderId).1 with
  | true => exact ⟨.cancelled orderId, .probeFound hit, by simp [Follows]⟩
  | false => exact ⟨.probed orderId symbol, .probe hit, by simp [Follows]⟩

theorem follows_cancelOrder (symbol : Symbol) (orderId : Nat) :
    Follows Move (fun found φ => φ = if found then .cancelled orderId else .probed orderId symbol)
      (cancelOrder symbol orderId : Prog (MatchingEngine Double) Bool) .idle := by
  refine (follows_read (symbolExists · symbol) (fun known => if known then .idle
    else .probed orderId symbol) fun e => ?_).bind ?_
  · split
    · exact .quiet _ (.refl e)
    · rename_i unknown
      exact .probeUnknown orderId fun known => unknown (decide_eq_true known)
  · rintro known φ rfl
    split
    · exact follows_bookProbe symbol orderId
    · rfl

/-- The CANCEL's look in the registry. -/
theorem follows_registryProbe (symbol : Symbol) (orderId : Nat) :
    Follows Move (fun found φ => φ = if found then .cancelled orderId else .missed orderId symbol)
      (cancelWaitingOrder orderId : Prog (MatchingEngine Double) Bool)
      (.probed orderId symbol) := by
  intro e
  cases hit : (e.registry.cancel orderId).1 with
  | true => exact ⟨.cancelled orderId, .found symbol hit, by simp [Follows]⟩
  | false => exact ⟨.missed orderId symbol, .miss symbol hit, by simp [Follows]⟩

/-- The CANCEL from its look in the registry on. -/
theorem follows_secondProbe (symbol : Symbol) (orderId : Nat) :
    Follows Move (fun response φ => Answered orderId symbol (some response) φ) (do
      let found ← cancelWaitingOrder orderId
      return cancelResponse found : Prog (MatchingEngine Double) Response)
      (.probed orderId symbol) := by
  refine (follows_registryProbe symbol orderId).bind ?_
  rintro found φ rfl
  cases found with
  | true => exact .inl ⟨rfl, rfl⟩
  | false => exact .inr ⟨rfl, rfl⟩

/-- The CANCEL from its look in the book on. -/
theorem follows_firstProbe {symbol : Symbol} {orderId : Nat} {φ : Phase Double}
    {p : Prog (MatchingEngine Double) Bool} (probe : Follows Move (fun found φ =>
      φ = if found then .cancelled orderId else .probed orderId symbol) p φ) :
    Follows Move (fun response φ => Answered orderId symbol (some response) φ) (do
      if ← p then return cancelResponse true
      else
        let found ← cancelWaitingOrder orderId
        return cancelResponse found : Prog (MatchingEngine Double) Response) φ := by
  refine probe.bind ?_
  rintro found φ rfl
  cases found with
  | true => exact .inl ⟨rfl, rfl⟩
  | false => exact follows_secondProbe symbol orderId

/-- The answer is the thread's result. -/
theorem follows_answer {symbol : Symbol} {orderId : Nat} {φ : Phase Double}
    {p : Prog (MatchingEngine Double) Response} (follows : Follows Move (fun response φ =>
      Answered orderId symbol (some response) φ) p φ) :
    Follows Move (Answered orderId symbol) (do
      let response ← p
      return some response) φ :=
  follows.bind fun _ _ answered => answered

theorem follows_cancelThread (env : Env) (client : ClientId) (orderId : Nat) (symbol : Symbol) :
    Follows Move (Answered orderId symbol) (cancelThread env client orderId symbol) .idle :=
  follows_answer (follows_firstProbe (follows_cancelOrder symbol orderId))

/-! ### Runs -/

/-- The CANCEL, first in the pool, and the threads beside it, before any of them starts. -/
def startServer (env : Env) (client : ClientId) (orderId : Nat) (symbol : Symbol)
    (threads : List (List ServerCall)) :
    List (Prog (MatchingEngine Double) (Option Response) × Phase Double) :=
  (cancelThread env client orderId symbol, .idle) ::
    threads.map fun calls => (serverThread calls, .idle)

theorem following_startServer (env : Env) (client : ClientId) (orderId : Nat) (symbol : Symbol)
    (threads : List (List ServerCall)) :
    Following Move (Answered orderId symbol) (startServer env client orderId symbol threads) := by
  intro t mem
  rcases List.mem_cons.mp mem with rfl | mem
  · exact follows_cancelThread env client orderId symbol
  · obtain ⟨calls, -, rfl⟩ := List.mem_map.mp mem
    exact follows_serverThread orderId symbol calls

theorem phases_startServer (env : Env) (client : ClientId) (orderId : Nat) (symbol : Symbol)
    (threads : List (List ServerCall)) :
    ∀ φ ∈ phases (startServer env client orderId symbol threads), φ = .idle := by
  intro φ mem
  rcases List.mem_cons.mp mem with rfl | mem
  · rfl
  · rw [List.map_map] at mem
    obtain ⟨calls, -, rfl⟩ := List.mem_map.mp mem
    rfl

/-- A step of the server's threads, with a condition on their moves. -/
abbrev ServerStep (orderId : Nat) (symbol : Symbol)
    (allowed : MatchingEngine Double → List (Phase Double) → Phase Double → Phase Double →
      MatchingEngine Double → Prop) :=
  PhasedStep Move (Answered orderId symbol) allowed

/-- A run of the server's threads. -/
abbrev ServerRun (orderId : Nat) (symbol : Symbol)
    (allowed : MatchingEngine Double → List (Phase Double) → Phase Double → Phase Double →
      MatchingEngine Double → Prop) :=
  Relation.ReflTransGen (ServerStep orderId symbol allowed)

/-- In every run whose moves meet the condition: from an instant at which the CANCEL has not
started to one at which it has answered, the answer ERR NOT_FOUND means that at some instant
of the command the order neither waited, nor was on its way to the book, nor rested; and
after the answer OK CANCELLED no trade names the order. -/
def CancelSound (allowed : Nat → Symbol → MatchingEngine Double → List (Phase Double) →
    Phase Double → Phase Double → MatchingEngine Double → Prop) (setup : List (SetupCall Double))
    (threads : List (List ServerCall)) (env : Env) (client : ClientId) (orderId : Nat)
    (symbol : Symbol) : Prop :=
  ∀ (e₀ e₁ : MatchingEngine Double) (response : Response) (φ : Phase Double)
    (others₀ others₁ : List (Prog (MatchingEngine Double) (Option Response) × Phase Double))
    (instants : List (Phased (MatchingEngine Double) (Phase Double) (Option Response))),
    ServerRun orderId symbol (allowed orderId symbol)
      (setUp setup, startServer env client orderId symbol threads)
      (e₀, (cancelThread env client orderId symbol, .idle) :: others₀) →
    Visits (ServerStep orderId symbol (allowed orderId symbol))
      (e₀, (cancelThread env client orderId symbol, .idle) :: others₀) instants
      (e₁, (.ret (some response), φ) :: others₁) →
    (response = .text "ERR NOT_FOUND" →
      ∃ c ∈ instants, ¬Present orderId symbol c.1 (phases c.2)) ∧
    (response = .text "OK CANCELLED" → ∀ e₂ threads₂,
      ServerRun orderId symbol (allowed orderId symbol)
        (e₁, (.ret (some response), φ) :: others₁) (e₂, threads₂) →
      ∃ ts, e₂.emitted = e₁.emitted ++ ts ∧ ∀ t ∈ ts, ∀ side, t.orderId side ≠ orderId)

/-- **While the order does not slip past it**, a CANCEL answers as it should. -/
theorem cancel_sound (setup : List (SetupCall Double)) (threads : List (List ServerCall))
    (env : Env) (client : ClientId) (orderId : Nat) (symbol : Symbol) :
    CancelSound Apart setup threads env client orderId symbol := by
  intro e₀ e₁ response φ others₀ others₁ instants before during
  have start := ThreadsInvariant.run before (.of_idle (idle_setUp setup).invariant
    (phases_startServer env client orderId symbol threads))
  have run : PhasedRun Move (Answered orderId symbol) (fun e φs φ φ' e' =>
      Apart orderId symbol e φs φ φ' e' ∧ True) _ _ :=
    Visits.run (fun _ _ _ _ _ => trivial) during fun _ _ => trivial
  have answered : Answered orderId symbol (some response) φ :=
    PhasedRun.following run (PhasedRun.following before
      (following_startServer env client orderId symbol threads)) _ List.mem_cons_self
  constructor
  · rintro rfl
    obtain rfl : φ = .missed orderId symbol := by
      rcases answered with ⟨wrong, -⟩ | ⟨-, missed⟩
      · exact absurd wrong (by simp [cancelResponse])
      · exact missed
    by_contra none
    have always : ∀ c ∈ instants, Present orderId symbol c.1 (phases c.2) := fun c mem =>
      not_not.mp fun gone => none ⟨c, mem, gone⟩
    have sought : Sought orderId symbol e₀ .idle (phases others₀) :=
      ⟨start, nofun, nofun⟩
    obtain ⟨e, p, φ, others, same, sought⟩ := PhasedRun.keep_first
      (fun e φ φs φs' perm sought => sought.perm perm)
      (fun e φs φ φ' e' moves ok sought => sought.own moves ok.1 ok.2)
      (fun e φ φs ψ ψ' e' moves ok sought => sought.other moves ok.1 ok.2)
      (Visits.run (fun _ _ _ perm present => present.perm perm) during always) sought
    cases same
    exact sought.found rfl
  · rintro rfl e₂ threads₂ later
    obtain rfl : φ = .cancelled orderId := by
      rcases answered with ⟨-, cancelled⟩ | ⟨wrong, -⟩
      · exact cancelled
      · exact absurd wrong (by simp [cancelResponse])
    have withdrawn : Withdrawn orderId e₀ .idle (phases others₀) :=
      ⟨start, nofun⟩
    obtain ⟨e, p, φ, others, same, withdrawn⟩ := PhasedRun.keep_first
      (fun e φ φs φs' perm withdrawn => withdrawn.perm perm)
      (fun e φs φ φ' e' moves _ withdrawn => withdrawn.own moves)
      (fun e φ φs ψ ψ' e' moves _ withdrawn => withdrawn.other moves) run withdrawn
    cases same
    have silent : Silent e₁ orderId e₁ (.cancelled orderId :: phases others₁) :=
      ⟨withdrawn.threads, withdrawn.absent rfl, [], (List.append_nil _).symm, nofun⟩
    have kept := PhasedRun.keep (fun _ _ _ perm silent => silent.perm perm)
      (fun _ _ _ _ _ moves _ silent => silent.move moves) later silent
    exact kept.trades

theorem result_serverThread (e : MatchingEngine Double) (calls : List ServerCall) :
    ((serverThread calls).exec e).1 = none := by
  induction calls generalizing e with
  | nil => rfl
  | cons call calls ih =>
      rw [serverThread, Prog.exec_bind]
      exact ih _

theorem result_cancelThread (env : Env) (client : ClientId) {orderId : Nat} {symbol : Symbol}
    {e : MatchingEngine Double}
    (found : (e.cancelledIn symbol (OrderBook.cancel · orderId)).1 = true) :
    ((cancelThread env client orderId symbol).exec e).1 = some (.text "OK CANCELLED") := by
  rw [cancelThread, Prog.exec_bind, Command.program, Prog.exec_bind, exec_cancelOrder, found]
  rfl

/-- A BUY order that comes to rest. -/
def oneBuy : List ServerCall :=
  [.openAccount 1, .message 1 "ORDER BUY AAPL 5 LIMIT PRICE=100" quietEnv]

/-- A CANCEL that comes after the order finds it. -/
theorem cancel_sound_oneBuy : ∃ e₁ φ others,
    ServerRun 1 "AAPL" (Apart 1 "AAPL") (setUp [.registerSymbol "AAPL" 180.0],
        startServer quietEnv 1 1 "AAPL" [oneBuy])
      (e₁, (.ret (some (.text "OK CANCELLED")), φ) :: others) ∧
    ∀ e₂ threads₂, ServerRun 1 "AAPL" (Apart 1 "AAPL")
        (e₁, (.ret (some (.text "OK CANCELLED")), φ) :: others) (e₂, threads₂) →
      ∃ ts, e₂.emitted = e₁.emitted ++ ts ∧ ∀ t ∈ ts, ∀ side, t.orderId side ≠ 1 := by
  have keep : ∀ (e : MatchingEngine Double) (φ φ' : Phase Double) (e' : MatchingEngine Double),
      Move φ e φ' e' → True → Apart 1 "AAPL" e [.idle] φ φ' e' ∧ True := by
    refine fun e φ φ' e' _ _ => ⟨⟨fun _ _ ψ mem o released => ?_, fun mem => ?_⟩, trivial⟩
    · rw [List.mem_singleton.mp mem] at released
      cases released
    · cases List.mem_singleton.mp mem
  obtain ⟨φ, idle, first⟩ := (follows_serverThread 1 "AAPL" oneBuy).run_among
    [(cancelThread quietEnv 1 1 "AAPL", .idle)] [] keep
    (s := setUp [.registerSymbol "AAPL" 180.0]) trivial
  rw [result_serverThread] at idle first
  obtain rfl : φ = .idle := idle
  set e := ((serverThread oneBuy).exec (setUp [.registerSymbol "AAPL" 180.0])).2 with he
  have found : (e.cancelledIn "AAPL" (OrderBook.cancel · 1)).1 = true := by
    rw [he]
    decide +kernel
  obtain ⟨φ, -, second⟩ := (follows_cancelThread quietEnv 1 1 "AAPL").run_among []
    [(.ret none, .idle)] keep (s := e) trivial
  rw [result_cancelThread quietEnv 1 found] at second
  obtain ⟨instants, during⟩ := Visits.of_run second
  exact ⟨_, φ, _, first.trans second, ((cancel_sound _ [oneBuy] quietEnv 1 1 "AAPL" _ _ _ φ _ _
    instants first during).2 rfl)⟩

/-! ### A CANCEL that is passed -/

/-- No condition on the moves. -/
def Anything (_ : Nat) (_ : Symbol) (_ : MatchingEngine Double) (_ : List (Phase Double))
    (_ _ : Phase Double) (_ : MatchingEngine Double) : Prop :=
  True

/-- A CANCEL that has seen whether there is a book. -/
def bookProbe (orderId : Nat) (symbol : Symbol) (known : Bool) :
    Prog (MatchingEngine Double) (Option Response) := do
  let response ← (do
    if ← (if known then
        .step fun e =>
          let (found, book) := (e.bookFor symbol).cancel orderId
          (found, { e with books := e.books.insert symbol book })
      else return false) then return cancelResponse true
    else
      let found ← cancelWaitingOrder orderId
      return cancelResponse found : Prog (MatchingEngine Double) Response)
  return some response

/-- A CANCEL that has looked in the book. -/
def registryProbe (orderId : Nat) (found : Bool) :
    Prog (MatchingEngine Double) (Option Response) := do
  let response ← (do
    if found then return cancelResponse true
    else
      let found ← cancelWaitingOrder orderId
      return cancelResponse found : Prog (MatchingEngine Double) Response)
  return some response

/-- Tables are walked in the order they are stored. -/
def storedScan : ReleaseOrder Double where
  symbols := .stored
  bucket := fun _ => .stored
  dirty := .stored

/-- A release pass that has drained the dirty symbols. -/
def scanPass (symbols : List Symbol) : Prog (MatchingEngine Double) (Option Response) := do
  (do
    let _ ← (do
      let scan ← scanSymbolsStep storedScan.bucket 1 symbols {}
      let released ← releaseAll (fun _ _ => 1) 0 scan.released
      reportExpired scan.expired
      return { released := released, expired := scan.expired : ReleaseSummary Double })
    return ())
  return none

/-- A release pass that has scanned. -/
def matchPass (scan : ScanResult Double) : Prog (MatchingEngine Double) (Option Response) := do
  (do
    let _ ← (do
      let released ← releaseAll (fun _ _ => 1) 0 scan.released
      reportExpired scan.expired
      return { released := released, expired := scan.expired : ReleaseSummary Double })
    return ())
  return none

section

variable {orderId : Nat} {symbol : Symbol} {e : MatchingEngine Double}
  (before after : List (Prog (MatchingEngine Double) (Option Response) × Phase Double))

theorem step_cancelThread {env : Env} {client : ClientId}
    (known : e.symbolExists symbol = true) :
    ServerStep orderId symbol (Anything orderId symbol)
      (e, before ++ (cancelThread env client orderId symbol, .idle) :: after)
      (e, before ++ (bookProbe orderId symbol true, .idle) :: after) := by
  have goes : (cancelThread env client orderId symbol).advance 1 e
      = (bookProbe orderId symbol (e.symbolExists symbol), e) := rfl
  rw [known] at goes
  refine .advance before after goes rfl (.quiet _ (.refl e)) trivial ?_
  exact follows_answer (follows_firstProbe (follows_bookProbe symbol orderId))

theorem step_bookProbe (miss : ((e.bookFor symbol).cancel orderId).1 = false) :
    ServerStep orderId symbol (Anything orderId symbol)
      (e, before ++ (bookProbe orderId symbol true, .idle) :: after)
      (e.withBook symbol ((e.bookFor symbol).cancel orderId).2,
        before ++ (registryProbe orderId false, .probed orderId symbol) :: after) := by
  have goes : (bookProbe orderId symbol true).advance 1 e
      = (registryProbe orderId ((e.bookFor symbol).cancel orderId).1,
        e.withBook symbol ((e.bookFor symbol).cancel orderId).2) := rfl
  rw [miss] at goes
  refine .advance before after goes rfl (.probe miss) trivial ?_
  exact follows_answer (follows_secondProbe symbol orderId)

theorem step_registryProbe (miss : (e.registry.cancel orderId).1 = false) :
    ServerStep orderId symbol (Anything orderId symbol)
      (e, before ++ (registryProbe orderId false, .probed orderId symbol) :: after)
      (e.withoutWaiting orderId,
        before ++ (.ret (some (.text "ERR NOT_FOUND")), .missed orderId symbol) :: after) := by
  have goes : (registryProbe orderId false).advance 1 e
      = (.ret (some (cancelResponse (e.registry.cancel orderId).1)), e.withoutWaiting orderId) :=
    rfl
  rw [miss] at goes
  exact .advance before after goes rfl (.miss symbol miss) trivial (.inr ⟨rfl, rfl⟩)

theorem step_watcher {symbols : List Symbol}
    (drained : (drainDirtySymbols .stored e).1 = symbols) :
    ServerStep orderId symbol (Anything orderId symbol)
      (e, before ++ (serverThread [.watcherTick storedScan 1 (fun _ _ => 1) false], .idle) :: after)
      ((drainDirtySymbols .stored e).2,
      before ++ (scanPass symbols, .busy symbols [] []) :: after) := by
  subst drained
  refine .advance before after rfl rfl (.drain .stored) trivial ?_
  exact Follows.bind ((performs_pass storedScan 1 (fun _ _ => 1) _).bind fun _ =>
    performs_pure _ _) fun _ _ idle => idle

theorem step_scanPass {released : List (Order Double)}
    (scanned : (scanStep (fun _ => .stored) 1 symbol {} e).1.released = released) :
    ServerStep orderId symbol (Anything orderId symbol)
      (e, before ++ (scanPass [symbol], .busy [symbol] [] []) :: after)
      ((scanStep (fun _ => .stored) 1 symbol {} e).2,
        before ++ (matchPass (scanStep (fun _ => .stored) 1 symbol {} e).1,
          .busy [] released []) :: after) := by
  subst scanned
  refine .advance before after rfl rfl (.scan _ 1 symbol [] {}) trivial ?_
  refine Follows.bind (Performs.bind (Performs.bind (performs_releaseAll _ 0 _) fun _ => ?_)
    fun _ => performs_pure _ _) fun _ _ idle => idle
  exact (performs_reportExpired _ _).bind fun _ => performs_pure _ _

end

/-- Two clients trade above the trigger of a STOP order that waits. -/
def triggeredStop : List ServerCall :=
  [.openAccount 1, .openAccount 2, .message 1 "ORDER BUY AAPL 1 STOP TRIGGER=105" quietEnv,
    .message 2 "ORDER SELL AAPL 4 LIMIT PRICE=110" quietEnv,
    .message 1 "ORDER BUY AAPL 4 LIMIT PRICE=110" quietEnv]

/-- The STOP order. -/
def stopOrder : Order Double :=
  { buildOrder (requestOf 1 .buy "AAPL" 1 .stop (parseKv ["TRIGGER=105"])) 1 0 with }

/-- The server after the trade, drained by a release pass that has not scanned yet. -/
def drainedServer : MatchingEngine Double :=
  let traded := ((serverThread triggeredStop).exec (setUp [.registerSymbol "AAPL" 100.0])).2
  (drainDirtySymbols .stored traded).2

/-- The server after a CANCEL of the STOP order has looked in the book. -/
def probedServer : MatchingEngine Double :=
  drainedServer.withBook "AAPL" ((drainedServer.bookFor "AAPL").cancel 1).2

/-- The server after the scan. -/
def scannedServer : MatchingEngine Double :=
  (scanStep (fun _ => .stored) 1 "AAPL" {} probedServer).2

/-- The CANCEL finds the STOP order's book without it; the release pass takes the order out of
the registry; the CANCEL finds the registry without it. -/
theorem cancel_slips : ¬∀ (setup : List (SetupCall Double)) (threads : List (List ServerCall))
    (env : Env) (client : ClientId) (orderId : Nat) (symbol : Symbol),
    CancelSound Anything setup threads env client orderId symbol := by
  intro claim
  have free : ∀ (e : MatchingEngine Double) (φ φ' : Phase Double) (e' : MatchingEngine Double),
      Move φ e φ' e' → True → Anything 1 "AAPL" e [.idle, .idle] φ φ' e' ∧ True :=
    fun _ _ _ _ _ _ => ⟨trivial, trivial⟩
  obtain ⟨φ, idle, trade⟩ := (follows_serverThread 1 "AAPL" triggeredStop).run_among
    [(cancelThread quietEnv 1 1 "AAPL", .idle)]
    [(serverThread [.watcherTick storedScan 1 (fun _ _ => 1) false], .idle)] free
    (s := setUp [.registerSymbol "AAPL" 100.0]) trivial
  rw [result_serverThread] at idle trade
  obtain rfl : φ = .idle := idle
  have drain : ServerStep 1 "AAPL" (Anything 1 "AAPL") _ (drainedServer,
      (cancelThread quietEnv 1 1 "AAPL", .idle) :: (.ret none, .idle) ::
        [(scanPass ["AAPL"], .busy ["AAPL"] [] [])]) :=
    step_watcher [(cancelThread quietEnv 1 1 "AAPL", .idle), (.ret none, .idle)] []
      (e := ((serverThread triggeredStop).exec (setUp [.registerSymbol "AAPL" 100.0])).2)
      (by decide +kernel)
  have start : ServerStep 1 "AAPL" (Anything 1 "AAPL")
      (drainedServer, (cancelThread quietEnv 1 1 "AAPL", .idle) :: _)
      (drainedServer, (bookProbe 1 "AAPL" true, .idle) ::
        [(.ret none, .idle), (scanPass ["AAPL"], .busy ["AAPL"] [] [])]) :=
    step_cancelThread [] _ (by decide +kernel)
  have look : ServerStep 1 "AAPL" (Anything 1 "AAPL") _ (probedServer,
      (registryProbe 1 false, .probed 1 "AAPL") ::
        [(.ret none, .idle), (scanPass ["AAPL"], .busy ["AAPL"] [] [])]) :=
    step_bookProbe [] _ (e := drainedServer) (by decide +kernel)
  have scan : ServerStep 1 "AAPL" (Anything 1 "AAPL") _ (scannedServer,
      (registryProbe 1 false, .probed 1 "AAPL") :: (.ret none, .idle) ::
        [(_, .busy [] [stopOrder] [])]) :=
    step_scanPass [(registryProbe 1 false, .probed 1 "AAPL"), (.ret none, .idle)] []
      (e := probedServer) (by decide +kernel)
  set matching := matchPass (scanStep (fun _ => .stored) 1 "AAPL" {} probedServer).1
  have answer : ServerStep 1 "AAPL" (Anything 1 "AAPL") _ (scannedServer.withoutWaiting 1,
      (.ret (some (.text "ERR NOT_FOUND")), .missed 1 "AAPL") ::
        [(.ret none, .idle), (matching, .busy [] [stopOrder] [])]) :=
    step_registryProbe [] _ (e := scannedServer) (by decide +kernel)
  have during : Visits (ServerStep 1 "AAPL" (Anything 1 "AAPL")) _ [_, _, _, _] _ :=
    ⟨start, look, scan, answer, rfl⟩
  obtain ⟨c, mem, gone⟩ := (claim [.registerSymbol "AAPL" 100.0]
    [triggeredStop, [.watcherTick storedScan 1 (fun _ _ => 1) false]] quietEnv 1 1 "AAPL" _ _ _ _
    _ _ _ (trade.tail drain) during).1 rfl
  have waits : drainedServer.registry.Waits stopOrder := by
    unfold OrderRegistry.Waits
    decide +kernel
  refine gone ⟨stopOrder, rfl, rfl, ?_⟩
  simp only [List.mem_cons, List.not_mem_nil, or_false] at mem
  rcases mem with rfl | rfl | rfl | rfl
  · exact .inl waits
  · exact .inl waits
  · exact .inr (.inl ⟨.busy [] [stopOrder] [], by simp [phases], List.mem_singleton.mpr rfl⟩)
  · exact .inr (.inl ⟨.busy [] [stopOrder] [], by simp [phases], List.mem_singleton.mpr rfl⟩)

end StockMarket
