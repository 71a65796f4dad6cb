import StockMarket.Sql.Exceptions

/-!
On whose behalf the server acts.

A connection that authenticates is answered with the id of its client, and nothing is kept
of this. Every message says again which client it is for, with the number that its text begins
with (`Received.Names`), and whatever it makes the server do is done for this client
(`names_of_effect`), whoever has sent it. So in every run of the server with its connections
(`Network.Step`) what happens to a client goes back to a message that names the client, and not
to one that has authenticated (`attributed_of_run`, `deposit_unauthenticated`).
-/

namespace StockMarket.Sql

open Client Database

/-! ### Who is named -/

/-- The text begins with the id, as `>>` reads it into an `ID` or, for a deposit or a
withdrawal, into an `int`. -/
def Received.Names (r : Received) (client : ID) : Prop :=
  (extractSigned 64 r.uninitialised.clientId (some r.input.toList)).1 = client ∨
    (extractSigned 32 r.uninitialised.clientId (some r.input.toList)).1 = client

/-- The client an effect is for. -/
def Effect.client : Effect → Option ID
  | .authenticated _ => none
  | .registerClientSocket client => some client
  | .deposit client _ => some client
  | .askWithdrawal client _ => some client
  | .placeOrder o => some o.clientId

/-- The client a request is for. -/
def Request.client : Request → Option ID
  | .connected client => some client
  | .deposit client _ => some client
  | .withdraw client _ => some client
  | .order line _ _ => some line.clientId
  | _ => none

/-- The client of a task. -/
def Task.client : Task → ID
  | .enter o => o.clientId
  | .wait o => o.clientId
  | .withdraw client _ => client

variable {env : Env} {order : IterationOrder ID (List ID)} {r : Received} {handled : Handled}
  {effect : Effect} {client : ID}

/-- **Reading.** Every branch takes its client from the beginning of the text. -/
theorem names_of_request (acts : r.request.client = some client) : r.Names client := by
  unfold Received.request readRequest at acts
  unfold Received.Names
  simp only at acts
  split_ifs at acts
  · cases acts
  · exact .inl (Option.some.inj acts)
  · cases acts
  · cases acts
  · exact .inr (Option.some.inj acts)
  · exact .inr (Option.some.inj acts)
  · exact .inl (Option.some.inj acts)

/-- What a message with an effect is. -/
def Received.Requests (env : Env) (r : Received) : Effect → Prop
  | .authenticated client =>
    ∃ username password, r.request = .authentification (some (username, password)) ∧
      r.answers.clientIdIfNameAndPasswordRegistered username password = client
  | .registerClientSocket client => r.request = .connected client
  | .deposit client amount => r.request = .deposit client amount ∧ r.db.clientExists client
  | .askWithdrawal client amount =>
    r.request = .withdraw client amount ∧ r.db.clientExists client ∧
      canAfford env client (-1) 1 amount r.db
  | .placeOrder o =>
    ∃ (line : OrderLine) (dateStr timeStr : String) (date daily : ID),
      r.request = .order line dateStr timeStr ∧
        admitOrder env { line with validityDate := date, validityDaily := daily } r.orderId
          r.orderTimeDate r.orderTimeDaily r.db = .ok o

/-- **Acting.** Every effect is what the message requests. -/
theorem requests_of_effect (out : handleInput env r = .ok handled)
    (does : handled.effect = some effect) : r.Requests env effect := by
  unfold handleInput at out
  cases request : r.request with
  | authentification credentials =>
      rw [request] at out
      cases credentials with
      | none =>
          obtain rfl := Except.ok.inj out
          cases does
      | some credentials =>
          obtain rfl := Except.ok.inj out
          simp only at does
          split at does
          · obtain rfl := Option.some.inj does
            exact ⟨_, _, request, rfl⟩
          · cases does
  | connected client =>
      rw [request] at out
      obtain rfl := Except.ok.inj out
      obtain rfl := Option.some.inj does
      exact request
  | exit client =>
      rw [request] at out
      obtain rfl := Except.ok.inj out
      cases does
  | display client displayType =>
      rw [request] at out
      obtain ⟨_, -, out⟩ := ok_of_bind out
      obtain rfl := Except.ok.inj out
      cases does
  | deposit client amount | withdraw client amount =>
      rw [request] at out
      obtain rfl := Except.ok.inj out
      simp only at does
      split at does
      · rename_i passes
        obtain rfl := Option.some.inj does
        exact ⟨request, passes⟩
      · cases does
  | order line dateStr timeStr =>
      rw [request] at out
      simp only [handleOrder] at out
      split at out
      · obtain rfl := Except.ok.inj out
        cases does
      · obtain ⟨validity, -, out⟩ := ok_of_bind out
        split at out
        · obtain rfl := Except.ok.inj out
          cases does
        · rename_i taken
          obtain rfl := Except.ok.inj out
          obtain rfl := Option.some.inj does
          exact ⟨line, dateStr, timeStr, _, _, request, taken⟩

/-- An effect is for the client of the request. -/
theorem client_of_requests (requests : r.Requests env effect)
    (acts : effect.client = some client) : r.request.client = some client := by
  cases effect with
  | authenticated client => cases acts
  | registerClientSocket client =>
      rw [show r.request = _ from requests]
      exact acts
  | deposit client amount | askWithdrawal client amount =>
      rw [requests.1]
      exact acts
  | placeOrder o =>
      obtain ⟨line, dateStr, timeStr, date, daily, request, taken⟩ := requests
      obtain ⟨-, same, -⟩ := admitOrder_ok taken
      rw [request]
      exact (congrArg some same).symm.trans acts

theorem names_of_effect (out : handleInput env r = .ok handled)
    (does : handled.effect = some effect) (acts : effect.client = some client) :
    r.Names client :=
  names_of_request (client_of_requests (requests_of_effect out does) acts)

/-! ### The server with its connections -/

/-- A connection, by its socket. -/
abbrev Connection := Nat

/-- A message of a connection, and what was done. -/
structure Entry where
  connection : Connection
  received : Received
  handled : Handled

/-- The server, the registry `client_sockets`, and the messages so far. -/
structure Network where
  server : Server
  clientSockets : Table ID Connection := ∅
  entries : List Entry := []

/-- The effect of a message on the server. -/
def Server.act (s : Server) : Effect → Server
  | .authenticated _ => s
  | .registerClientSocket _ => s
  | .deposit client amount => s.withDb (Client.deposit client amount s.market.db)
  | .askWithdrawal client amount => s.addTask (.withdraw client amount)
  | .placeOrder o => s.addTask (orderTask o)

/-- The effect on the registry. -/
def register (connection : Connection) (sockets : Table ID Connection) :
    Effect → Table ID Connection
  | .registerClientSocket client => sockets.insert client connection
  | _ => sockets

/-- A message is handled. -/
def Network.handle (n : Network) (connection : Connection) (r : Received) (handled : Handled) :
    Network where
  server := handled.effect.elim n.server n.server.act
  clientSockets := handled.effect.elim n.clientSockets (register connection n.clientSockets)
  entries := n.entries ++ [⟨connection, r, handled⟩]

/-- What the threads do without a message: tasks, the watcher and the session. -/
inductive Server.ThreadStep (env : Env) (order : IterationOrder ID (List ID)) :
    Server → Server → Prop where
  | perform {s : Server} {t : Task} {front back : List Task} (next : s.tasks = front ++ t :: back) :
      ThreadStep env order s ({ s with tasks := front ++ back }.perform env t)
  | scan {s : Server} {o : OrderRow} (nowDate nowDaily : ID)
      (waits : o ∈ s.market.db.getWaitingOrders) :
      ThreadStep env order s (s.scan env nowDate nowDaily o)
  | fixing {s : Server} :
      ThreadStep env order s { s with market := (s.market.processFixing env order).1 }
  | period {s : Server} (running : Bool) :
      ThreadStep env order s { s with isContinuousTradingPeriod := running }
  | play {s : Server} : ThreadStep env order s { market := { db := s.market.db } }

/-- One step: a message of some connection, a step of another thread, or an id that is dropped
from the registry, when a connection ends or a push to it fails. -/
inductive Network.Step (env : Env) (order : IterationOrder ID (List ID)) :
    Network → Network → Prop where
  | message {n : Network} (connection : Connection) (r : Received) {handled : Handled}
      (reads : r.db = n.server.market.db) (free : n.server.market.db.orderIdIsFree r.orderId)
      (returns : handleInput env r = .ok handled) : Step env order n (n.handle connection r handled)
  | thread {n : Network} {s : Server} (step : Server.ThreadStep env order n.server s) :
      Step env order n { n with server := s }
  | unregister {n : Network} (client : ID) :
      Step env order n { n with clientSockets := n.clientSockets.erase client }

/-- The runs from an initial database, without connections. -/
def Network.Runs (env : Env) (order : IterationOrder ID (List ID)) (d : Database) :
    Network → Prop :=
  Relation.ReflTransGen (Step env order) { server := { market := { db := d } } }

/-- These are the steps of the server. -/
theorem Server.ThreadStep.step {s s' : Server} (step : ThreadStep env order s s') :
    s' = s ∨ Step env order s s' := by
  cases step with
  | perform next => exact .inr (.perform next)
  | scan nowDate nowDaily waits => exact step_scan waits
  | fixing => exact .inr .fixing
  | period running => exact .inr (.period running)
  | play => exact .inr .play

/-- What a message requests is a step of the server. -/
theorem step_act {s : Server} (reads : r.db = s.market.db)
    (free : s.market.db.orderIdIsFree r.orderId) (requests : r.Requests env effect) :
    s.act effect = s ∨ Server.Step env order s (s.act effect) := by
  cases effect with
  | authenticated client => exact .inl rfl
  | registerClientSocket client => exact .inl rfl
  | deposit client amount => exact .inr (.deposit client amount (reads ▸ requests.2))
  | askWithdrawal client amount =>
      exact .inr (.askWithdrawal client amount (reads ▸ requests.2.1) (reads ▸ requests.2.2))
  | placeOrder o =>
      obtain ⟨line, dateStr, timeStr, date, daily, -, taken⟩ := requests
      exact .inr (.placeOrder _ _ _ _ free (reads ▸ taken))

/-- Every step with connections is one of the server, or none. -/
theorem Network.Step.server {n n' : Network} (step : Step env order n n') :
    n'.server = n.server ∨ Server.Step env order n.server n'.server := by
  cases step with
  | @message connection r handled reads free returns =>
      cases does : handled.effect with
      | none => simp [Network.handle, does]
      | some effect =>
          have acts : Server.act n.server effect = n.server ∨
              Server.Step env order n.server (Server.act n.server effect) :=
            step_act reads free (requests_of_effect returns does)
          simpa [Network.handle, does] using acts
  | thread step => exact step.step
  | unregister client => exact .inl rfl

/-- **Refinement.** The runs with connections are runs of the server. -/
theorem Network.Runs.reachable {d : Database} {n : Network} (initial : d.Initial)
    (run : Runs env order d n) : Server.Reachable env order n.server := by
  refine ⟨d, initial, ?_⟩
  induction run with
  | refl => exact .refl
  | tail _ step ih =>
      rcases step.server with same | next
      · exact same ▸ ih
      · exact ih.tail next

/-! ### What happens to a client -/

section

variable {d d' : Database} {A : ID → Prop}

theorem cash_of_clients (clients : d'.clients = d.clients) (c : ID) :
    d'.ledger.cash c = d.ledger.cash c := by
  simp only [ledger, clients]

theorem cash_update_ne {c : ID} (ne : c ≠ client) {f : ClientRow → ClientRow}
    (keep : ∀ r, (f r).clientId = r.clientId)
    (clients : d'.clients = d.clients.update (fun r => r.clientId = client) f keep) :
    d'.ledger.cash c = d.ledger.cash c := by
  simp only [ledger, clients, Relation.valueAt, Relation.find_update_ne ne]

theorem cash_deposit_ne {c : ID} (ne : c ≠ client) (amount : ℚ) (d : Database) :
    (deposit client amount d).ledger.cash c = d.ledger.cash c := by
  unfold deposit
  split
  · exact cash_update_ne ne (by intro; rfl) rfl
  · rfl

theorem cash_withdraw_ne {c : ID} (ne : c ≠ client) (amount : ℚ) (d : Database) :
    (withdraw client amount d).ledger.cash c = d.ledger.cash c :=
  cash_update_ne ne (by intro; rfl) rfl

theorem cash_updatePortfolio_ne {c : ID} (ne : c ≠ client) (action : ID) (quantity : Int)
    (price : ℚ) (daily date : ID) (d : Database) : ∀ type : OrderType,
    (updatePortfolio env client action quantity price daily date type d).ledger.cash c
      = d.ledger.cash c
  | .buy => by
      rw [updatePortfolio]
      split
      · rw [← cash_withdraw_ne ne (price * quantity) d]
        exact cash_of_clients (by simp [buy, Client.addAction]) c
      · rfl
  | .sell => by
      rw [updatePortfolio]
      split
      · rw [← cash_deposit_ne ne (price * quantity) d]
        exact cash_of_clients (by simp [sell, removeAction]) c
      · rfl

/-- A pair that is settled moves the cash of its two clients only. -/
theorem cash_settlePair_ne (env : Env) (action : ID) {buyer seller : OrderRow}
    (buys sells : List ID) (s : Sweep) {c : ID} (buys' : c ≠ buyer.clientId)
    (sells' : c ≠ seller.clientId) :
    (settlePair env action buyer seller buys sells s).1.db.ledger.cash c = s.db.ledger.cash c := by
  rw [cash_of_clients (clients_settlePair env action buyer seller buys sells s), bookTrade,
    cash_updatePortfolio_ne sells', cash_updatePortfolio_ne buys']

/-- All orders are of clients in `A`, and the others have what they had in `d`. -/
structure Database.Attributed (A : ID → Prop) (d d' : Database) : Prop where
  orders : ∀ o ∈ d'.orders.rows, A o.clientId
  cash : ∀ c, ¬A c → d'.ledger.cash c = d.ledger.cash c

/-- A matching loop keeps this. -/
theorem keeps_attributed_matchAction {pair : Database → ID → ID → Option (OrderRow × OrderRow)}
    (reads : ReadsRows pair) (env : Env) (action : ID) :
    Loop.Keeps (fun m : Market => d.Attributed A m.db) (fun _ => True) (fun _ => True)
      (fun _ => ()) (Market.matchAction pair env action) := by
  refine Market.keeps_db_matchAction reads env action ?_
  intro buyer seller buys sells s attributed mem mem'
  have bought := attributed.orders _ mem
  have sold := attributed.orders _ mem'
  constructor
  · exact Market.forall_rows_settlePair env action buys sells attributed.orders (fun _ _ => bought)
      (fun _ _ => sold) (fun _ _ _ => bought) fun _ _ _ => sold
  · intro c other
    have buys' : c ≠ buyer.clientId := fun eq => other (eq ▸ bought)
    have sells' : c ≠ seller.clientId := fun eq => other (eq ▸ sold)
    rw [cash_settlePair_ne env action buys sells s buys' sells']
    exact attributed.cash c other

/-- The same with the tasks. -/
structure Server.Attributed (A : ID → Prop) (d : Database) (s : Server) : Prop where
  db : d.Attributed A s.market.db
  tasks : ∀ t ∈ s.tasks, A t.client

namespace Server

variable {s s' : Server}

theorem Attributed.mono {B : ID → Prop} (more : ∀ c, A c → B c) (attributed : s.Attributed A d) :
    s.Attributed B d :=
  ⟨⟨fun o mem => more _ (attributed.db.orders o mem),
    fun c other => attributed.db.cash c (mt (more c) other)⟩,
    fun t mem => more _ (attributed.tasks t mem)⟩

theorem Attributed.addTask (attributed : s.Attributed A d) {t : Task} (own : A t.client) :
    (s.addTask t).Attributed A d :=
  ⟨attributed.db, List.forall_mem_append.mpr ⟨attributed.tasks, by simpa using own⟩⟩

theorem Attributed.withDb (attributed : s.Attributed A d) (db : d.Attributed A d') :
    (s.withDb d').Attributed A d :=
  ⟨db, attributed.tasks⟩

/-- The cash of a client in `A` may change. -/
theorem attributed_of_cash (attributed : d.Attributed A d') {client : ID} (own : A client)
    {d'' : Database} (orders : d''.orders = d'.orders)
    (others : ∀ c, c ≠ client → d''.ledger.cash c = d'.ledger.cash c) : d.Attributed A d'' :=
  ⟨orders ▸ attributed.orders, fun c other =>
    (others c fun eq => other (eq ▸ own)).trans (attributed.cash c other)⟩

theorem Attributed.perform (attributed : s.Attributed A d) {t : Task} (own : A t.client) :
    (s.perform env t).Attributed A d := by
  cases t with
  | enter o =>
      refine ⟨?_, attributed.tasks⟩
      have entered : d.Attributed A (s.market.accumulateOrder o).db := by
        unfold Market.accumulateOrder
        split
        · exact attributed.db
        · have rows := Relation.forall_insert (P := fun o => A o.clientId) attributed.db.orders
            (r := { o with orderStatus := .pending }) own
          dsimp only
          split <;> exact ⟨rows, attributed.db.cash⟩
      simp only [Server.perform]
      split
      · exact (keeps_attributed_matchAction readsRows_continuousPair env o.actionId _ entered).inv
      · exact entered
  | wait o =>
      exact attributed.withDb
        ⟨Relation.forall_insert attributed.db.orders own, attributed.db.cash⟩
  | withdraw client amount =>
      exact attributed.withDb (attributed_of_cash attributed.db own rfl fun c ne =>
        cash_withdraw_ne ne amount _)

/-- What the threads do is for clients in `A`. -/
theorem Attributed.thread (attributed : s.Attributed A d) (step : ThreadStep env order s s') :
    s'.Attributed A d := by
  cases step with
  | @perform t front back next =>
      have tasks := attributed.tasks
      rw [next, List.forall_mem_append, List.forall_mem_cons] at tasks
      obtain ⟨before, own, behind⟩ := tasks
      have rest : ({ s with tasks := front ++ back } : Server).Attributed A d :=
        ⟨attributed.db, List.forall_mem_append.mpr ⟨before, behind⟩⟩
      exact rest.perform own
  | @scan o nowDate nowDaily waits =>
      have removed : d.Attributed A (removeWaitingOrder o.clientId o.orderId s.market.db) :=
        ⟨Relation.forall_delete attributed.db.orders, attributed.db.cash⟩
      have own := attributed.db.orders o (List.mem_filter.mp waits).1
      unfold Server.scan
      dsimp only
      split
      · exact attributed.withDb removed
      · exact (attributed.withDb removed).addTask own
      · exact attributed
  | fixing =>
      exact ⟨(Loop.keeps_chain (keeps_attributed_matchAction readsRows_fixingPair env) _ _
        attributed.db).inv, attributed.tasks⟩
  | period running => exact ⟨attributed.db, attributed.tasks⟩
  | play => exact ⟨attributed.db, fun _ mem => absurd mem List.not_mem_nil⟩

/-- An effect for a client in `A`. -/
theorem Attributed.act (attributed : s.Attributed A d)
    (own : ∀ c, effect.client = some c → A c) : (s.act effect).Attributed A d := by
  cases effect with
  | authenticated client | registerClientSocket client => exact attributed
  | deposit client amount =>
      exact attributed.withDb (attributed_of_cash attributed.db (own client rfl)
        (orders_deposit client amount) fun c ne => cash_deposit_ne ne amount _)
  | askWithdrawal client amount => exact attributed.addTask (own client rfl)
  | placeOrder o =>
      refine attributed.addTask ?_
      have same : (orderTask o).client = o.clientId := by
        unfold orderTask
        split <;> rfl
      exact same ▸ own _ rfl

end Server

end

/-! ### Runs -/

/-- A message acts for a client: it registers a socket, deposits, is granted a withdrawal or
places an order. -/
def Entry.ActsFor (e : Entry) (client : ID) : Prop :=
  ∃ effect, e.handled.effect = some effect ∧ effect.client = some client

/-- What happens to clients goes back to messages that name them. -/
structure Network.Attributed (d : Database) (n : Network) : Prop where
  named : ∀ e ∈ n.entries, ∀ client, e.ActsFor client → e.received.Names client
  sockets : ∀ client connection, n.clientSockets.lookup client = some connection →
    ∃ e ∈ n.entries, e.connection = connection ∧
      e.handled.effect = some (.registerClientSocket client)
  server : n.server.Attributed (fun client => ∃ e ∈ n.entries, e.ActsFor client) d

namespace Network

variable {d : Database} {n n' : Network}

/-- A socket that is registered is that of the message, or it was registered before. -/
theorem lookup_register {connection connection' : Connection} {sockets : Table ID Connection}
    (found : (register connection sockets effect).lookup client = some connection') :
    effect = .registerClientSocket client ∧ connection = connection' ∨
      sockets.lookup client = some connection' := by
  cases effect with
  | registerClientSocket client' =>
      by_cases same : client = client'
      · subst same
        rw [register, AList.lookup_insert] at found
        exact .inl ⟨rfl, Option.some.inj found⟩
      · rw [register, AList.lookup_insert_ne same] at found
        exact .inr found
  | _ => exact .inr found

/-- **A step lemma.** -/
theorem Attributed.step (attributed : n.Attributed d) (step : Step env order n n') :
    n'.Attributed d := by
  cases step with
  | @message connection r handled reads free returns =>
      have old : ∀ {e : Entry}, e ∈ n.entries → e ∈ (n.handle connection r handled).entries :=
        fun mem => List.mem_append_left _ mem
      have new : ⟨connection, r, handled⟩ ∈ (n.handle connection r handled).entries :=
        List.mem_append_right _ List.mem_cons_self
      have before : n.server.Attributed
          (fun client => ∃ e ∈ (n.handle connection r handled).entries, e.ActsFor client) d :=
        attributed.server.mono fun _ ⟨e, mem, acts⟩ => ⟨e, old mem, acts⟩
      constructor
      · refine List.forall_mem_append.mpr ⟨attributed.named, ?_⟩
        rw [List.forall_mem_singleton]
        rintro client ⟨effect, does, acts⟩
        exact names_of_effect returns does acts
      · intro client connection' found
        have earlier : n.clientSockets.lookup client = some connection' →
            ∃ e ∈ (n.handle connection r handled).entries, e.connection = connection' ∧
              e.handled.effect = some (.registerClientSocket client) := by
          intro found
          obtain ⟨e, mem, registers⟩ := attributed.sockets client connection' found
          exact ⟨e, old mem, registers⟩
        cases does : handled.effect with
        | none => exact earlier (by simpa [handle, does] using found)
        | some effect =>
            have found : (register connection n.clientSockets effect).lookup client
                = some connection' := by simpa [handle, does] using found
            rcases lookup_register found with ⟨rfl, rfl⟩ | found
            · exact ⟨_, new, rfl, does⟩
            · exact earlier found
      · cases does : handled.effect with
        | none => simpa [handle, does] using before
        | some effect =>
            have acted : (n.server.act effect).Attributed _ d :=
              before.act fun client acts => ⟨_, new, effect, does, acts⟩
            simpa [handle, does] using acted
  | thread step => exact { attributed with server := attributed.server.thread step }
  | unregister client =>
      refine { attributed with sockets := fun client' connection found => ?_ }
      by_cases same : client' = client
      · subst same
        rw [AList.lookup_erase] at found
        cases found
      · rw [AList.lookup_erase_ne same] at found
        exact attributed.sockets client' connection found

/-- **The acting client.** In every run, whatever a message does it does for the client that its
text begins with; a socket is that of a connection that has sent such a message; and every
order, and every change of a balance, is of a client for whom a message has acted. -/
theorem attributed_of_run (initial : d.Initial) (run : Runs env order d n) : n.Attributed d := by
  induction run with
  | refl =>
      constructor
      · exact fun _ mem => absurd mem List.not_mem_nil
      · exact fun _ _ found => absurd found (by simp)
      · refine ⟨⟨?_, fun _ _ => rfl⟩, fun _ mem => absurd mem List.not_mem_nil⟩
        intro o mem
        have none : o ∈ ([] : List OrderRow) := initial.orders ▸ mem
        cases none
  | tail _ step attributed => exact attributed.step step

end Network

/-! ### A deposit without authentication -/

/-- Some connection deposits for client 1. -/
def demoDeposit : Network :=
  Network.handle { server := { market := { db := Database.demo 0 1 } } } 7
    (demoReceived "1 50 deposit") { effect := some (.deposit 1 50) }

theorem runs_demoDeposit :
    Network.Runs countingEnv .stored (Database.demo 0 1) demoDeposit := by
  have returns : handleInput countingEnv (demoReceived "1 50 deposit")
      = .ok { effect := some (.deposit 1 50) } := by decide +kernel
  have free : (Database.demo 0 1).orderIdIsFree 1 := by decide
  exact Relation.ReflTransGen.single (.message 7 _ rfl free returns)

/-- It names client 1, whose balance has changed, and that of client 2 has not. -/
theorem attributed_demoDeposit :
    (demoReceived "1 50 deposit").Names 1 ∧ demoDeposit.server.market.db.ledger.cash 1 = 1050 ∧
      demoDeposit.server.market.db.ledger.cash 2 = (Database.demo 0 1).ledger.cash 2 := by
  have attributed := Network.attributed_of_run (Database.initial_demo 0 1) runs_demoDeposit
  have entry : ∀ e, e ∈ demoDeposit.entries →
      e = ⟨7, demoReceived "1 50 deposit", { effect := some (.deposit 1 50) }⟩ :=
    fun e mem => List.mem_singleton.mp mem
  refine ⟨?_, by decide +kernel, ?_⟩
  · exact attributed.named _ (List.mem_singleton.mpr rfl) 1 ⟨.deposit 1 50, rfl, rfl⟩
  · refine attributed.server.db.cash 2 ?_
    rintro ⟨e, mem, effect, does, acts⟩
    rw [entry e mem] at does
    obtain rfl := Option.some.inj does
    exact absurd (Option.some.inj acts) (by decide)

/-- The connection has never been answered AUTHENTIFICATION_SUCCESS. -/
theorem deposit_unauthenticated : ¬∀ n : Network,
    Network.Runs countingEnv .stored (Database.demo 0 1) n →
    ∀ front e back client, n.entries = front ++ e :: back → e.ActsFor client →
      ∃ e' ∈ front, e'.connection = e.connection ∧
        e'.handled.effect = some (.authenticated client) := by
  intro claim
  obtain ⟨e', mem, -⟩ := claim demoDeposit runs_demoDeposit [] _ [] 1 rfl
    ⟨.deposit 1 50, rfl, rfl⟩
  cases mem

end StockMarket.Sql
