import Mathlib.Data.List.Forall2
import StockMarket.Net.Framing
import StockMarket.Net.Session

/-!
Clients and their server, byte for byte.

A `System` is a server with its connections; on each of them a client makes calls
(`ClientConnection::send_command`) and a thread of the server runs `handle_connection`. Bytes
move in parts of any size, connections are lost, reads time out, and all this in any order,
while other threads use the engine. The server of every system is one that handles whole
messages (`ServerState.Serves`), and the answers that its clients get are what became of these
messages (`calls_exact`). Calls do not hang (`call_returns`), and a client that takes an answer
for its authentication is right (`authenticated_iff`).
-/

namespace StockMarket

open Lockstep

/-! ### Answers as bytes -/

/-- A character of the model is a byte of the source. -/
def toBytes (text : String) : List Byte :=
  text.toList.map fun c => BitVec.ofNat 8 c.toNat

def ofBytes (bytes : List Byte) : String :=
  String.ofList (bytes.map fun byte => Char.ofNat byte.toNat)

section

variable (write : Double → String) (latency : String)

def OrderStatus.reply (filled : Int) (trades : Nat) : OrderStatus → String
  | .queued => "QUEUED"
  | .filled => s!"FILLED filled={filled} trades={trades}"
  | .noLiquidity => "NO_LIQUIDITY filled=0"
  | .resting => "RESTING filled=0"

/-- The text of a response. `write` is how a stream writes a number, and `latency` the report
of the latencies. -/
def Response.reply : Response → String
  | .text message => message
  | .orderRejected orderId reason => s!"ERR ORDER order_id={orderId} reason={reason}"
  | .order orderId status filled trades =>
      s!"OK ORDER order_id={orderId} status={status.reply filled trades}"
  | .portfolio cash holdings =>
      "OK PORTFOLIO cash=" ++ write cash ++ String.join (holdings.map fun h => s!" {h.1}={h.2}")
  | .market symbol last vwap volume bid ask =>
      s!"OK MARKET {symbol} last={write last} vwap={write vwap} volume={volume}" ++
        bid.elim "" (" bid=" ++ write ·) ++ ask.elim "" (" ask=" ++ write ·)
  | .symbols names => "OK SYMBOLS" ++ String.join (names.map (" " ++ ·))
  | .metrics report waitingOrders =>
      s!"OK METRICS orders_submitted={report.ordersSubmitted}" ++
        s!" orders_accepted={report.ordersAccepted} orders_rejected={report.ordersRejected}" ++
        s!" orders_queued={report.ordersQueued} orders_expired={report.ordersExpired}" ++
        s!" trades_executed={report.tradesExecuted} volume_traded={report.volumeTraded}" ++
        s!" | submit_latency: {latency} waiting_orders={waitingOrders}"

/-- What is sent for a message. -/
def Outcome.reply : Outcome → String
  | .registered _ client token => s!"OK REGISTERED client_id={client} token={token}"
  | .loggedIn _ _ client token => s!"OK LOGIN client_id={client} token={token}"
  | .resumed _ client => s!"OK RESUMED client_id={client}"
  | .dispatched _ response => response.reply write latency
  | .refused message => message
  | .left => "OK BYE"

end

/-- Whether the loop of `handle_connection` goes on: `break` after QUIT, and if the response to
a command cannot be sent. -/
def Outcome.fate : Outcome → Fate
  | .registered _ _ _ | .loggedIn _ _ _ _ | .resumed _ _ | .refused _ => .goesOn
  | .dispatched _ _ => .ifSent
  | .left => .leaves

/-! ### Systems -/

/-- A server and its connections. -/
structure System where
  server : ServerState
  connections : Nat → Connection Byte := fun _ => {}

section

variable (digest : String → HexText) (write : Double → String)

/-- Something happens: on a connection, a message that is there is handled, or other threads
use the engine. -/
inductive System.Step : System → System → Prop where
  | move {s : System} (c : Nat) {connection : Connection Byte}
      (goes : Lockstep.Move framed (s.connections c) connection) :
      Step s { s with connections := Function.update s.connections c connection }
  | handle {s : System} (m : Message) (latency : String) {command : List Byte} {outcome : Outcome}
      {connection : Connection Byte} (line : m.line = ofBytes command)
      (became : s.server.outcome digest m = some outcome)
      (goes : Handle framed command (toBytes (outcome.reply write latency)) outcome.fate
        (s.connections m.connection) connection) :
      Step s {
        server := s.server.receive digest m
        connections := Function.update s.connections m.connection connection }
  | meanwhile {s : System} (engine : MatchingEngine Double) :
      Step s { s with server := { s.server with exchange := { s.server.exchange with engine } } }

/-- The systems that there can be: a server that starts, and what happens then. -/
inductive System.Reachable : System → Prop where
  | start {exchange : Exchange Double} (serves : ServerState.Serves digest { exchange }) :
      Reachable { server := { exchange } }
  | step {s s' : System} (reached : Reachable s) (goes : System.Step digest write s s') :
      Reachable s'

/-- What became of the messages on one connection. -/
def outcomesOn (c : Nat) (trace : List (Nat × Outcome)) : List Outcome :=
  trace.filterMap fun entry => if entry.1 = c then some entry.2 else none

/-- An outcome is what became of a command, and its answer says so. -/
def Answers (exchanged : List Byte × List Byte) (outcome : Outcome) : Prop :=
  ∃ (server : ServerState) (m : Message) (latency : String), m.line = ofBytes exchanged.1 ∧
    server.outcome digest m = some outcome ∧ exchanged.2 = toBytes (outcome.reply write latency)

end

/-- What may become of a message on a connection that is bound to a client, or to none. -/
def Outcome.Permitted : Option ClientId → Outcome → Prop
  | none, .dispatched _ _ => False
  | some client, .dispatched other _ => other = client
  | some _, .registered _ _ _ | some _, .loggedIn _ _ _ _ | some _, .resumed _ _ => False
  | _, _ => True

/-- Each message met the connection as those before it had bound it. -/
def Lawful (outcomes : List Outcome) : Prop :=
  ∀ before o after, outcomes = before ++ o :: after →
    o.Permitted (before.filterMap Outcome.bound).head?

/-! ### One message -/

section

variable {digest : String → HexText} {write : Double → String} {s s' : System}

theorem outcomesOn_append (c : Nat) (trace : List (Nat × Outcome)) (c' : Nat) (o : Outcome) :
    outcomesOn c (trace ++ [(c', o)])
      = outcomesOn c trace ++ if c' = c then [o] else [] := by
  unfold outcomesOn
  rw [List.filterMap_append]
  by_cases same : c' = c <;> simp [same]

theorem bindings_eq (c : Nat) (trace : List (Nat × Outcome)) :
    bindings c trace = (outcomesOn c trace).filterMap Outcome.bound := by
  unfold bindings outcomesOn
  rw [List.filterMap_filterMap]
  congr 1
  funext entry
  by_cases same : entry.1 = c <;> simp [same]

theorem Lawful.append {outcomes : List Outcome} {o : Outcome} (lawful : Lawful outcomes)
    (permitted : o.Permitted (outcomes.filterMap Outcome.bound).head?) :
    Lawful (outcomes ++ [o]) := by
  intro before o' after split
  rcases List.eq_nil_or_concat after with rfl | ⟨after, last, rfl⟩
  · obtain ⟨rfl, rfl⟩ := List.append_inj' split rfl |>.imp id List.singleton_inj.mp
    exact permitted
  · rw [List.concat_eq_append, ← List.cons_append, ← List.append_assoc] at split
    obtain ⟨rfl, -⟩ := List.append_inj' split rfl
    exact lawful before o' after rfl

/-- A message is handled as its connection is bound. -/
theorem Handled.permitted {m : Message} {x x' : Exchange Double} {session session' : Session}
    {o : Outcome} (handled : Handled digest m x session ((session', o), x')) :
    o.Permitted (if session.authenticated then [session.clientId] else []).head? := by
  cases handled with
  | refused message =>
      cases session.authenticated <;> exact trivial
  | left => cases session.authenticated <;> exact trivial
  | registered username password engine new free => rw [new]; exact trivial
  | loggedIn username password account new known verified => rw [new]; exact trivial
  | resumed token client new issued => rw [new]; exact trivial
  | dispatched response bound => rw [bound]; exact rfl

/-- What a message was that led to an outcome. -/
def Outcome.Reports (tokens : List String) : Outcome → Prop
  | .registered username _ _ => tokens.getD 0 "" = "REGISTER" ∧ tokens.getD 1 "" = username
  | .loggedIn username password _ _ =>
      tokens.getD 0 "" = "LOGIN" ∧ tokens.getD 1 "" = username ∧ tokens.getD 2 "" = password
  | .resumed token _ => tokens.getD 0 "" = "RESUME" ∧ tokens.getD 1 "" = token
  | .dispatched _ _ => True
  | .refused message => "ERR ".toList <+: message.toList
  | .left => tokens.getD 0 "" = "QUIT"

theorem reports_handleMessage (m : Message) (x : Exchange Double) (session : Session) :
    ((handleMessage digest m session).exec x).1.2.Reports (split m.line) := by
  unfold handleMessage
  by_cases empty : split m.line = []
  · rw [if_pos empty]
    exact ⟨_, rfl⟩
  · rw [if_neg empty]
    by_cases bound : session.authenticated = true
    · rw [if_neg (not_not.mpr bound)]
      by_cases quits : (split m.line).getD 0 "" = "QUIT"
      · rw [if_pos quits]
        exact quits
      · rw [if_neg quits, Atomic.Prog.exec_bind]
        exact trivial
    · rw [if_pos bound]
      unfold handleUnauthenticated
      dsimp only
      split
      case isTrue registers =>
        rw [Atomic.Prog.exec_bind]
        cases ((registerCommand digest _ _ m.salt m.token).exec x).1 with
        | ok client token => exact ⟨registers.1, rfl⟩
        | usernameTaken => exact ⟨_, rfl⟩
      case isFalse =>
        split
        case isTrue logsIn =>
          rw [Atomic.Prog.exec_bind]
          dsimp only [Atomic.Prog.exec_step]
          cases (x.directory.authenticate digest _ _ m.token).1 with
          | ok client token => exact ⟨logsIn.1, rfl, rfl⟩
          | unknownUsername => exact ⟨_, rfl⟩
          | wrongPassword => exact ⟨_, rfl⟩
        case isFalse =>
          split
          case isTrue resumes =>
            rw [Atomic.Prog.exec_read_bind]
            cases x.directory.resolveToken ((split m.line).getD 1 "") with
            | some client => exact ⟨resumes.1, rfl⟩
            | none => exact ⟨_, rfl⟩
          case isFalse =>
            split
            case isTrue quits => exact quits
            case isFalse => exact ⟨_, rfl⟩

/-- Only QUIT closes a session. -/
theorem Handled.left_of_closed {m : Message} {x x' : Exchange Double} {session session' : Session}
    {o : Outcome} (handled : Handled digest m x session ((session', o), x'))
    (opened : session.closed = false) (closed : session'.closed = true) : o = .left := by
  cases handled with
  | left => rfl
  | _ => exact absurd (opened.symm.trans closed) (by simp)

/-! ### Runs -/

/-- What holds of a system: its server is one that handles messages, both ends of each
connection are in step, and the server has answered what became of its messages. -/
structure System.Linked (digest : String → HexText) (write : Double → String) (s : System) :
    Prop where
  serves : ServerState.Serves digest s.server
  inStep : ∀ c, InStep framed (s.connections c)
  answers : ∀ c, List.Forall₂ (Answers digest write) (s.connections c).served
    (outcomesOn c s.server.trace)
  lawful : ∀ c, Lawful (outcomesOn c s.server.trace)
  left : ∀ c, (s.server.sessions c).closed = true → (s.connections c).server.Leaves

namespace System.Linked

theorem start {exchange : Exchange Double} (serves : ServerState.Serves digest { exchange }) :
    Linked digest write { server := { exchange } } where
  serves := serves
  inStep := fun _ => .new
  answers := fun _ => .nil
  lawful := fun _ before o after split => by
    have length := congrArg List.length split
    simp [outcomesOn] at length
  left := fun _ closed => by cases closed

theorem move (linked : Linked digest write s) (c : Nat) {connection : Connection Byte}
    (goes : Lockstep.Move framed (s.connections c) connection) :
    Linked digest write { s with connections := Function.update s.connections c connection } where
  serves := linked.serves
  inStep := (Function.forall_update_iff s.connections fun _ now => InStep framed now).mpr
    ⟨(linked.inStep c).move goes, fun c' _ => linked.inStep c'⟩
  answers := (Function.forall_update_iff s.connections fun c' now =>
      List.Forall₂ (Answers digest write) now.served (outcomesOn c' s.server.trace)).mpr
    ⟨goes.served_eq ▸ linked.answers c, fun c' _ => linked.answers c'⟩
  lawful := linked.lawful
  left := (Function.forall_update_iff s.connections fun c' now =>
      (s.server.sessions c').closed = true → now.server.Leaves).mpr
    ⟨fun closed => goes.leaves (linked.left c closed), fun c' _ => linked.left c'⟩

theorem handle (linked : Linked digest write s) (m : Message) (latency : String)
    {command : List Byte} {outcome : Outcome} {connection : Connection Byte}
    (line : m.line = ofBytes command) (became : s.server.outcome digest m = some outcome)
    (goes : Handle framed command (toBytes (outcome.reply write latency)) outcome.fate
      (s.connections m.connection) connection) :
    Linked digest write {
      server := s.server.receive digest m
      connections := Function.update s.connections m.connection connection } := by
  have inv := linked.serves.invariant
  rcases ServerState.receive_cases s.server m with ⟨-, ignored⟩ | ⟨session, o, x,
    handled, became', eq⟩
  · rw [ignored] at became
    cases became
  obtain rfl := Option.some.inj (became'.symm.trans became)
  have opened : (s.server.sessions m.connection).closed = false := by
    by_contra closed
    rw [ServerState.outcome, if_pos (Bool.not_eq_false _ ▸ closed)] at became
    cases became
  have answered : connection.served
      = (s.connections m.connection).served ++ [(command, toBytes (o.reply write latency))] := by
    cases goes
    rfl
  have permitted : o.Permitted
      ((outcomesOn m.connection s.server.trace).filterMap Outcome.bound).head? := by
    rw [← bindings_eq, inv.bound]
    exact handled.permitted
  refine ⟨linked.serves.receive m, fun c => ?inStep, fun c => ?answers, fun c => ?lawful,
    fun c closed => ?left⟩
  case inStep =>
    dsimp only
    by_cases same : c = m.connection
    · subst same
      rw [Function.update_self]
      exact (linked.inStep _).handle goes
    · rw [Function.update_of_ne same]
      exact linked.inStep c
  case answers =>
    rw [eq]
    dsimp only
    rw [outcomesOn_append]
    by_cases same : c = m.connection
    · subst same
      rw [Function.update_self, answered, if_pos rfl]
      exact List.rel_append (linked.answers _)
        (.cons ⟨s.server, m, latency, line, became, rfl⟩ .nil)
    · rw [Function.update_of_ne same, if_neg (Ne.symm same), List.append_nil]
      exact linked.answers c
  case lawful =>
    rw [eq]
    dsimp only
    rw [outcomesOn_append]
    by_cases same : c = m.connection
    · subst same
      rw [if_pos rfl]
      exact (linked.lawful _).append permitted
    · rw [if_neg (Ne.symm same), List.append_nil]
      exact linked.lawful c
  case left =>
    rw [eq] at closed
    dsimp only at closed ⊢
    by_cases same : c = m.connection
    · subst same
      rw [Function.update_self] at closed ⊢
      obtain rfl := handled.left_of_closed opened closed
      cases goes
      exact trivial
    · rw [Function.update_of_ne same] at closed ⊢
      exact linked.left c closed

theorem step (linked : Linked digest write s) (goes : Step digest write s s') :
    Linked digest write s' := by
  cases goes with
  | move c goes => exact linked.move c goes
  | handle m latency line became goes => exact linked.handle m latency line became goes
  | meanwhile engine =>
      exact ⟨linked.serves.meanwhile engine, linked.inStep, linked.answers,
        linked.lawful, linked.left⟩

end System.Linked

theorem System.Reachable.linked (reached : Reachable digest write s) : s.Linked digest write := by
  induction reached with
  | start serves => exact .start serves
  | step reached goes ih => exact ih.step goes

/-- **Calls are exact**: the server of a system is one that handles whole messages; on each
connection it has handled the commands of the client in their order and each of them once, and
has answered what became of them; and as long as no call has failed, the calls of the client
have returned these answers, all of them if the client is idle. -/
theorem calls_exact (reached : s.Reachable digest write) :
    ServerState.Serves digest s.server ∧ ∀ c, let connection := s.connections c
      connection.served.map Prod.fst <+: connection.commands ∧
      List.Forall₂ (Answers digest write) connection.served (outcomesOn c s.server.trace) ∧
      (connection.Unfailed →
        connection.calls
          = (connection.served.take connection.calls.length).map (fun e => (e.1, some e.2)) ∧
        connection.served.length ≤ connection.calls.length + 1 ∧
        (connection.client = .idle → connection.served.length = connection.calls.length)) := by
  have linked := reached.linked
  refine ⟨linked.serves, fun c => ?_⟩
  have inStep := linked.inStep c
  refine ⟨inStep.served, linked.answers c, fun unfailed => ⟨inStep.answered unfailed, ?_, ?_⟩⟩
  · exact inStep.length_served_le.trans (InStep.length_commands_le _)
  · intro idle
    rw [inStep.calls_of_idle unfailed idle, List.length_map]

/-! ### Calls return -/

/-- A step in which the two ends of a connection get on. -/
def System.Advance (digest : String → HexText) (write : Double → String) (c : Nat)
    (s s' : System) : Prop :=
  Step digest write s s' ∧ Next framed (s.connections c) (s'.connections c)

/-- What happens until the two ends of a connection get on: anything but on this connection. -/
def System.Meantime (digest : String → HexText) (write : Double → String) (c : Nat) :
    System → System → Prop :=
  Relation.ReflTransGen fun s s' =>
    Step digest write s s' ∧ s'.connections c = s.connections c

theorem System.Meantime.same {c : Nat} (meantime : Meantime digest write c s s') :
    s'.connections c = s.connections c := by
  induction meantime with
  | refl => rfl
  | tail _ goes ih => rw [goes.2, ih]

/-- **Calls return.** While the connection is up, a call of a client that had no failure gets
on unless the server has left, whatever else happens; and it does so only so often. -/
theorem call_returns (reached : s.Reachable digest write) {c : Nat}
    (unfailed : (s.connections c).Unfailed) (up : (s.connections c).up = true)
    (calling : (s.connections c).client ≠ .idle)
    (commands : ∀ command ∈ (s.connections c).unserved, Fits command)
    (answers : ∀ answer ∈ (s.connections c).unreturned, Fits answer)
    (answerable : ∀ read command m outcome, (s.connections c).server = .listening read →
      framed.reading read = .message command → m.connection = c → m.line = ofBytes command →
      s.server.outcome digest m = some outcome →
      ∃ latency, (toBytes (outcome.reply write latency)).length < 2 ^ 64) :
    ((∃ s', System.Advance digest write c s s') ∨ (s.connections c).server = .closed) ∧
      Acc (fun s' s => s.Reachable digest write ∧
        ∃ s₁, System.Meantime digest write c s s₁ ∧ System.Advance digest write c s₁ s') s := by
  have linked := reached.linked
  refine ⟨?_, ?_⟩
  · rcases exists_next (linked.inStep c) unfailed up calling commands answers with
      ⟨connection, goes⟩ | ⟨read, command, stands, whole⟩ | closed
    · refine .inl ⟨_, .move c (.work goes), ?_⟩
      dsimp only
      rw [Function.update_self]
      exact .work goes
    · have opened : ¬(s.server.sessions c).closed = true := fun closed => by
        have leaves := linked.left c closed
        rwa [stands] at leaves
      obtain ⟨m, here, line⟩ : ∃ m : Message, m.connection = c ∧ m.line = ofBytes command :=
        ⟨{ ServerState.messageOn c (ofBytes command) with connection := c }, rfl, rfl⟩
      subst here
      obtain ⟨outcome, became⟩ : ∃ outcome, s.server.outcome digest m = some outcome :=
        ⟨_, if_neg opened⟩
      obtain ⟨latency, small⟩ := answerable read command m outcome stands whole rfl line became
      refine .inl ⟨_, .handle m latency line became (.handle stands whole small), ?_⟩
      dsimp only
      rw [Function.update_self]
      exact .handle command _ _ (.handle stands whole small)
    · exact .inr closed
  · have ends := InvImage.wf (fun s : System => s.connections c) (next_wellFounded (F := framed))
    refine Subrelation.accessible ?_ (ends.apply s)
    rintro later now ⟨reached, between, meantime, -, next⟩
    rw [meantime.same] at next
    exact ⟨reached.linked.inStep c, next⟩

/-! ### Authentication -/

/-- The command of `authenticate` of the client program. -/
def authenticateCommand (username password : String) (doRegister : Bool) : String :=
  (if doRegister then "REGISTER " else "LOGIN ") ++ username ++ " " ++ password

/-- The command of `authenticate_resume`. -/
def resumeCommand (token : String) : String :=
  "RESUME " ++ token

/-- The first command of a client program. -/
inductive Authenticates : String → Prop where
  | authenticate (username password : String) (doRegister : Bool) :
      Authenticates (authenticateCommand username password doRegister)
  | resume (token : String) : Authenticates (resumeCommand token)

theorem toBytes_append (a b : String) : toBytes (a ++ b) = toBytes a ++ toBytes b := by
  simp [toBytes]

theorem splitFrom_append {word : List Char} (solid : ∀ c ∈ word, isSpace c = false)
    (rest : List Char) : ∀ token, splitFrom token (word ++ rest)
    = splitFrom (token ++ word) rest := by
  induction word with
  | nil => exact fun token => by rw [List.nil_append, List.append_nil]
  | cons c word ih =>
      intro token
      have letter := solid c List.mem_cons_self
      rw [List.cons_append, splitFrom, letter, if_neg (by simp),
        ih (fun d mem => solid d (List.mem_cons_of_mem _ mem)), List.append_assoc]
      rfl

/-- The first token of a text that begins with a word and a blank. -/
theorem split_toBytes_append {word : String} (some : word.toList ≠ [])
    (plain : (ofBytes (toBytes word)).toList = word.toList)
    (solid : word.toList.all fun c => !isSpace c) (rest : String) :
    (split (ofBytes (toBytes (word ++ " " ++ rest)))).getD 0 "" = word := by
  have text : (ofBytes (toBytes (word ++ " " ++ rest))).toList
      = word.toList ++ ' ' :: (ofBytes (toBytes rest)).toList := by
    rw [← plain]
    simp [ofBytes, toBytes]
  have letters : ∀ c ∈ word.toList, isSpace c = false := by
    simpa using solid
  rw [split, text, splitFrom_append letters, List.nil_append, splitFrom, if_pos (by decide),
    if_neg some]
  simp

theorem Authenticates.first_token {line : String} (authenticates : Authenticates line) :
    (split (ofBytes (toBytes line))).getD 0 "" ≠ "QUIT" := by
  cases authenticates with
  | authenticate username password doRegister =>
      unfold authenticateCommand
      cases doRegister with
      | true =>
          have first := @split_toBytes_append "REGISTER" (by decide) (by decide)
            (by decide) (username ++ " " ++ password)
          rw [← String.append_assoc, ← String.append_assoc] at first
          rw [if_pos rfl]
          exact first ▸ by decide
      | false =>
          have first := @split_toBytes_append "LOGIN" (by decide) (by decide)
            (by decide) (username ++ " " ++ password)
          rw [← String.append_assoc, ← String.append_assoc] at first
          rw [if_neg (by decide)]
          exact first ▸ by decide
  | resume token =>
      have first := @split_toBytes_append "RESUME" (by decide) (by decide) (by decide) token
      exact first ▸ by decide

/-- An answer to a first message that begins with OK says that the connection is bound. -/
theorem ok_prefix_iff {o : Outcome} {tokens : List String} (latency : String)
    (permitted : o.Permitted none) (reports : o.Reports tokens)
    (notQuit : tokens.getD 0 "" ≠ "QUIT") :
    toBytes "OK" <+: toBytes (o.reply write latency) ↔ o.bound ≠ none := by
  have start {text : String} (rest : String) (eq : text = "OK" ++ rest) :
      toBytes "OK" <+: toBytes text := by
    rw [eq, toBytes_append]
    exact List.prefix_append _ _
  cases o with
  | registered username client token =>
      refine iff_of_true ?_ (Option.some_ne_none _)
      exact start s!" REGISTERED client_id={client} token={token}" rfl
  | loggedIn username password client token =>
      refine iff_of_true ?_ (Option.some_ne_none _)
      exact start s!" LOGIN client_id={client} token={token}" rfl
  | resumed token client =>
      refine iff_of_true ?_ (Option.some_ne_none _)
      exact start s!" RESUMED client_id={client}" rfl
  | dispatched client response => exact permitted.elim
  | refused message =>
      obtain ⟨rest, text⟩ := reports
      refine iff_of_false (fun ok => ?_) (not_not.mpr rfl)
      obtain ⟨more, same⟩ := ok
      have bytes : toBytes message = toBytes "ERR " ++ rest.map fun c =>
          BitVec.ofNat 8 c.toNat := by
        rw [toBytes, ← text, List.map_append]
        rfl
      have first := congrArg List.head? (same.trans bytes)
      rw [List.head?_append_of_ne_nil _ (by decide),
        List.head?_append_of_ne_nil _ (by decide)] at first
      exact absurd first (by decide)
  | left => exact absurd reports notQuit

theorem Outcome.Permitted.bound_eq {client : ClientId} {o : Outcome}
    (permitted : o.Permitted (some client)) : o.bound = none := by
  cases o with
  | registered _ _ _ | loggedIn _ _ _ _ | resumed _ _ => exact permitted.elim
  | dispatched _ _ | refused _ | left => rfl

/-- **A client that takes an answer for its authentication is right**: if no call has failed,
the first answer begins with OK exactly if it bound the connection, to the account that the
message names; the connection is then bound to this client for good, and every later command
was run for it. -/
theorem authenticated_iff (reached : s.Reachable digest write) {c : Nat}
    (unfailed : (s.connections c).Unfailed) {line : String} (authenticates : Authenticates line)
    {answer : List Byte} {later : List (List Byte × Option (List Byte))}
    (calls : (s.connections c).calls = (toBytes line, some answer) :: later) :
    ∃ first others, outcomesOn c s.server.trace = first :: others ∧
      first.Reports (split (ofBytes (toBytes line))) ∧
      (toBytes "OK" <+: answer ↔ first.bound ≠ none) ∧
      ∀ client, first.bound = some client →
        bindings c s.server.trace = [client] ∧ ∀ o ∈ others, o.Permitted (some client) := by
  have linked := reached.linked
  obtain ⟨rest, served⟩ : ∃ rest, (s.connections c).served = (toBytes line, answer) :: rest := by
    have answered := (linked.inStep c).answered unfailed
    rw [calls] at answered
    cases served : (s.connections c).served with
    | nil =>
        rw [served] at answered
        cases answered
    | cons e rest =>
        rw [served, List.length_cons, List.take_succ_cons, List.map_cons] at answered
        have same := (List.cons.inj answered).1
        rw [Prod.mk.injEq, Option.some.injEq] at same
        exact ⟨rest, by rw [same.1, same.2]⟩
  have answers := linked.answers c
  have lawful := linked.lawful c
  rw [served] at answers
  cases outcomes : outcomesOn c s.server.trace with
  | nil =>
      rw [outcomes] at answers
      cases answers
  | cons first others =>
      rw [outcomes] at answers lawful
      obtain ⟨server, m, latency, sameLine, became, reply⟩ := (List.forall₂_cons.mp answers).1
      have reports : first.Reports (split (ofBytes (toBytes line))) := by
        rw [← sameLine]
        unfold ServerState.outcome at became
        split at became
        · cases became
        · obtain rfl := Option.some.inj became
          exact reports_handleMessage m _ _
      refine ⟨first, others, rfl, reports, ?_, fun client bound => ?_⟩
      · change answer = _ at reply
        rw [reply]
        exact ok_prefix_iff latency (lawful [] first others rfl) reports authenticates.first_token
      · have permitted : ∀ o ∈ others, o.Permitted (some client) := by
          intro o mem
          obtain ⟨before, after, split⟩ := List.append_of_mem mem
          have met := lawful (first :: before) o after (by rw [split, List.cons_append])
          rwa [List.filterMap_cons_some bound, List.head?_cons] at met
        have nothing : others.filterMap Outcome.bound = [] :=
          List.filterMap_eq_nil_iff.mpr fun o mem => (permitted o mem).bound_eq
        refine ⟨?_, permitted⟩
        rw [bindings_eq, outcomes, List.filterMap_cons_some bound, nothing]

end

/-! ### A first call -/

/-- A system in which only the first connection is used. -/
def firstConnection (server : ServerState) (connection : Connection Byte) : System where
  server := server
  connections := Function.update (fun _ => {}) 0 connection

section

variable {digest : String → HexText} {write : Double → String} {server : ServerState}
  {now next : Connection Byte}

theorem System.Reachable.move (reached : (firstConnection server now).Reachable digest write)
    (goes : Lockstep.Move framed now next) :
    (firstConnection server next).Reachable digest write := by
  have here : (firstConnection server now).connections 0 = now := by
    simp [firstConnection]
  have step := reached.step (.move 0 (here.symm ▸ goes))
  rwa [firstConnection, Function.update_idem] at step

theorem System.Reachable.handle (reached : (firstConnection server now).Reachable digest write)
    {m : Message} (first : m.connection = 0) {latency : String} {command : List Byte}
    {outcome : Outcome} (line : m.line = ofBytes command)
    (became : server.outcome digest m = some outcome)
    (goes : Handle framed command (toBytes (outcome.reply write latency)) outcome.fate now next) :
    (firstConnection (server.receive digest m) next).Reachable digest write := by
  have here : (firstConnection server now).connections m.connection = now := by
    simp [firstConnection, first]
  have step := reached.step (.handle m latency line became (here.symm ▸ goes))
  rwa [first, firstConnection, Function.update_idem] at step

end

/-- A server that has just started. -/
def startedServer : ServerState where
  exchange := freshExchange

/-- A client that sends its first command. -/
def registering : Connection Byte where
  client := .sending (toBytes "REGISTER a b") (frame (toBytes "REGISTER a b"))

theorem reachable_registering :
    (firstConnection startedServer registering).Reachable (fun _ => someHex) (fun _ => "") := by
  have start : (firstConnection startedServer {}).Reachable (fun _ => someHex) (fun _ => "") := by
    have new : System.Reachable (fun _ => someHex) (fun _ => "") _ :=
      .start (ServerState.Serves.fresh freshExchange.engine)
    rwa [firstConnection, Function.update_eq_self]
  have small : (toBytes "REGISTER a b").length < 2 ^ 64 := by decide
  exact start.move (.begin (.call rfl small))

/-- A client that registers, in one call. -/
theorem reachable_registered : ∃ s : System, s.Reachable (fun _ => someHex) (fun _ => "") ∧
    (s.connections 0).calls = [(toBytes "REGISTER a b",
      some (toBytes "OK REGISTERED client_id=1 token=c0ffee"))] := by
  obtain ⟨outcome, became, reply⟩ : ∃ outcome,
      startedServer.outcome (fun _ => someHex) (ServerState.messageOn 0 "REGISTER a b")
        = some outcome ∧
      outcome.reply (fun _ => "") "" = "OK REGISTERED client_id=1 token=c0ffee" :=
    Option.map_eq_some_iff.mp (by decide +kernel)
  have unsent : (frame (toBytes "REGISTER a b")).drop 20 = [] := by decide
  have unanswered : (frame (toBytes "OK REGISTERED client_id=1 token=c0ffee")).drop 46 = [] := by
    decide
  have small : (toBytes (outcome.reply (fun _ => "") "")).length < 2 ^ 64 := by
    rw [reply]
    decide
  have sent := reachable_registering.move
    (.work (.clientSends (n := 20) rfl rfl (by decide) (by decide)))
  have waits := sent.move (.work (.clientSent (congrArg (Client.sending _) unsent)))
  have header := waits.move
    (.work (.serverReads (n := 8) rfl rfl (by decide) (by decide) (by decide)))
  have whole := header.move
    (.work (.serverReads (n := 12) rfl rfl (by decide) (by decide) (by decide)))
  have handled := whole.handle rfl rfl became (.handle rfl rfl small)
  rw [reply] at handled
  have answers := handled.move
    (.work (.serverSends (n := 46) rfl rfl (by decide) (by decide)))
  have answered := answers.move
    (.work (.serverSent (congrArg (Server.answering · _) unanswered)))
  have header' := answered.move
    (.work (.clientReads (n := 8) rfl rfl (by decide) (by decide)
      (Nat.le_of_ble_eq_true rfl)))
  have whole' := header'.move
    (.work (.clientReads (n := 38) rfl rfl (by decide) (Nat.le_of_ble_eq_true rfl)
      (Nat.le_of_ble_eq_true rfl)))
  exact ⟨_, whole'.move (.work (.answered rfl rfl)), rfl⟩

theorem calls_exact_registered : ∃ s : System,
    (s.connections 0).calls = [(toBytes "REGISTER a b",
      some (toBytes "OK REGISTERED client_id=1 token=c0ffee"))] ∧
    (outcomesOn 0 s.server.trace).length = (s.connections 0).served.length := by
  obtain ⟨s, reached, calls⟩ := reachable_registered
  exact ⟨s, calls, ((calls_exact reached).2 0).2.1.length_eq.symm⟩

/-- The call of the client that registers gets on. -/
theorem call_returns_registering : ∃ s s' : System, (s.connections 0).client ≠ .idle ∧
    System.Advance (fun _ => someHex) (fun _ => "") 0 s s' := by
  have here : (firstConnection startedServer registering).connections 0 = registering := by
    simp [firstConnection]
  have calling : registering.client ≠ .idle := by simp [registering]
  have unfailed : registering.Unfailed := by simp [registering, Connection.Unfailed]
  have commands : ∀ command ∈ registering.unserved, Fits command := by decide
  have answers : ∀ answer ∈ registering.unreturned, Fits answer := by decide
  obtain ⟨⟨s', goes⟩ | closed, -⟩ := call_returns reachable_registering (c := 0)
    (here ▸ unfailed) (here ▸ rfl) (here ▸ calling) (here ▸ commands) (here ▸ answers) (by
      intro read command m outcome stands whole
      rw [here] at stands
      cases stands
      cases whole)
  · exact ⟨_, s', here ▸ calling, goes⟩
  · rw [here] at closed
    cases closed

theorem authenticated_iff_registered : ∃ s : System, ∃ client : ClientId,
    bindings 0 s.server.trace = [client] ∧
    (s.connections 0).calls = [(toBytes "REGISTER a b",
      some (toBytes "OK REGISTERED client_id=1 token=c0ffee"))] := by
  obtain ⟨s, reached, calls⟩ := reachable_registered
  obtain ⟨first, others, -, -, ok, bound⟩ := authenticated_iff reached (c := 0)
    (by rw [Connection.Unfailed, calls]; simp) (.authenticate "a" "b" true) calls
  obtain ⟨client, now⟩ := Option.ne_none_iff_exists'.mp (ok.mp (by decide))
  exact ⟨s, client, (bound client now).1, calls⟩

end StockMarket
