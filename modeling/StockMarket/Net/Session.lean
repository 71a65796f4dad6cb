import StockMarket.Net.Snapshot

/-!
Whom a connection acts for.

`handle_connection` binds a connection to a client with the first REGISTER, LOGIN or
RESUME that succeeds, and from then on runs every command for that client
(`session_binding`). Messages on any number of connections come in any order, and
between two of them other threads may do anything to the engine. A server starts with
no accounts, or with those that were exported from another one, so client ids are never
given twice (`Distinct`).
-/

namespace StockMarket

open Atomic MatchingEngine

/-- What became of a message. -/
inductive Outcome where
  | registered (username : String) (client : ClientId) (token : String)
  | loggedIn (username password : String) (client : ClientId) (token : String)
  | resumed (token : String) (client : ClientId)
  | dispatched (client : ClientId) (response : Response)
  | refused (message : String)
  | left

/-- The local variables of `handle_connection`. A session is closed when its loop has
been left. -/
structure Session where
  clientId : ClientId := 0
  authenticated : Bool := false
  closed : Bool := false

/-- The connection acts for a client. -/
def Session.bind (session : Session) (client : ClientId) : Session :=
  { session with clientId := client, authenticated := true }

/-- A message with the connection it comes in on, the salt and the token that are drawn
if it asks for them, and what its command meets. -/
structure Message where
  connection : Nat
  line : String
  salt : HexText
  token : HexText
  env : Env

section

variable (digest : String → HexText)

/-- A message of a client that is not authenticated. -/
def handleUnauthenticated (tokens : List String) (salt token : HexText) (session : Session) :
    Prog (Exchange Double) (Session × Outcome) :=
  let arg := fun i => tokens.getD i ""
  if arg 0 = "REGISTER" ∧ tokens.length = 3 then do
    match ← registerCommand digest (arg 1) (arg 2) salt token with
    | .ok client token => return (session.bind client, .registered (arg 1) client token)
    | .usernameTaken => return (session, .refused "ERR USERNAME_TAKEN")
  else if arg 0 = "LOGIN" ∧ tokens.length = 3 then do
    let outcome ← .step fun x =>
      let (outcome, directory) := x.directory.authenticate digest (arg 1) (arg 2) token
      (outcome, { x with directory })
    match outcome with
    | .ok client token => return (session.bind client, .loggedIn (arg 1) (arg 2) client token)
    | .unknownUsername => return (session, .refused "ERR UNKNOWN_USERNAME")
    | .wrongPassword => return (session, .refused "ERR WRONG_PASSWORD")
  else if arg 0 = "RESUME" ∧ tokens.length = 2 then do
    match ← .read fun x => x.directory.resolveToken (arg 1) with
    | some client => return (session.bind client, .resumed (arg 1) client)
    | none => return (session, .refused "ERR UNKNOWN_TOKEN")
  else if arg 0 = "QUIT" then return ({ session with closed := true }, .left)
  else
    return (session, .refused ("ERR NOT_AUTHENTICATED (send REGISTER <user> <pass>, " ++
      "LOGIN <user> <pass>, or RESUME <token> first)"))

/-- One round of the loop of `handle_connection`. -/
def handleMessage (m : Message) (session : Session) :
    Prog (Exchange Double) (Session × Outcome) :=
  let tokens := split m.line
  if tokens = [] then return (session, .refused "ERR EMPTY_COMMAND")
  else if ¬session.authenticated then
    handleUnauthenticated digest tokens m.salt m.token session
  else if tokens.getD 0 "" = "QUIT" then return ({ session with closed := true }, .left)
  else do
    let response ← (dispatchCommand m.env m.line session.clientId).zoom Exchange.engine
      fun engine x => { x with engine }
    return (session, .dispatched session.clientId response)

/-- The server with its connections. `trace` is a history variable: what became of each
message, and on which connection. -/
structure ServerState where
  exchange : Exchange Double
  sessions : Nat → Session := fun _ => {}
  trace : List (Nat × Outcome) := []

namespace ServerState

/-- What becomes of a message, if its connection is still open. -/
def outcome (s : ServerState) (m : Message) : Option Outcome :=
  if (s.sessions m.connection).closed then none
  else some ((handleMessage digest m (s.sessions m.connection)).exec s.exchange).1.2

/-- The server after a message. -/
def receive (s : ServerState) (m : Message) : ServerState :=
  if (s.sessions m.connection).closed then s
  else
    let ((session, outcome), exchange) :=
      (handleMessage digest m (s.sessions m.connection)).exec s.exchange
    { exchange := exchange
      sessions := Function.update s.sessions m.connection session
      trace := s.trace ++ [(m.connection, outcome)] }

/-- The servers that there can be: new ones without accounts or with the accounts that
another one exported, and what they become by messages, while other threads use the
engine. -/
inductive Serves : ServerState → Prop where
  | fresh (engine : MatchingEngine Double) : Serves { exchange := { directory := {}, engine } }
  | restored {s : ServerState} (order : IterationOrder String Account)
      (engine : MatchingEngine Double) : Serves s →
      Serves { exchange := {
        directory := ClientDirectory.importAll (s.exchange.directory.exportAccounts order) {}
        engine } }
  | receive {s : ServerState} (m : Message) : Serves s → Serves (s.receive digest m)
  | meanwhile {s : ServerState} (engine : MatchingEngine Double) : Serves s →
      Serves { s with exchange := { s.exchange with engine } }

end ServerState

/-! ### One message -/

/-- What the round of a message may do to the exchange and to its session, and what is
reported. -/
inductive Handled (m : Message) (x : Exchange Double) (session : Session) :
    (Session × Outcome) × Exchange Double → Prop where
  | refused (message : String) : Handled m x session ((session, .refused message), x)
  | left : Handled m x session (({ session with closed := true }, .left), x)
  | registered (username password : String) (engine : MatchingEngine Double)
      (new : session.authenticated = false) (free : username ∉ x.directory.accounts) :
      Handled m x session
        ((session.bind x.directory.nextClientId,
            .registered username x.directory.nextClientId m.token.text),
          { directory := (x.directory.registerClient digest username password m.salt m.token).2
            engine })
  | loggedIn (username password : String) (account : Account)
      (new : session.authenticated = false)
      (known : x.directory.accounts.lookup username = some account)
      (verified : ClientDirectory.hashPassword digest account.saltHex password
        = account.passwordHashHex) :
      Handled m x session
        ((session.bind account.clientId,
            .loggedIn username password account.clientId m.token.text),
          { x with directory := (x.directory.authenticate digest username password m.token).2 })
  | resumed (token : String) (client : ClientId) (new : session.authenticated = false)
      (issued : x.directory.resolveToken token = some client) :
      Handled m x session ((session.bind client, .resumed token client), x)
  | dispatched (response : Response) (bound : session.authenticated = true) :
      Handled m x session
        ((session, .dispatched session.clientId response),
          { x with engine := x.engine.afterMessage session.clientId m.line m.env })

variable {digest}

theorem exec_zoom_engine {α : Type} : ∀ (p : Prog (MatchingEngine Double) α) (x : Exchange Double),
    (p.zoom Exchange.engine fun engine x => { x with engine }).exec x
      = ((p.exec x.engine).1, { x with engine := (p.exec x.engine).2 })
  | .ret _, _ => rfl
  | .act action next, x => exec_zoom_engine (next (action x.engine).1) _

theorem registerClient_of_free {d : ClientDirectory} {username : String}
    (free : username ∉ d.accounts) (password : String) (salt token : HexText) :
    d.registerClient digest username password salt token
      = (.ok d.nextClientId token.text,
          (d.registerClient digest username password salt token).2) := by
  unfold ClientDirectory.registerClient
  rw [if_neg free]

theorem authenticate_of_verified {d : ClientDirectory} {username password : String}
    {account : Account} (known : d.accounts.lookup username = some account)
    (verified : ClientDirectory.hashPassword digest account.saltHex password
      = account.passwordHashHex) (token : HexText) :
    d.authenticate digest username password token
      = (.ok account.clientId token.text,
          { d with tokens := Table.tryEmplace token.text account.clientId d.tokens }) := by
  simp only [ClientDirectory.authenticate, known, verified, ne_eq, not_true_eq_false, if_false]

theorem handled_register {m : Message} {x : Exchange Double} {session : Session}
    (new : session.authenticated = false) (username password : String) :
    Handled digest m x session (Prog.exec (do
      match ← registerCommand digest username password m.salt m.token with
      | .ok client token => return (session.bind client, .registered username client token)
      | .usernameTaken => return (session, .refused "ERR USERNAME_TAKEN")) x) := by
  simp only [registerCommand, Prog.exec_bind, Prog.exec_step]
  by_cases taken : username ∈ x.directory.accounts
  · have refused : x.directory.registerClient digest username password m.salt m.token
        = (.usernameTaken, x.directory) := if_pos taken
    rw [refused]
    exact .refused _
  · rw [registerClient_of_free taken]
    simp only [Prog.exec_bind, exec_zoom_engine, Prog.exec_pure]
    exact .registered username password _ new taken

theorem handled_login {m : Message} {x : Exchange Double} {session : Session}
    (new : session.authenticated = false) (username password : String) :
    Handled digest m x session (Prog.exec (do
      let outcome ← .step fun x : Exchange Double =>
        let (outcome, directory) := x.directory.authenticate digest username password m.token
        (outcome, { x with directory })
      match outcome with
      | .ok client token => return (session.bind client, .loggedIn username password client token)
      | .unknownUsername => return (session, .refused "ERR UNKNOWN_USERNAME")
      | .wrongPassword => return (session, .refused "ERR WRONG_PASSWORD")) x) := by
  simp only [Prog.exec_bind, Prog.exec_step]
  cases known : x.directory.accounts.lookup username with
  | none =>
      have refused : x.directory.authenticate digest username password m.token
          = (.unknownUsername, x.directory) := by
        simp only [ClientDirectory.authenticate, known]
      rw [refused]
      exact .refused _
  | some account =>
      by_cases verified : ClientDirectory.hashPassword digest account.saltHex password
          = account.passwordHashHex
      · have step := Handled.loggedIn (m := m) username password account new known verified
        rw [authenticate_of_verified known verified] at step ⊢
        exact step
      · have refused : x.directory.authenticate digest username password m.token
            = (.wrongPassword, x.directory) := by
          simp only [ClientDirectory.authenticate, known, ne_eq, verified, not_false_eq_true,
            if_true]
        rw [refused]
        exact .refused _

/-- **Every message** is handled in one of these ways. -/
theorem handled (m : Message) (x : Exchange Double) (session : Session) :
    Handled digest m x session ((handleMessage digest m session).exec x) := by
  unfold handleMessage
  by_cases empty : split m.line = []
  · rw [if_pos empty]
    exact .refused _
  · rw [if_neg empty]
    by_cases bound : session.authenticated = true
    · rw [if_neg (not_not.mpr bound)]
      by_cases quits : (split m.line).getD 0 "" = "QUIT"
      · rw [if_pos quits]
        exact .left
      · rw [if_neg quits, Prog.exec_bind, exec_zoom_engine]
        exact .dispatched _ bound
    · rw [if_pos bound]
      unfold handleUnauthenticated
      dsimp only
      have new := Bool.eq_false_iff.mpr bound
      split
      · exact handled_register new _ _
      · split
        · exact handled_login new _ _
        · split
          · rw [Prog.exec_read_bind]
            cases issued : x.directory.resolveToken ((split m.line).getD 1 "") with
            | some client => exact .resumed _ client new issued
            | none => exact .refused _
          · split
            · exact .left
            · exact .refused _

end

/-! ### Histories -/

/-- The client that a message binds its connection to. -/
def Outcome.bound : Outcome → Option ClientId
  | .registered _ client _ | .loggedIn _ _ client _ | .resumed _ client => some client
  | .dispatched _ _ | .refused _ | .left => none

/-- The token that a message is given, and the client it is issued to. -/
def Outcome.issued : Outcome → Option (String × ClientId)
  | .registered _ client token | .loggedIn _ _ client token => some (token, client)
  | .resumed _ _ | .dispatched _ _ | .refused _ | .left => none

/-- The clients that a connection has been bound to, one after the other. -/
def bindings (connection : Nat) (trace : List (Nat × Outcome)) : List ClientId :=
  trace.filterMap fun entry => if entry.1 = connection then entry.2.bound else none

/-- All tokens that have been issued. -/
def issuedTokens (trace : List (Nat × Outcome)) : List (String × ClientId) :=
  trace.filterMap fun entry => entry.2.issued

/-- The clients that a token has been issued to. -/
def holders (token : String) (trace : List (Nat × Outcome)) : List ClientId :=
  ((issuedTokens trace).filter fun issue => issue.1 = token).map Prod.snd

theorem bindings_append (connection : Nat) (trace : List (Nat × Outcome)) (c : Nat) (o : Outcome) :
    bindings connection (trace ++ [(c, o)])
      = bindings connection trace ++ if c = connection then o.bound.toList else [] := by
  unfold bindings
  rw [List.filterMap_append]
  by_cases same : c = connection
  · cases bound : o.bound <;> simp [same, bound]
  · simp [same]

theorem issuedTokens_append (trace : List (Nat × Outcome)) (c : Nat) (o : Outcome) :
    issuedTokens (trace ++ [(c, o)]) = issuedTokens trace ++ o.issued.toList := by
  unfold issuedTokens
  rw [List.filterMap_append]
  cases issued : o.issued <;> simp [issued]

/-- A token that is issued only once has one holder. -/
theorem holders_length_le {token : String} {trace : List (Nat × Outcome)}
    (distinct : ((issuedTokens trace).map Prod.fst).Nodup) : (holders token trace).length ≤ 1 := by
  have once := List.nodup_iff_count_le_one.mp distinct token
  rw [List.count_eq_length_filter, List.filter_map, List.length_map] at once
  unfold holders
  rw [List.length_map]
  exact once

/-! ### Accounts -/

/-- No two accounts share a client id, and the next one is larger than all. -/
structure ClientDirectory.Distinct (d : ClientDirectory) : Prop where
  distinct : ∀ u u' a a', d.accounts.lookup u = some a → d.accounts.lookup u' = some a' →
    a.clientId = a'.clientId → u = u'
  below : ∀ u a, d.accounts.lookup u = some a → a.clientId < d.nextClientId

namespace ClientDirectory.Distinct

variable {d : ClientDirectory}

theorem fresh : Distinct {} where
  distinct := by rintro u u' a a' ⟨⟩
  below := by rintro u a ⟨⟩

/-- A new account is numbered above all others. -/
theorem registerClient (distinct : Distinct d) {digest : String → HexText}
    (username password : String) (salt token : HexText) :
    Distinct (d.registerClient digest username password salt token).2 := by
  unfold ClientDirectory.registerClient
  split
  · exact distinct
  · have cases : ∀ u a, AList.lookup u (d.accounts.insert username ({
          clientId := d.nextClientId
          saltHex := salt.text
          passwordHashHex := hashPassword digest salt.text password } : Account)) = some a →
        (u = username ∧ a.clientId = d.nextClientId) ∨ d.accounts.lookup u = some a := by
      intro u a look
      by_cases eq : u = username
      · subst eq
        obtain rfl := Option.some.inj ((AList.lookup_insert _).symm.trans look)
        exact .inl ⟨rfl, rfl⟩
      · rw [AList.lookup_insert_ne eq] at look
        exact .inr look
    constructor
    · intro u u' a a' look look' same
      rcases cases u a look with ⟨rfl, new⟩ | old <;> rcases cases u' a' look' with ⟨rfl, new'⟩ | old'
      · rfl
      · exact absurd (same.symm.trans new) (distinct.below u' a' old').ne
      · exact absurd (same.trans new') (distinct.below u a old).ne
      · exact distinct.distinct u u' a a' old old' same
    · intro u a look
      rcases cases u a look with ⟨-, new⟩ | old
      · exact new ▸ Int.lt_succ _
      · exact (distinct.below u a old).trans (Int.lt_succ _)

theorem authenticate (distinct : Distinct d) {digest : String → HexText}
    (username password : String) (token : HexText) :
    Distinct (d.authenticate digest username password token).2 := by
  unfold ClientDirectory.authenticate
  split
  · exact distinct
  · split
    · exact distinct
    · exact ⟨distinct.distinct, distinct.below⟩

/-- Importing records ends above all their numbers. -/
theorem lt_nextClientId_importAll : ∀ (records : List AccountRecord) (d : ClientDirectory),
    d.nextClientId ≤ (d.importAll records).nextClientId ∧
      ∀ record ∈ records, record.clientId < (d.importAll records).nextClientId
  | [], _ => ⟨le_rfl, by simp⟩
  | record :: records, d => by
      obtain ⟨grows, below⟩ := lt_nextClientId_importAll records (d.importAccount record)
      have next := nextClientId_importAccount record d
      refine ⟨(next ▸ le_max_left _ _).trans grows, fun r mem => ?_⟩
      rcases List.mem_cons.mp mem with rfl | mem
      · exact lt_of_lt_of_le (lt_of_lt_of_le (Int.lt_succ _) (next ▸ le_max_right _ _)) grows
      · exact below r mem

/-- Importing accounts issues no token. -/
theorem tokens_importAll (records : List AccountRecord) : ∀ d : ClientDirectory,
    (d.importAll records).tokens = d.tokens := by
  induction records with
  | nil => exact fun d => rfl
  | cons record records ih => exact fun d => ih (d.importAccount record)

/-- The accounts of another directory are restored with their numbers. -/
theorem restored (distinct : Distinct d) (order : IterationOrder String Account) :
    Distinct (importAll (d.exportAccounts order) {}) where
  distinct := by
    intro u u' a a' look look' same
    rw [lookup_restoreAccounts] at look look'
    exact distinct.distinct u u' a a' look look' same
  below := by
    intro u a look
    rw [lookup_restoreAccounts] at look
    exact (lt_nextClientId_importAll _ {}).2 ⟨u, a.clientId, a.saltHex, a.passwordHashHex⟩
      (mem_exportAccounts.mpr look)

end ClientDirectory.Distinct

/-! ### The invariant of the server -/

namespace ServerState

variable {digest : String → HexText} {s : ServerState}

/-- Each connection is bound to the client that its messages bound it to, a token leads to
the client that it was first issued to, and client ids are distinct. -/
structure Invariant (s : ServerState) : Prop where
  bound : ∀ c, bindings c s.trace
    = if (s.sessions c).authenticated then [(s.sessions c).clientId] else []
  tokens : ∀ token, s.exchange.directory.resolveToken token = (holders token s.trace).head?
  distinct : s.exchange.directory.Distinct

/-- What a message that is handled makes of the server. -/
theorem receive_cases (s : ServerState) (m : Message) :
    (s.receive digest m = s ∧ s.outcome digest m = none) ∨
      ∃ session outcome exchange,
        Handled digest m s.exchange (s.sessions m.connection) ((session, outcome), exchange) ∧
        s.outcome digest m = some outcome ∧
        s.receive digest m = {
          exchange := exchange
          sessions := Function.update s.sessions m.connection session
          trace := s.trace ++ [(m.connection, outcome)] } := by
  unfold receive outcome
  by_cases closed : (s.sessions m.connection).closed
  · exact .inl ⟨if_pos closed, if_pos closed⟩
  · refine .inr ⟨_, _, _, handled m s.exchange (s.sessions m.connection), if_neg closed, ?_⟩
    rw [if_neg closed]

/-- Binding the connection of a message. -/
theorem Invariant.bound_append (inv : s.Invariant) {c : Nat} {session : Session} {o : Outcome}
    (now : bindings c s.trace ++ o.bound.toList
      = if session.authenticated then [session.clientId] else []) (c' : Nat) :
    bindings c' (s.trace ++ [(c, o)])
      = if (Function.update s.sessions c session c').authenticated then
          [(Function.update s.sessions c session c').clientId] else [] := by
  rw [bindings_append]
  by_cases same : c' = c
  · subst same
    rw [if_pos rfl, Function.update_self]
    exact now
  · rw [if_neg (Ne.symm same), List.append_nil, Function.update_of_ne same]
    exact inv.bound c'

/-- A message that issues no token. -/
theorem holders_append_of_none {o : Outcome} (none : o.issued = none) (token : String) (c : Nat)
    (trace : List (Nat × Outcome)) : holders token (trace ++ [(c, o)]) = holders token trace := by
  unfold holders
  rw [issuedTokens_append, none, Option.toList_none, List.append_nil]

/-- Issuing a token. -/
theorem resolveToken_tryEmplace {d : ClientDirectory} {trace : List (Nat × Outcome)}
    (tokens : ∀ token, d.tokens.lookup token = (holders token trace).head?) {o : Outcome}
    {client : ClientId} {given : String} (issued : o.issued = some (given, client)) (c : Nat)
    (token : String) : (Table.tryEmplace given client d.tokens).lookup token
      = (holders token (trace ++ [(c, o)])).head? := by
  unfold holders
  rw [issuedTokens_append, issued, Option.toList_some, List.filter_append, List.map_append,
    List.head?_append]
  change _ = (holders token trace).head?.or _
  rw [← tokens]
  by_cases same : token = given
  · subst same
    rw [Table.lookup_tryEmplace_self]
    cases d.tokens.lookup token <;> simp
  · rw [Table.lookup_tryEmplace_ne same]
    simp [Ne.symm same]

/-- A message that neither binds its connection nor issues a token. -/
theorem Invariant.kept (inv : s.Invariant) {c : Nat} {session : Session} {o : Outcome}
    (bound : o.bound = none) (issued : o.issued = none)
    (same : session.authenticated = (s.sessions c).authenticated)
    (client : session.clientId = (s.sessions c).clientId) (engine : MatchingEngine Double) :
    Invariant {
      exchange := { s.exchange with engine }
      sessions := Function.update s.sessions c session
      trace := s.trace ++ [(c, o)] } where
  bound := inv.bound_append (by
    rw [bound, Option.toList_none, List.append_nil, same, client]
    exact inv.bound c)
  tokens := fun token => (inv.tokens token).trans (by
    dsimp only
    rw [holders_append_of_none issued])
  distinct := inv.distinct

/-- **Every message keeps the invariant.** -/
theorem Invariant.receive (inv : s.Invariant) (m : Message) : (s.receive digest m).Invariant := by
  rcases receive_cases s m with ⟨same, -⟩ | ⟨session, o, x, handled, -, eq⟩
  · rw [same]
    exact inv
  · rw [eq]
    have unbound : (s.sessions m.connection).authenticated = false →
        bindings m.connection s.trace = [] := by
      intro new
      rw [inv.bound, new]
      rfl
    cases handled with
    | refused message =>
        exact inv.kept (o := .refused message) rfl rfl rfl rfl s.exchange.engine
    | left => exact inv.kept (o := .left) rfl rfl (by rfl) (by rfl) s.exchange.engine
    | registered username password engine new free =>
        refine ⟨inv.bound_append ?_, ?_, inv.distinct.registerClient _ _ _ _⟩
        · rw [unbound new]
          rfl
        · intro token
          unfold ClientDirectory.registerClient
          rw [if_neg free]
          exact resolveToken_tryEmplace inv.tokens rfl m.connection token
    | loggedIn username password account new known verified =>
        refine ⟨inv.bound_append ?_, ?_, inv.distinct.authenticate _ _ _⟩
        · rw [unbound new]
          rfl
        · intro token
          rw [authenticate_of_verified known verified]
          exact resolveToken_tryEmplace inv.tokens rfl m.connection token
    | resumed token client new issued =>
        refine ⟨inv.bound_append ?_, fun other => ?_, inv.distinct⟩
        · rw [unbound new]
          rfl
        · rw [inv.tokens]
          exact congrArg List.head? (holders_append_of_none rfl other m.connection s.trace).symm
    | dispatched response bound =>
        exact inv.kept (o := .dispatched (s.sessions m.connection).clientId response) rfl rfl rfl
          rfl _

/-- **Every server has the invariant.** -/
theorem Serves.invariant (serves : Serves digest s) : s.Invariant := by
  induction serves with
  | fresh engine => exact ⟨fun _ => rfl, fun _ => rfl, .fresh⟩
  | restored order engine _ ih =>
      refine ⟨fun _ => rfl, fun token => ?_, ih.distinct.restored order⟩
      rw [ClientDirectory.resolveToken, ClientDirectory.Distinct.tokens_importAll]
      rfl
  | receive m _ ih => exact ih.receive m
  | meanwhile engine _ ih => exact ⟨ih.bound, ih.tokens, ih.distinct⟩

/-- What a message is to a server. -/
structure Binding (digest : String → HexText) (s : ServerState) (m : Message) : Prop where
  /-- A command is run for the one client that the connection has been bound to. -/
  dispatched : ∀ client response, s.outcome digest m = some (.dispatched client response) →
    bindings m.connection s.trace = [client] ∧
      (s.receive digest m).exchange.engine
        = s.exchange.engine.afterMessage client m.line m.env
  /-- A connection is bound once. -/
  once : ∀ outcome client, s.outcome digest m = some outcome → outcome.bound = some client →
    bindings m.connection s.trace = []
  /-- REGISTER binds to the account that it creates, with a client id that no other has. -/
  registered : ∀ username client token,
    s.outcome digest m = some (.registered username client token) →
    username ∉ s.exchange.directory.accounts ∧
      (∀ u a, s.exchange.directory.accounts.lookup u = some a → a.clientId ≠ client) ∧
      ∃ account, (s.receive digest m).exchange.directory.accounts.lookup username = some account ∧
        account.clientId = client
  /-- LOGIN binds to the account whose salted hash the password reproduced. -/
  loggedIn : ∀ username password client token,
    s.outcome digest m = some (.loggedIn username password client token) →
    ∃ account, s.exchange.directory.accounts.lookup username = some account ∧
      account.clientId = client ∧
      ClientDirectory.hashPassword digest account.saltHex password = account.passwordHashHex
  /-- RESUME binds to the only client that the token was issued to. -/
  resumed : ∀ token client, s.outcome digest m = some (.resumed token client) →
    holders token s.trace = [client]
  /-- Before a connection is bound, only a REGISTER that succeeds touches the engine. -/
  quiet : bindings m.connection s.trace = [] →
    (∀ username client token,
      s.outcome digest m ≠ some (.registered username client token)) →
    (s.receive digest m).exchange.engine = s.exchange.engine
  /-- No two accounts share a client id. -/
  unique : ∀ u u' a a', (s.receive digest m).exchange.directory.accounts.lookup u = some a →
    (s.receive digest m).exchange.directory.accounts.lookup u' = some a' →
    a.clientId = a'.clientId → u = u'

/-- **Session binding**, for the next message of every server, as long as no token has been
issued twice. -/
theorem session_binding (serves : Serves digest s) (m : Message)
    (distinct : ((issuedTokens s.trace).map Prod.fst).Nodup) : Binding digest s m := by
  have inv := serves.invariant
  have kept : (s.receive digest m).Invariant := inv.receive m
  have unique := kept.distinct.distinct
  have bound := inv.bound m.connection
  rcases receive_cases s m with ⟨same, ignored⟩ | ⟨session, o, x, handled, became, eq⟩
  · constructor
    case quiet => exact fun _ _ => by rw [same]
    case unique => exact unique
    all_goals
      intros
      simp_all
  · rw [eq] at unique
    have unbound : (s.sessions m.connection).authenticated = false →
        bindings m.connection s.trace = [] := by
      intro new
      rw [bound, new]
      rfl
    have only : ∀ o', s.outcome digest m = some o' → o' = o := fun o' same =>
      Option.some.inj (same.symm.trans became)
    constructor
    case dispatched =>
      intro client response same
      obtain rfl := only _ same
      cases handled with
      | dispatched _ authenticated =>
          rw [eq, bound, authenticated]
          exact ⟨rfl, rfl⟩
    case once =>
      intro o' client same binds
      obtain rfl := only _ same
      cases handled with
      | refused message => cases binds
      | left => cases binds
      | registered username password engine new free => exact unbound new
      | loggedIn username password account new known verified => exact unbound new
      | resumed token client new issued => exact unbound new
      | dispatched response authenticated => cases binds
    case registered =>
      intro username client token same
      obtain rfl := only _ same
      cases handled with
      | registered _ password engine new free =>
          refine ⟨free, fun u a look => (inv.distinct.below u a look).ne, ?_⟩
          rw [eq]
          unfold ClientDirectory.registerClient
          rw [if_neg free]
          exact ⟨_, AList.lookup_insert _, rfl⟩
    case loggedIn =>
      intro username password client token same
      obtain rfl := only _ same
      cases handled with
      | loggedIn _ _ account new known verified => exact ⟨account, known, rfl, verified⟩
    case resumed =>
      intro token client same
      obtain rfl := only _ same
      cases handled with
      | resumed _ _ new issued =>
          have held := (inv.tokens token).symm.trans issued
          have single : (holders token s.trace).length ≤ 1 := holders_length_le distinct
          match found : holders token s.trace, held, single with
          | [_], rfl, _ => rfl
    case quiet =>
      intro free none
      rw [eq]
      cases handled with
      | refused message => rfl
      | left => rfl
      | registered username password engine new free => exact absurd became (none _ _ _)
      | loggedIn username password account new known verified => rfl
      | resumed token client new issued => rfl
      | dispatched response authenticated =>
          rw [bound, authenticated] at free
          cases free
    case unique =>
      rw [eq]
      exact unique

/-- A message on some connection. -/
def messageOn (connection : Nat) (line : String) : Message where
  connection := connection
  line := line
  salt := someHex
  token := someHex
  env := quietEnv

/-- A client has registered on the first connection. -/
def aliceRegistered : ServerState :=
  receive (fun _ => someHex) { exchange := freshExchange } (messageOn 1 "REGISTER alice secret")

/-- The client comes back on a second connection with the token. -/
theorem session_binding_alice :
    Binding (fun _ => someHex) aliceRegistered (messageOn 2 ("RESUME " ++ someHex.text)) ∧
      (aliceRegistered.outcome (fun _ => someHex)
        (messageOn 2 ("RESUME " ++ someHex.text))).bind Outcome.bound = some 1 :=
  ⟨session_binding (.receive _ (.fresh _)) _ (by decide +kernel), by decide +kernel⟩

end ServerState

end StockMarket
