import StockMarket.Lib.Locks

/-!
The locks and threads of the SQL server.

As in `Locking`, each function is given by the locks it takes and the threads it starts and waits
for. The mutex of `Database_Manager` is taken anew for every statement, and for the raw calls of
SQLite in `Market` and `server.cpp`. It is not recursive, so a function that holds it must not
run a statement; `mtx` is held while orders are matched, which runs statements and pushes
notifications. All locks are taken in one ascending order, and only `main` waits for threads.
-/

namespace StockMarket.Sql.Locking

open Locks
open Code (block)

/-- A name may be that of several threads, as for clients. -/
inductive ThreadName where
  | main
  | market
  | accept
  | trigger
  | client

inductive Mutex where
  | mtx
  /-- `Database_Manager::Mutex`. -/
  | database
  | clientSockets

abbrev Program := Code ThreadName Mutex Unit

/-! ### Database, messages and sockets -/

/-- `execute_SQL` and its like, or raw calls under the same mutex. -/
def executeSql : Program := .hold .database .exclusive .skip

/-- `get_new_order_id` and `get_new_message_id`. -/
def getNewId : Program := block [executeSql, .loop executeSql]

/-- A new message that is logged. -/
def logMessage : Program := block [getNewId, executeSql]

def registerClientSocket : Program := .hold .clientSockets .exclusive .skip
def unregisterClientSocket : Program := .hold .clientSockets .exclusive .skip

/-- A socket that cannot be written to is dropped. -/
def sendToClient : Program :=
  block [.hold .clientSockets .exclusive .skip, .either unregisterClientSocket .skip]

/-! ### The market -/

/-- The book is kept in order, which reads the prices of orders. -/
def accumulateOrder : Program := .loop executeSql

/-- The loop over the pairs of an action. -/
def matchPairs : Program :=
  .loop (block [.loop executeSql,
    .either .skip (block [logMessage, .either (block [sendToClient, sendToClient]) .skip,
      .loop (.either executeSql getNewId)])])

def processContinuousTrading : Program := matchPairs

/-- Over all actions. -/
def processFixing : Program := .loop matchPairs

/-- The first statement is a raw call in a block of its own. -/
def addClient : Program := block [executeSql, .loop executeSql]

/-! ### The threads -/

/-- What is done under `mtx` with an order. -/
def enterMarket : Program :=
  .hold .mtx .exclusive (block [accumulateOrder, .either processContinuousTrading .skip])

def authenticate : Program :=
  .either logMessage
    (block [executeSql,
      .either (block [executeSql, .either (block [executeSql, logMessage]) logMessage])
        (block [logMessage, registerClientSocket, logMessage])])

def placeOrder : Program :=
  block [.loop executeSql,
    .either logMessage
      (block [getNewId, logMessage, logMessage, sendToClient,
        .either enterMarket (.loop executeSql)])]

/-- Requests other than orders run statements and log a message. -/
def handleClient : Program :=
  block [.loop (.either authenticate (.either (block [.loop executeSql, logMessage]) placeOrder)),
    unregisterClientSocket]

def acceptClients : Program := .loop (.fork .client handleClient)

def triggerAndExpirationWatcher : Program :=
  .loop (block [executeSql,
    .loop (.either (block [.loop executeSql, logMessage])
      (block [.loop executeSql,
        .either (block [logMessage, .loop executeSql, enterMarket]) .skip]))])

def marketSession : Program :=
  block [logMessage, .hold .mtx .exclusive processFixing, logMessage, logMessage, logMessage,
    .hold .mtx .exclusive processFixing, logMessage]

/-! ### The programs -/

def getOrGenerateCryptedKeys : Program :=
  block [executeSql, executeSql, .either executeSql .skip]

def reset : Program := block [.loop executeSql, getOrGenerateCryptedKeys]

def init : Program := .loop (.either executeSql addClient)

def writeSimulationSummary : Program := .loop executeSql
def logOthersClientDisconnects : Program := block [executeSql, .loop logMessage]
def displayAllMessages : Program := block [executeSql, .loop executeSql]

def play : Program :=
  block [writeSimulationSummary, logMessage,
    .fork .market marketSession, .fork .accept acceptClients,
    .fork .trigger triggerAndExpirationWatcher,
    .join .market, .join .accept, .join .trigger,
    logMessage, logOthersClientDisconnects, displayAllMessages, writeSimulationSummary]

def main : Program := block [getOrGenerateCryptedKeys, .either reset (.either init play)]

def started : Pool ThreadName Mutex Unit where
  data := ()
  threads := [⟨.main, [.run main]⟩]

/-! ### The order of the locks -/

def rank : Mutex → Nat
  | .mtx => 0
  | .database => 1
  | .clientSockets => 2

def level : ThreadName → Nat
  | .main => 0
  | _ => 1

abbrev Safe : ThreadName → Nat → Program → Prop := Code.Safe rank level fun _ => Code.Unconditional

section

variable {own : ThreadName} {b : Nat}

@[simp] theorem executeSql_safe : Safe own b executeSql ↔ b ≤ 1 := by simp [executeSql, rank]

@[simp] theorem getNewId_safe : Safe own b getNewId ↔ b ≤ 1 := by simp [getNewId]

@[simp] theorem logMessage_safe : Safe own b logMessage ↔ b ≤ 1 := by simp [logMessage]

@[simp] theorem unregisterClientSocket_safe : Safe own b unregisterClientSocket ↔ b ≤ 2 := by
  simp [unregisterClientSocket, rank]

/-- The socket is dropped after the lock has been given back. -/
@[simp] theorem sendToClient_safe : Safe own b sendToClient ↔ b ≤ 2 := by
  simp [sendToClient, rank]

/-- Pairs are matched under `mtx`. -/
theorem matchPairs_safe : Safe own 1 matchPairs := by simp [matchPairs]

theorem enterMarket_safe : Safe own 0 enterMarket := by
  simp [enterMarket, accumulateOrder, processContinuousTrading, matchPairs_safe, rank]

theorem placeOrder_safe : Safe own 0 placeOrder := by simp [placeOrder, enterMarket_safe]

theorem handleClient_safe : Safe own 0 handleClient := by
  simp [handleClient, authenticate, registerClientSocket, placeOrder_safe]

theorem triggerAndExpirationWatcher_safe : Safe own 0 triggerAndExpirationWatcher := by
  simp [triggerAndExpirationWatcher, enterMarket_safe]

theorem marketSession_safe : Safe own 0 marketSession := by
  simp [marketSession, processFixing, matchPairs_safe, rank]

/-- `main` joins while it has no lock. -/
theorem play_safe : Safe .main 0 play := by
  simp [play, writeSimulationSummary, logOthersClientDisconnects, displayAllMessages,
    acceptClients, marketSession_safe, handleClient_safe, triggerAndExpirationWatcher_safe,
    Code.Unconditional, level]

theorem main_safe : Safe .main 0 main := by
  simp [main, reset, init, addClient, getOrGenerateCryptedKeys, play_safe]

end

/-! ### A client that waits for the market -/

section

variable {before after : List (Thread ThreadName Mutex Unit)} {name : ThreadName}
  {rest : List (Frame ThreadName Mutex Unit)} {c : Program} {cs : List Program} {b : Nat}

/-- The first part of a block is over. -/
theorem run_block (safe : Safe name b c) (only : c.Local)
    (unheld : UnheldFrom rank b (before ++ ⟨name, rest⟩ :: after)) :
    Run ⟨(), before ++ ⟨name, .run (block (c :: cs)) :: rest⟩ :: after⟩
      ⟨(), before ++ ⟨name, .run (block cs) :: rest⟩ :: after⟩ := by
  obtain ⟨⟨⟩, run⟩ := safe.1.run_through only (unheldFrom_run.mpr unheld) ()
  exact (Frame.Steps.seq c (block cs)).then run

@[simp] theorem executeSql_local : executeSql.Local := trivial

@[simp] theorem getNewId_local : getNewId.Local := by simp [getNewId, Code.Local]

@[simp] theorem logMessage_local : logMessage.Local := by simp [logMessage]

@[simp] theorem sendToClient_local : sendToClient.Local := by
  simp [sendToClient, unregisterClientSocket, Code.Local]

/-- `main` starts the market and the thread that accepts clients. -/
theorem play_run : ∃ rest, Run started ⟨(), [⟨.main, rest⟩, ⟨.market, [.run marketSession]⟩,
      ⟨.accept, [.run acceptClients]⟩]⟩ ∧ ∀ m mode, .release m mode ∉ rest := by
  have pass {rest : List (Frame ThreadName Mutex Unit)} {c : Program} {cs : List Program}
      (none : ∀ m mode, .release m mode ∉ rest) (safe : Safe .main 0 c) (only : c.Local) :
      Run ⟨(), [⟨.main, .run (block (c :: cs)) :: rest⟩]⟩
        ⟨(), [⟨.main, .run (block cs) :: rest⟩]⟩ := by
    refine @run_block [] [] .main rest c cs 0 safe only fun m _ t mem mode => ?_
    obtain rfl := List.mem_singleton.mp mem
    exact none m mode
  have keys : getOrGenerateCryptedKeys.Local := by simp [getOrGenerateCryptedKeys, Code.Local]
  have summary : writeSimulationSummary.Local := trivial
  apply Exists.intro
  constructor
  · refine (pass (by simp) (by simp [getOrGenerateCryptedKeys]) keys).trans ?_
    refine .head (Step.first (.seq _ _)) (.head (Step.first (.right _ _)) ?_)
    refine .head (Step.first (.right _ _)) ?_
    refine (pass (by simp) (by simp [writeSimulationSummary]) summary).trans ?_
    refine (pass (by simp) (by simp) (by simp)).trans ?_
    refine .head (Step.first (.seq _ _)) (.head (Step.first (.fork _ _)) ?_)
    exact .head (Step.first (.seq _ _)) (.head (Step.first (.fork _ _)) .refl)
  · simp

/-- A client comes with an order to where it must have `mtx`, whoever has it. -/
theorem handleClient_run (unheld : UnheldFrom rank 1 (before ++ ⟨.client, []⟩ :: after)) :
    ∃ rest, Run ⟨(), before ++ ⟨.client, [.run handleClient]⟩ :: after⟩
      ⟨(), before ++ ⟨.client, .run enterMarket :: rest⟩ :: after⟩ := by
  have pass {rest : List (Frame ThreadName Mutex Unit)} {c : Program} {cs : List Program} :=
    @run_block before after .client rest c cs 1
  apply Exists.intro
  -- it asks for an order
  refine (Frame.Steps.seq _ _).then ((Frame.Steps.again _).then ?_)
  refine (Frame.Steps.right _ _).then ((Frame.Steps.right _ _).then ?_)
  -- which is accepted
  refine (pass (by simp) (by simp [Code.Local]) (by simpa using unheld)).trans ?_
  refine (Frame.Steps.seq _ _).then ((Frame.Steps.right _ _).then ?_)
  refine (pass (by simp) (by simp) (by simpa using unheld)).trans ?_
  refine (pass (by simp) (by simp) (by simpa using unheld)).trans ?_
  refine (pass (by simp) (by simp) (by simpa using unheld)).trans ?_
  refine (pass (by simp) (by simp) (by simpa using unheld)).trans ?_
  exact (Frame.Steps.seq _ _).then ((Frame.Steps.left _ _).then .refl)

end

/-! ### No deadlock -/

/-- **The SQL server does not deadlock.** In whatever order its threads run, and whatever branches
they take, each thread has finished or waits, directly or through others, for a thread that can
move, and the threads can go on until all have finished. -/
theorem server_live {p : Pool ThreadName Mutex Unit} (run : Run started p) :
    (∀ t ∈ p.threads, t.stack = [] ∨
      ∃ t' ∈ p.threads, Relation.ReflTransGen p.WaitsFor t t' ∧ t'.CanMove p) ∧
    ((∃ p', Step p p') ∨ p.Finished) := by
  have ordered : p.Ordered rank level :=
    run.ordered (List.forall_mem_singleton.mpr ⟨main_safe.1, trivial⟩)
  have every : ∀ t ∈ p.threads, t.Every fun _ => Code.Unconditional := by
    refine run.every (List.forall_mem_singleton.mpr fun c mem => ?_)
    obtain rfl := Frame.run.inj (List.mem_singleton.mp mem)
    exact main_safe.2
  have reaches : ∀ t ∈ p.threads, t.stack = [] ∨
      ∃ t' ∈ p.threads, Relation.ReflTransGen p.WaitsFor t t' ∧ t'.CanMove p := by
    intro t mem
    by_cases unfinished : t.stack = []
    · exact .inl unfinished
    · exact .inr (ordered.reaches_moving every mem unfinished)
  refine ⟨reaches, ?_⟩
  by_cases moving : p.Moving
  · exact .inl moving.step
  · refine .inr fun t mem => (reaches t mem).resolve_right ?_
    rintro ⟨t', mem', -, can⟩
    exact moving ⟨t', mem', can⟩

/-- A client's order during the opening fixing. -/
theorem server_live_order : ∃ p, Run started p ∧ ∃ t ∈ p.threads, ¬t.CanMove p ∧
    (∃ rest, t.stack = .run enterMarket :: rest) ∧
      ∃ t' ∈ p.threads, Relation.ReflTransGen p.WaitsFor t t' ∧ t'.CanMove p := by
  obtain ⟨left, plays, none⟩ := play_run
  let first : Thread ThreadName Mutex Unit := ⟨.main, left⟩
  let fixing : Thread ThreadName Mutex Unit := ⟨.market,
    [.run processFixing, .release .mtx .exclusive, .run (block [logMessage, logMessage, logMessage,
      .hold .mtx .exclusive processFixing, logMessage])]⟩
  let accept : Thread ThreadName Mutex Unit := ⟨.accept, [.run acceptClients]⟩
  -- the opening fixing begins
  have opens : Run ⟨(), [first, ⟨.market, [.run marketSession]⟩, accept]⟩
      ⟨(), [first, fixing, accept]⟩ := by
    have unheld : UnheldFrom rank 0 ([first] ++ ⟨.market, []⟩ :: [accept]) := by
      simp [UnheldFrom, Thread.Holds, none, first, accept]
    refine (run_block (by simp) (by simp) unheld).trans ?_
    refine .head (@Step.move _ _ _ _ _ [first] [accept] _ _ _ _ _ (.seq _ _)) ?_
    refine .head (@Step.move _ _ _ _ _ [first] [accept] _ _ _ _ _ (.lock _ ?_)) .refl
    exact unheldFrom_run.mpr (unheldFrom_run.mpr unheld) .mtx (Nat.zero_le _)
  -- a client connects and sends its order
  have connects : Run ⟨(), [first, fixing, accept]⟩
      ⟨(), [first, fixing, accept, ⟨.client, [.run handleClient]⟩]⟩ :=
    .head (@Step.move _ _ _ _ _ [first, fixing] [] _ _ _ _ _ (.again _))
      (.head (@Step.move _ _ _ _ _ [first, fixing] [] _ _ _ _ _ (.fork _ _)) .refl)
  have unheld : UnheldFrom rank 1 ([first, fixing, accept] ++ ⟨.client, []⟩ :: []) := by
    intro m le
    cases m with
    | mtx => exact absurd le (Nat.not_succ_le_zero 0)
    | database | clientSockets => simp [Thread.Holds, none, first, fixing, accept]
  obtain ⟨rest, orders⟩ := handleClient_run unheld
  have run : Run started _ := ((plays.trans opens).trans connects).trans orders
  let client : Thread ThreadName Mutex Unit := ⟨.client, .run enterMarket :: rest⟩
  have mem : client ∈ [first, fixing, accept, client] := by simp
  have held : ¬client.CanMove ⟨(), [first, fixing, accept, client]⟩ := by
    rintro ⟨_, _, top, can⟩
    cases top
    exact can.1 fixing (by simp) .exclusive (by simp [Thread.Holds, fixing])
  exact ⟨_, run, client, mem, held, ⟨rest, rfl⟩,
    ((server_live run).1 client mem).resolve_left (List.cons_ne_nil _ _)⟩

end StockMarket.Sql.Locking
