import Mathlib.Data.List.Basic
import Mathlib.Data.Prod.Lex
import Mathlib.Logic.Relation

/-!
Calls over streams of bytes.

A client sends a message and waits for the answer before it sends the next one; a server
reads a message, answers it and reads the next one. Each direction of the connection is a
stream of bytes, of which one call of a socket moves any part. A call fails when the
connection is lost or when nothing comes in time, and the client may go on after that.

How a reader tells a message from what follows it is a `Framing`. Whatever fails, a server
handles the commands of its client in their order and each of them once; and as long as no
call has failed, the client has got the answers to its own commands (`InStep`). While nothing
fails, each call that is under way comes to its end (`exists_next`, `next_wellFounded`).
-/

namespace StockMarket.Lockstep

variable {β : Type}

/-! ### Framing -/

/-- What a reader makes of the bytes that it has read: it wants up to so many more, or they
are a message, or it gives up. -/
inductive Reading (β : Type) where
  | wants (n : Nat)
  | message (payload : List β)
  | refused
  deriving DecidableEq

/-- What a reader should make of the front of a frame if `rest` is still to come. -/
inductive Reading.IsOf (Fits : Prop) (payload rest : List β) : Reading β → Prop where
  | wants {n : Nat} (pos : 0 < n) (le : n ≤ rest.length) : IsOf Fits payload rest (.wants n)
  | message (fits : Fits) (whole : rest = []) : IsOf Fits payload rest (.message payload)
  | refused (long : ¬Fits) : IsOf Fits payload rest .refused

/-- How messages are sent and read. -/
structure Framing (β : Type) where
  Sendable : List β → Prop
  Fits : List β → Prop
  frame : List β → List β
  reading : List β → Reading β
  wants_nil : ∃ n, 0 < n ∧ reading [] = .wants n
  isOf : ∀ {payload front rest}, Sendable payload → frame payload = front ++ rest →
    (reading front).IsOf (Fits payload) payload rest

/-- The bytes between a sender and a reader: `read` is what has been read of the first pending
message, `coming` is on its way, and `left` is still to be sent. -/
structure Aligned (F : Framing β) (pending : List (List β)) (read coming left : List β) : Prop where
  bytes : pending.flatMap F.frame = read ++ (coming ++ left)
  within : read = [] ∨ ∃ payload later, pending = payload :: later ∧ read <+: F.frame payload

namespace Aligned

variable {F : Framing β} {pending : List (List β)} {read coming left : List β}

theorem nil : Aligned F [] [] [] [] := ⟨rfl, .inl rfl⟩

theorem send (aligned : Aligned F pending read coming left) (n : Nat) :
    Aligned F pending read (coming ++ left.take n) (left.drop n) where
  bytes := by rw [aligned.bytes, List.append_assoc coming, List.take_append_drop]
  within := aligned.within

theorem lose (aligned : Aligned F pending read coming left) (n : Nat) :
    Aligned F pending read (coming.take n) (coming.drop n ++ left) where
  bytes := by rw [aligned.bytes, ← List.append_assoc (coming.take n), List.take_append_drop]
  within := aligned.within

theorem add (aligned : Aligned F pending read coming left) (payload : List β) :
    Aligned F (pending ++ [payload]) read coming (left ++ F.frame payload) where
  bytes := by simp [aligned.bytes]
  within := aligned.within.imp_right fun ⟨first, later, split, front⟩ =>
    ⟨first, later ++ [payload], by rw [split, List.cons_append], front⟩

/-- What is still to be read of the first pending message comes next. -/
theorem split {payload : List β} {later : List (List β)}
    (aligned : Aligned F (payload :: later) read coming left) :
    ∃ rest, F.frame payload = read ++ rest ∧ rest ++ later.flatMap F.frame = coming ++ left := by
  have front : read <+: F.frame payload := by
    rcases aligned.within with rfl | ⟨_, _, same, front⟩
    · exact List.nil_prefix
    · rwa [(List.cons.inj same).1]
  obtain ⟨rest, whole⟩ := front
  refine ⟨rest, whole.symm, ?_⟩
  have bytes := aligned.bytes
  rw [List.flatMap_cons, ← whole, List.append_assoc] at bytes
  exact List.append_cancel_left bytes

/-- A reader never reads beyond the message that it is reading. -/
theorem receive (aligned : Aligned F pending read coming left)
    (sendable : ∀ payload ∈ pending, F.Sendable payload) {want n : Nat}
    (wants : F.reading read = .wants want) (le : n ≤ want) (here : n ≤ coming.length) :
    Aligned F pending (read ++ coming.take n) (coming.drop n) left where
  bytes := by
    rw [aligned.bytes, List.append_assoc, ← List.append_assoc (coming.take n),
      List.take_append_drop]
  within := by
    match pending, aligned, sendable with
    | [], aligned, _ =>
        have empty := aligned.bytes
        simp only [List.flatMap_nil, List.nil_eq_append_iff, List.append_eq_nil_iff] at empty
        obtain ⟨rfl, rfl, -⟩ := empty
        exact .inl (by simp)
    | payload :: later, aligned, sendable =>
        obtain ⟨rest, whole, next⟩ := aligned.split
        have enough : n ≤ rest.length := by
          have expected := F.isOf (sendable payload List.mem_cons_self) whole
          rw [wants] at expected
          cases expected with
          | wants pos fits => exact le.trans fits
        have same : coming.take n = rest.take n := by
          have longer : (coming ++ left).take n = coming.take n :=
            List.take_append_of_le_length here
          rw [← longer, ← next, List.take_append_of_le_length enough]
        refine .inr ⟨payload, later, rfl, rest.drop n, ?_⟩
        rw [same, List.append_assoc, List.take_append_drop, whole]

/-- What a reader takes for a message is the next one, and all of it has been read. -/
theorem message (aligned : Aligned F pending read coming left)
    (sendable : ∀ payload ∈ pending, F.Sendable payload) {payload : List β}
    (whole : F.reading read = .message payload) :
    ∃ later, pending = payload :: later ∧ F.Fits payload ∧ Aligned F later [] coming left := by
  match pending, aligned, sendable with
  | [], aligned, _ =>
      have empty := aligned.bytes
      simp only [List.flatMap_nil, List.nil_eq_append_iff] at empty
      obtain ⟨n, -, wants⟩ := F.wants_nil
      rw [empty.1, wants] at whole
      cases whole
  | first :: later, aligned, sendable =>
      obtain ⟨rest, split, next⟩ := aligned.split
      have expected := F.isOf (sendable first List.mem_cons_self) split
      rw [whole] at expected
      cases expected with
      | message fits none =>
          subst none
          exact ⟨later, rfl, fits, next, .inl rfl⟩

/-- A reader to whom everything has been sent gets on. -/
theorem goes_on {payload : List β} {later : List (List β)}
    (aligned : Aligned F (payload :: later) read coming []) (sendable : F.Sendable payload)
    (fits : F.Fits payload) : F.reading read = .message payload ∨
      ∃ want, F.reading read = .wants want ∧ 0 < want ∧ 0 < coming.length := by
  obtain ⟨rest, split, next⟩ := aligned.split
  have expected := F.isOf sendable split
  cases reads : F.reading read with
  | wants want =>
      rw [reads] at expected
      cases expected with
      | wants pos le =>
          have length := congrArg List.length next
          rw [List.length_append, List.append_nil] at length
          exact .inr ⟨want, rfl, pos, by omega⟩
  | message other =>
      rw [reads] at expected
      cases expected with
      | message fits whole => exact .inl rfl
  | refused =>
      rw [reads] at expected
      cases expected with
      | refused long => exact absurd fits long

end Aligned

/-! ### A connection -/

/-- Where the client stands: between two calls, or in one. -/
inductive Client (β : Type) where
  | idle
  | sending (command left : List β)
  | waiting (command read : List β)

/-- What the server does after an answer: it goes on, or goes on if the answer has been sent,
or leaves. -/
inductive Fate where
  | goesOn
  | ifSent
  | leaves
  deriving DecidableEq

inductive Server (β : Type) where
  | listening (read : List β)
  | answering (left : List β) (fate : Fate)
  | closed

def Fate.sent : Fate → Server β
  | .goesOn | .ifSent => .listening []
  | .leaves => .closed

def Fate.failed : Fate → Server β
  | .goesOn => .listening []
  | .ifSent | .leaves => .closed

/-- Both ends of a connection and the bytes on their way. While it is not `up`, nothing more
can be sent. The last two fields are history variables: the calls that have returned, with
their answers, and the commands that have been handled, with theirs. -/
structure Connection (β : Type) where
  client : Client β := .idle
  server : Server β := .listening []
  toServer : List β := []
  toClient : List β := []
  up : Bool := true
  calls : List (List β × Option (List β)) := []
  served : List (List β × List β) := []

/-- The client begins a call. -/
inductive Begin (F : Framing β) : Connection β → Connection β → Prop where
  | call {c : Connection β} {command : List β} (phase : c.client = .idle)
      (sendable : F.Sendable command) :
      Begin F c { c with client := .sending command (F.frame command) }

/-- One end gets on, and nothing fails. -/
inductive Work (F : Framing β) : Connection β → Connection β → Prop where
  | clientSends {c : Connection β} {command left : List β} {n : Nat}
      (phase : c.client = .sending command left) (up : c.up) (pos : 0 < n) (le : n ≤ left.length) :
      Work F c { c with
        client := .sending command (left.drop n)
        toServer := c.toServer ++ left.take n }
  | clientSent {c : Connection β} {command : List β} (phase : c.client = .sending command []) :
      Work F c { c with client := .waiting command [] }
  | clientReads {c : Connection β} {command read : List β} {want n : Nat}
      (phase : c.client = .waiting command read) (wants : F.reading read = .wants want)
      (pos : 0 < n) (le : n ≤ want) (here : n ≤ c.toClient.length) :
      Work F c { c with
        client := .waiting command (read ++ c.toClient.take n)
        toClient := c.toClient.drop n }
  | answered {c : Connection β} {command read answer : List β}
      (phase : c.client = .waiting command read) (whole : F.reading read = .message answer) :
      Work F c { c with client := .idle, calls := c.calls ++ [(command, some answer)] }
  | serverReads {c : Connection β} {read : List β} {want n : Nat}
      (phase : c.server = .listening read) (wants : F.reading read = .wants want)
      (pos : 0 < n) (le : n ≤ want) (here : n ≤ c.toServer.length) :
      Work F c { c with
        server := .listening (read ++ c.toServer.take n)
        toServer := c.toServer.drop n }
  | serverSends {c : Connection β} {left : List β} {fate : Fate} {n : Nat}
      (phase : c.server = .answering left fate) (up : c.up) (pos : 0 < n) (le : n ≤ left.length) :
      Work F c { c with
        server := .answering (left.drop n) fate
        toClient := c.toClient ++ left.take n }
  | serverSent {c : Connection β} {fate : Fate} (phase : c.server = .answering [] fate) :
      Work F c { c with server := fate.sent }

/-- Something fails: a read by a timeout or at the end of the stream, a send when the
connection is lost, a message that is too long; or the connection is lost, with any part of
what is on its way. -/
inductive Fault (F : Framing β) : Connection β → Connection β → Prop where
  | sendFails {c : Connection β} {command left : List β}
      (phase : c.client = .sending command left) (unsent : left ≠ []) (down : c.up = false) :
      Fault F c { c with client := .idle, calls := c.calls ++ [(command, none)] }
  | noAnswer {c : Connection β} {command read : List β} {want : Nat}
      (phase : c.client = .waiting command read) (wants : F.reading read = .wants want) :
      Fault F c { c with client := .idle, calls := c.calls ++ [(command, none)] }
  | answerRefused {c : Connection β} {command read : List β}
      (phase : c.client = .waiting command read) (refused : F.reading read = .refused) :
      Fault F c { c with client := .idle, calls := c.calls ++ [(command, none)] }
  | noMessage {c : Connection β} {read : List β} {want : Nat}
      (phase : c.server = .listening read) (wants : F.reading read = .wants want) :
      Fault F c { c with server := .closed }
  | messageRefused {c : Connection β} {read : List β} (phase : c.server = .listening read)
      (refused : F.reading read = .refused) :
      Fault F c { c with server := .closed }
  | answerFails {c : Connection β} {left : List β} {fate : Fate}
      (phase : c.server = .answering left fate) (unsent : left ≠ []) (down : c.up = false) :
      Fault F c { c with server := fate.failed }
  | lost {c : Connection β} (n m : Nat) :
      Fault F c { c with
        up := false, toServer := c.toServer.take n, toClient := c.toClient.take m }

/-- The server has a whole message and handles it. -/
inductive Handle (F : Framing β) (command answer : List β) (fate : Fate) :
    Connection β → Connection β → Prop where
  | handle {c : Connection β} {read : List β} (phase : c.server = .listening read)
      (whole : F.reading read = .message command) (sendable : F.Sendable answer) :
      Handle F command answer fate c { c with
        server := .answering (F.frame answer) fate
        served := c.served ++ [(command, answer)] }

/-- What happens to a connection without the state of the server. -/
inductive Move (F : Framing β) (c c' : Connection β) : Prop where
  | begin (goes : Begin F c c')
  | work (goes : Work F c c')
  | fault (goes : Fault F c c')

/-! ### What holds of a connection -/

def Client.command : Client β → List (List β)
  | .idle => []
  | .sending command _ | .waiting command _ => [command]

def Client.left : Client β → List β
  | .sending _ left => left
  | .idle | .waiting _ _ => []

def Client.read : Client β → List β
  | .waiting _ read => read
  | .idle | .sending _ _ => []

def Server.left : Server β → List β
  | .answering left _ => left
  | .listening _ | .closed => []

def Server.read : Server β → List β
  | .listening read => read
  | .answering _ _ | .closed => []

namespace Connection

/-- The commands of all calls that have been begun. -/
def commands (c : Connection β) : List (List β) :=
  c.calls.map Prod.fst ++ c.client.command

/-- No call has failed. -/
def Unfailed (c : Connection β) : Prop :=
  ∀ call ∈ c.calls, call.2 ≠ none

/-- The commands that have not been handled. -/
def unserved (c : Connection β) : List (List β) :=
  c.commands.drop c.served.length

/-- The answers that no call has returned. -/
def unreturned (c : Connection β) : List (List β) :=
  (c.served.drop c.calls.length).map Prod.snd

end Connection

/-- The two ends are in step. -/
structure InStep (F : Framing β) (c : Connection β) : Prop where
  /-- Commands are handled in their order, and each of them once. -/
  served : c.served.map Prod.fst <+: c.commands
  /-- Calls that have not failed returned the answers to their own commands. -/
  answered : c.Unfailed → c.calls = (c.served.take c.calls.length).map fun e => (e.1, some e.2)
  sendable : ∀ command ∈ c.commands, F.Sendable command
  answerable : ∀ e ∈ c.served, F.Sendable e.2
  upstream : c.server ≠ .closed → ∃ left,
    Aligned F c.unserved c.server.read c.toServer left ∧ (c.up → left = c.client.left)
  downstream : c.Unfailed → ∃ left,
    Aligned F c.unreturned c.client.read c.toClient left ∧ (c.up → left = c.server.left)

/-! ### Steps -/

section

variable {F : Framing β} {c c' : Connection β}

/-- Nothing but handling a message changes what has been handled. -/
theorem Move.served_eq (goes : Move F c c') : c'.served = c.served := by
  cases goes with
  | begin goes => cases goes; rfl
  | work goes => cases goes <;> rfl
  | fault goes => cases goes <;> rfl

/-- The server has left, or will leave after an answer. -/
def Server.Leaves : Server β → Prop
  | .closed | .answering _ .leaves => True
  | .listening _ | .answering _ .goesOn | .answering _ .ifSent => False

/-- A server that leaves does not come back. -/
theorem Move.leaves (goes : Move F c c') (leaves : c.server.Leaves) : c'.server.Leaves := by
  cases goes with
  | begin goes => cases goes; exact leaves
  | work goes =>
      cases goes with
      | serverReads phase wants pos le here => rw [phase] at leaves; exact leaves.elim
      | @serverSends left fate n phase up pos le =>
          rw [phase] at leaves
          cases fate <;> exact leaves
      | @serverSent fate phase =>
          rw [phase] at leaves
          cases fate <;> exact leaves
      | _ => exact leaves
  | fault goes =>
      cases goes with
      | @answerFails left fate phase unsent down =>
          rw [phase] at leaves
          cases fate with
          | leaves => exact trivial
          | _ => exact leaves.elim
      | noMessage phase wants => exact trivial
      | messageRefused phase refused => exact trivial
      | _ => exact leaves

end

namespace InStep

variable {F : Framing β} {c c' : Connection β}

theorem new : InStep F {} where
  served := List.prefix_rfl
  answered := fun _ => rfl
  sendable := by simp [Connection.commands, Client.command]
  answerable := by simp
  upstream := fun _ => ⟨[], .nil, fun _ => rfl⟩
  downstream := fun _ => ⟨[], .nil, fun _ => rfl⟩

theorem length_served_le (inv : InStep F c) : c.served.length ≤ c.commands.length := by
  simpa using inv.served.length_le

theorem length_calls_le (inv : InStep F c) (unfailed : c.Unfailed) :
    c.calls.length ≤ c.served.length := by
  have same := congrArg List.length (inv.answered unfailed)
  rw [List.length_map, List.length_take] at same
  omega

theorem length_commands_le (c : Connection β) : c.commands.length ≤ c.calls.length + 1 := by
  rw [Connection.commands, List.length_append, List.length_map]
  cases c.client <;> simp [Client.command]

theorem sendable_unserved (inv : InStep F c) : ∀ command ∈ c.unserved, F.Sendable command :=
  fun _ mem => inv.sendable _ (List.mem_of_mem_drop mem)

theorem sendable_unreturned (inv : InStep F c) : ∀ answer ∈ c.unreturned, F.Sendable answer := by
  intro answer mem
  obtain ⟨e, here, rfl⟩ := List.mem_map.mp mem
  exact inv.answerable e (List.mem_of_mem_drop here)

/-- **A client that is idle has got all answers** if no call has failed. -/
theorem calls_of_idle (inv : InStep F c) (unfailed : c.Unfailed) (idle : c.client = .idle) :
    c.calls = c.served.map fun e => (e.1, some e.2) := by
  have most := inv.length_served_le
  rw [Connection.commands, idle, Client.command, List.append_nil, List.length_map] at most
  exact (inv.answered unfailed).trans (by rw [List.take_of_length_le most])

theorem begin (inv : InStep F c) (goes : Begin F c c') : InStep F c' := by
  cases goes with
  | @call command phase sendable =>
      have le := inv.length_served_le
      obtain ⟨client, server, toServer, toClient, up, calls, served⟩ := c
      obtain rfl := phase
      have more : Connection.commands ⟨.sending command (F.frame command), server,
          toServer, toClient, up,
          calls, served⟩ = Connection.commands ⟨.idle, server, toServer, toClient, up,
            calls, served⟩
            ++ [command] := by
        simp [Connection.commands, Client.command]
      refine ⟨?_, inv.answered, ?_, inv.answerable, fun opened => ?_, inv.downstream⟩
      · rw [more]
        exact inv.served.trans (List.prefix_append _ _)
      · rw [more]
        simpa [or_imp, forall_and] using ⟨inv.sendable, sendable⟩
      · obtain ⟨left, aligned, whole⟩ := inv.upstream opened
        refine ⟨left ++ F.frame command, ?_, fun up => ?_⟩
        · rw [Connection.unserved, more, List.drop_append_of_le_length le]
          exact aligned.add command
        · rw [whole up]
          rfl

/-- An answer that a call may return is the one to its own command. -/
theorem next_answer (inv : InStep F c) {command answer : List β} {later : List (List β)}
    (current : c.client.command = [command]) (next : c.unreturned = answer :: later) :
    ∃ rest, c.served.drop c.calls.length = (command, answer) :: rest ∧
    rest.map Prod.snd = later := by
  obtain ⟨⟨handled, _⟩, rest, split, rfl, rfl⟩ := List.map_eq_cons_iff.mp next
  refine ⟨rest, ?_, rfl⟩
  obtain ⟨more, whole⟩ := inv.served
  have ordered := congrArg (List.drop c.calls.length) whole
  have here : (c.calls.map Prod.fst).drop c.calls.length = [] := List.drop_of_length_le (by simp)
  have none : c.calls.length - (c.calls.map Prod.fst).length = 0 := by simp
  rw [List.drop_append, ← List.map_drop, split, Connection.commands, current, List.drop_append,
    here, none, List.nil_append, List.drop_zero, List.map_cons, List.cons_append] at ordered
  obtain rfl : handled = command := (List.cons.inj ordered).1
  exact split

theorem work (inv : InStep F c) (goes : Work F c c') : InStep F c' := by
  have toRead := inv.sendable_unserved
  have toReturn := inv.sendable_unreturned
  have fewer := inv.length_calls_le
  obtain ⟨client, server, toServer, toClient, up, calls, served⟩ := c
  cases goes with
  | @clientSends command left n phase opened pos le =>
      obtain rfl := phase
      obtain rfl := opened
      refine ⟨inv.served, inv.answered, inv.sendable, inv.answerable, fun opened => ?_,
        inv.downstream⟩
      obtain ⟨left', aligned, same⟩ := inv.upstream opened
      obtain rfl := same rfl
      exact ⟨_, aligned.send n, fun _ => rfl⟩
  | clientSent phase =>
      obtain rfl := phase
      exact ⟨inv.served, inv.answered, inv.sendable, inv.answerable, inv.upstream, inv.downstream⟩
  | clientReads phase wants pos le here =>
      obtain rfl := phase
      refine ⟨inv.served, inv.answered, inv.sendable, inv.answerable, inv.upstream,
        fun unfailed => ?_⟩
      obtain ⟨left, aligned, same⟩ := inv.downstream unfailed
      exact ⟨left, aligned.receive toReturn wants le here, same⟩
  | @answered command read answer phase whole =>
      obtain rfl := phase
      have same : Connection.commands ⟨.idle, server, toServer, toClient, up,
          calls ++ [(command, some answer)], served⟩
            = Connection.commands ⟨.waiting command read, server, toServer, toClient, up, calls,
                served⟩ := by
        simp [Connection.commands, Client.command]
      have earlier : ∀ {now : Connection β}, now.calls = calls ++ [(command, some answer)] →
          now.Unfailed → ∀ call ∈ calls, call.2 ≠ none :=
        fun eq unfailed call mem => unfailed call (eq ▸ List.mem_append_left _ mem)
      refine ⟨same ▸ inv.served, fun unfailed => ?_, same ▸ inv.sendable, inv.answerable,
        fun opened => ?_, fun unfailed => ?_⟩
      · obtain ⟨left, aligned, -⟩ := inv.downstream (earlier rfl unfailed)
        obtain ⟨later, next, -, -⟩ := aligned.message toReturn whole
        obtain ⟨rest, split, -⟩ := inv.next_answer rfl next
        have one : served.take (calls ++ [(command, some answer)]).length
            = served.take calls.length ++ [(command, answer)] := by
          rw [List.length_append, List.take_add, split]
          rfl
        change calls ++ _ = List.map _ (List.take _ served)
        rw [one, List.map_append, ← inv.answered (earlier rfl unfailed)]
        rfl
      · unfold Connection.unserved
        rw [same]
        exact inv.upstream opened
      · obtain ⟨left, aligned, up⟩ := inv.downstream (earlier rfl unfailed)
        obtain ⟨later, next, -, aligned⟩ := aligned.message toReturn whole
        obtain ⟨rest, split, rfl⟩ := inv.next_answer rfl next
        refine ⟨left, ?_, up⟩
        have one : served.drop (calls ++ [(command, some answer)]).length = rest := by
          rw [List.length_append, ← List.drop_drop, split]
          rfl
        unfold Connection.unreturned
        rw [one]
        exact aligned
  | serverReads phase wants pos le here =>
      obtain rfl := phase
      refine ⟨inv.served, inv.answered, inv.sendable, inv.answerable, fun _ => ?_, inv.downstream⟩
      obtain ⟨left, aligned, same⟩ := inv.upstream (by simp)
      exact ⟨left, aligned.receive toRead wants le here, same⟩
  | @serverSends left fate n phase opened pos le =>
      obtain rfl := phase
      obtain rfl := opened
      refine ⟨inv.served, inv.answered, inv.sendable, inv.answerable, fun _ => ?_,
        fun unfailed => ?_⟩
      · exact inv.upstream (by simp)
      · obtain ⟨left', aligned, same⟩ := inv.downstream unfailed
        obtain rfl := same rfl
        exact ⟨_, aligned.send n, fun _ => rfl⟩
  | @serverSent fate phase =>
      obtain rfl := phase
      refine ⟨inv.served, inv.answered, inv.sendable, inv.answerable, fun opened => ?_,
        fun unfailed => ?_⟩
      · cases fate with
        | goesOn => exact inv.upstream (by simp)
        | ifSent => exact inv.upstream (by simp)
        | leaves => exact absurd rfl opened
      · obtain ⟨left, aligned, same⟩ := inv.downstream unfailed
        exact ⟨left, aligned, fun opened => (same opened).trans (by cases fate <;> rfl)⟩

/-- A call that fails: from then on nothing is promised to the client. -/
theorem fail (inv : InStep F c) {command : List β} (current : c.client.command = [command])
    (nothing : c.up → c.client.left = []) :
    InStep F { c with client := .idle, calls := c.calls ++ [(command, none)] } := by
  have same : Connection.commands { c with client := .idle, calls := c.calls ++ [(command, none)] }
      = c.commands := by
    rw [Connection.commands, Connection.commands, current, List.map_append, List.append_assoc]
    rfl
  have failed : ¬Connection.Unfailed
      { c with client := .idle, calls := c.calls ++ [(command, none)] } := fun unfailed =>
    unfailed (command, none) (List.mem_append_right _ (List.mem_singleton_self _)) rfl
  refine ⟨same ▸ inv.served, fun unfailed => absurd unfailed failed, same ▸ inv.sendable,
    inv.answerable, fun opened => ?_, fun unfailed => absurd unfailed failed⟩
  obtain ⟨left, aligned, whole⟩ := inv.upstream opened
  refine ⟨left, ?_, fun up => (whole up).trans (nothing up)⟩
  unfold Connection.unserved
  rw [same]
  exact aligned

/-- A server that closes. -/
theorem close (inv : InStep F c) (nothing : c.up → c.server.left = []) :
    InStep F { c with server := .closed } where
  served := inv.served
  answered := inv.answered
  sendable := inv.sendable
  answerable := inv.answerable
  upstream := fun opened => absurd rfl opened
  downstream := fun unfailed => by
    obtain ⟨left, aligned, whole⟩ := inv.downstream unfailed
    exact ⟨left, aligned, fun up => (whole up).trans (nothing up)⟩

theorem fault (inv : InStep F c) (goes : Fault F c c') : InStep F c' := by
  cases goes with
  | sendFails phase unsent down =>
      exact inv.fail (by rw [phase]; rfl) fun up => absurd (up.symm.trans down) (by simp)
  | noAnswer phase wants => exact inv.fail (by rw [phase]; rfl) fun _ => by rw [phase]; rfl
  | answerRefused phase refused => exact inv.fail (by rw [phase]; rfl) fun _ => by rw [phase]; rfl
  | noMessage phase wants => exact inv.close fun _ => by rw [phase]; rfl
  | messageRefused phase refused => exact inv.close fun _ => by rw [phase]; rfl
  | @answerFails left fate phase unsent down =>
      have closes := inv.close fun up => absurd (up.symm.trans down) (by simp)
      cases fate with
      | goesOn =>
          refine ⟨inv.served, inv.answered, inv.sendable, inv.answerable, fun _ => ?_,
            fun unfailed => ?_⟩
          · have opened : c.server ≠ .closed := by simp [phase]
            have upstream := inv.upstream opened
            rwa [phase] at upstream
          · obtain ⟨left, aligned, -⟩ := inv.downstream unfailed
            exact ⟨left, aligned, fun up => absurd (up.symm.trans down) (by simp)⟩
      | ifSent => exact closes
      | leaves => exact closes
  | lost n m =>
      refine ⟨inv.served, inv.answered, inv.sendable, inv.answerable, fun opened => ?_,
        fun unfailed => ?_⟩
      · obtain ⟨left, aligned, -⟩ := inv.upstream opened
        exact ⟨_, aligned.lose n, fun up => by cases up⟩
      · obtain ⟨left, aligned, -⟩ := inv.downstream unfailed
        exact ⟨_, aligned.lose m, fun up => by cases up⟩

/-- The command that a server handles is the next one that has not been handled. -/
theorem unserved_of_handle (inv : InStep F c) {command answer : List β} {fate : Fate}
    (goes : Handle F command answer fate c c') :
    F.Fits command ∧ c.unserved = command :: c'.unserved := by
  cases goes with
  | @handle read phase whole sendable =>
      obtain ⟨left, aligned, -⟩ := inv.upstream (by simp [phase])
      rw [phase] at aligned
      obtain ⟨later, next, fits, -⟩ := aligned.message inv.sendable_unserved whole
      refine ⟨fits, ?_⟩
      have rest : c.commands.drop (c.served ++ [(command, answer)]).length = later := by
        rw [List.length_append, ← List.drop_drop, ← Connection.unserved, next]
        rfl
      rw [next]
      exact congrArg _ rest.symm

theorem handle (inv : InStep F c) {command answer : List β} {fate : Fate}
    (goes : Handle F command answer fate c c') : InStep F c' := by
  obtain ⟨-, next⟩ := inv.unserved_of_handle goes
  have fewer := inv.length_calls_le
  cases goes with
  | @handle read phase whole sendable =>
      have ordered : (c.served ++ [(command, answer)]).map Prod.fst <+: c.commands := by
        obtain ⟨more, all⟩ := inv.served
        have here : c.unserved = more := by
          rw [Connection.unserved, ← all, ← List.length_map (f := Prod.fst), List.drop_left]
        rw [List.map_append, ← all, ← here, next]
        exact ⟨_, List.append_assoc _ _ _⟩
      refine ⟨ordered, fun unfailed => ?_, inv.sendable, ?_, fun _ => ?_, fun unfailed => ?_⟩
      · rw [List.take_append_of_le_length (fewer unfailed)]
        exact inv.answered unfailed
      · intro e mem
        rcases List.mem_append.mp mem with mem | mem
        · exact inv.answerable e mem
        · rwa [List.mem_singleton.mp mem]
      · obtain ⟨left, aligned, whole'⟩ := inv.upstream (by simp [phase])
        rw [phase] at aligned
        obtain ⟨later, next', -, aligned⟩ := aligned.message inv.sendable_unserved whole
        obtain rfl := (List.cons.inj (next'.symm.trans next)).2
        exact ⟨left, aligned, whole'⟩
      · obtain ⟨left, aligned, whole'⟩ := inv.downstream unfailed
        refine ⟨left ++ F.frame answer, ?_, fun up => ?_⟩
        · unfold Connection.unreturned
          rw [List.drop_append_of_le_length (fewer unfailed), List.map_append]
          exact aligned.add answer
        · rw [whole' up, phase]
          rfl

theorem move (inv : InStep F c) (goes : Move F c c') : InStep F c' := by
  cases goes with
  | begin goes => exact inv.begin goes
  | work goes => exact inv.work goes
  | fault goes => exact inv.fault goes

end InStep

/-! ### Calls come to their end -/

/-- A step in which nothing fails, or a message is handled. -/
inductive Next (F : Framing β) (c c' : Connection β) : Prop where
  | work (goes : Work F c c')
  | handle (command answer : List β) (fate : Fate) (goes : Handle F command answer fate c c')

/-- What the client has to do in its call. -/
def Client.toDo : Client β → Nat
  | .idle => 0
  | .waiting _ _ => 1
  | .sending _ left => 2 + 2 * left.length

def Server.toDo : Server β → Nat
  | .listening _ | .closed => 0
  | .answering left _ => 1 + 2 * left.length

/-- The messages to be handled and, below that, the bytes to be moved. -/
def Connection.toDo (c : Connection β) : Nat × Nat :=
  (c.unserved.length,
    c.client.toDo + c.toServer.length + c.server.toDo + c.toClient.length)

section

variable {F : Framing β} {c c' : Connection β}

/-- **A call that is under way gets on** while the connection is up: some end can do its next
step, or the server has a message to handle, or it has left. -/
theorem exists_next (inv : InStep F c) (unfailed : c.Unfailed) (up : c.up = true)
    (calling : c.client ≠ .idle) (commands : ∀ command ∈ c.unserved, F.Fits command)
    (answers : ∀ answer ∈ c.unreturned, F.Fits answer) :
    (∃ c', Work F c c') ∨
      (∃ read command, c.server = .listening read ∧ F.reading read = .message command) ∨
        c.server = .closed := by
  cases phase : c.client with
  | idle => exact absurd phase calling
  | sending command left =>
      by_cases sent : left = []
      · exact .inl ⟨_, .clientSent (sent ▸ phase)⟩
      · exact .inl ⟨_, .clientSends phase up Nat.one_pos (List.length_pos_iff.mpr sent)⟩
  | waiting command read =>
      cases stands : c.server with
      | closed => exact .inr (.inr rfl)
      | answering left fate =>
          by_cases sent : left = []
          · exact .inl ⟨_, .serverSent (sent ▸ stands)⟩
          · exact .inl ⟨_, .serverSends stands up Nat.one_pos (List.length_pos_iff.mpr sent)⟩
      | listening heard =>
          cases returned : c.unreturned with
          | cons answer later =>
              obtain ⟨left, aligned, whole⟩ := inv.downstream unfailed
              obtain rfl : left = [] := (whole up).trans (by rw [stands]; rfl)
              rw [returned, phase] at aligned
              rw [returned] at answers
              have mem : answer ∈ c.unreturned := returned ▸ List.mem_cons_self
              rcases aligned.goes_on (inv.sendable_unreturned _ mem)
                (answers _ List.mem_cons_self) with whole | ⟨want, wants, pos, here⟩
              · exact .inl ⟨_, .answered phase whole⟩
              · exact .inl ⟨_, .clientReads phase wants Nat.one_pos pos here⟩
          | nil =>
              have all := inv.length_calls_le unfailed
              have most : c.served.length ≤ c.calls.length := by
                simpa [Connection.unreturned] using returned
              have some : c.unserved ≠ [] := by
                simp [Connection.unserved, Connection.commands, phase, Client.command]
                omega
              obtain ⟨next, later, pending⟩ := List.exists_cons_of_ne_nil some
              obtain ⟨left, aligned, whole⟩ := inv.upstream (by simp [stands])
              obtain rfl : left = [] := (whole up).trans (by rw [phase]; rfl)
              rw [pending, stands] at aligned
              have mem : next ∈ c.unserved := pending ▸ List.mem_cons_self
              rcases aligned.goes_on (inv.sendable_unserved _ mem) (commands _ mem) with
                whole | ⟨want, wants, pos, here⟩
              · exact .inr (.inl ⟨heard, next, rfl, whole⟩)
              · exact .inl ⟨_, .serverReads stands wants Nat.one_pos pos here⟩

theorem Work.unserved_eq (goes : Work F c c') : c'.unserved = c.unserved := by
  cases goes with
  | answered phase whole =>
      simp [Connection.unserved, Connection.commands, Client.command, phase]
  | clientSends phase up pos le | clientSent phase | clientReads phase wants pos le here =>
      simp [Connection.unserved, Connection.commands, Client.command, phase]
  | _ => rfl

theorem Work.toDo_lt (goes : Work F c c') : Prod.Lex (· < ·) (· < ·) c'.toDo c.toDo := by
  unfold Connection.toDo
  rw [goes.unserved_eq]
  refine .right _ ?_
  cases goes with
  | serverSent phase =>
      rename_i fate
      cases fate <;> simp [Server.toDo, Fate.sent, phase]
  | _ => simp_all [Client.toDo, Server.toDo] <;> omega

/-- **No call goes on for ever**. -/
theorem next_wellFounded : WellFounded fun c' c : Connection β => InStep F c ∧ Next F c c' := by
  refine Subrelation.wf ?_ (InvImage.wf Connection.toDo
    (WellFounded.prod_lex Nat.lt_wfRel.wf Nat.lt_wfRel.wf))
  rintro c' c ⟨inv, goes⟩
  cases goes with
  | work goes => exact goes.toDo_lt
  | handle command answer fate goes =>
      obtain ⟨-, next⟩ := inv.unserved_of_handle goes
      exact .left _ _ (by rw [next, List.length_cons]; exact Nat.lt_succ_self _)

end

end StockMarket.Lockstep
