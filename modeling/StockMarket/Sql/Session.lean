import StockMarket.Sql.Fixing

/-!
The live book against the database.

The order ids in the vectors of a market should be those of the rows with the status
PENDING, each once (`Market.Agrees`). Whatever happens in a session keeps the difference
of the two as it is (`strands_step`), and a `play` makes it what the database has: its
PENDING rows are in no vector of the new session. So vectors and rows agree in every
state of a run if and only if every `play` finds a database without PENDING rows
(`agrees_iff_clean`). Orders in tasks are assumed to have ids of their own
(`Server.DistinctIds`).
-/

namespace StockMarket.Sql

open Client Database

/-- The vectors list the PENDING rows of their side and action, each once. -/
def Market.Agrees (m : Market) : Prop :=
  ∀ side action,
    (m.orderIds side action).Perm ((m.db.pendingOrders side action).map OrderRow.orderId)

/-- The orders a thread still has to record. -/
def Task.orders : Task → List OrderRow
  | .enter o | .wait o => [o]
  | .withdraw _ _ => []

namespace Server

/-- No two orders have the same id, those included that are still to be recorded. -/
def DistinctIds (s : Server) : Prop :=
  (s.market.db.orders.rows.map OrderRow.orderId
    ++ (s.tasks.flatMap Task.orders).map OrderRow.orderId).Nodup

theorem DistinctIds.unused {s : Server} (distinct : s.DistinctIds) {t : Task}
    (listed : t ∈ s.tasks) {o : OrderRow} (mem : o ∈ t.orders) :
    o.orderId ∉ s.market.db.orders.rows.map OrderRow.orderId := by
  intro used
  have later : o.orderId ∈ (s.tasks.flatMap Task.orders).map OrderRow.orderId :=
    List.mem_map_of_mem (List.mem_flatMap.mpr ⟨t, listed, mem⟩)
  exact (List.nodup_append.mp distinct).2.2 _ used _ later rfl

/-- A step that does what a `play` does starts from a database without PENDING rows. -/
def Clean (s s' : Server) : Prop :=
  s' = { market := { db := s.market.db } } →
    ∀ o ∈ s.market.db.orders.rows, o.orderStatus ≠ .pending

end Server

namespace Market

variable {m : Market} {others : OrderType → ID → List OrderRow}

/-- Vectors and rows agree if all PENDING rows are in vectors. -/
theorem Strands.agrees_iff (strands : m.Strands others) :
    m.Agrees ↔ ∀ side action, others side action = [] := by
  obtain ⟨orders, lists⟩ := strands
  constructor
  · intro agrees side action
    have lengths := ((agrees side action).trans ((lists.pending side action).map _)).length_eq
    rw [lists.ids] at lengths
    simp only [List.length_map, List.length_append] at lengths
    exact List.eq_nil_of_length_eq_zero (by omega)
  · intro none side action
    have pending := lists.pending side action
    rw [none, List.append_nil] at pending
    rw [lists.ids]
    exact (pending.map _).symm

/-- Only the vectors and the open orders matter. -/
theorem Strands.congr (strands : m.Strands others) {d : Database}
    (same : ∀ side action, d.pendingOrders side action = m.db.pendingOrders side action) :
    ({ m with db := d } : Market).Strands others := by
  obtain ⟨orders, lists⟩ := strands
  refine ⟨orders, fun side action => ?_, fun side action => ?_⟩
  · rw [← lists.ids]
    cases side <;> rfl
  · exact (same side action).symm ▸ lists.pending side action

end Market

/-! ### Steps -/

section

variable {env : Env} {order : IterationOrder ID (List ID)} {s s' : Server}
  {others : OrderType → ID → List OrderRow} {d : Database} {side : OrderType} {action : ID}

theorem pendingOrders_deposit (client : ID) (amount : ℚ) :
    (deposit client amount d).pendingOrders side action = d.pendingOrders side action :=
  pendingOrders_congr (orders_deposit client amount)

theorem pendingOrders_addWaitingOrder (o : OrderRow) :
    (addWaitingOrder o d).pendingOrders side action = d.pendingOrders side action := by
  refine Relation.select_insert_of_not ?_
  simp [OrderRow.Rests]

theorem pendingOrders_removeWaitingOrder (client order : ID) :
    (removeWaitingOrder client order d).pendingOrders side action
      = d.pendingOrders side action := by
  simp only [pendingOrders, removeWaitingOrder, removeOrder, Relation.select, Relation.delete,
    List.filter_filter]
  refine List.filter_congr fun o _ => ?_
  by_cases rests : o.Rests side action
  · simp [rests, rests.1]
  · simp [rests]

/-- A task keeps the rows that are in no vector. -/
theorem strands_perform (fresh : env.Fresh) (strands : s.market.Strands others) {t : Task}
    (unused : ∀ o ∈ t.orders, o.orderId ∉ s.market.db.orders.rows.map OrderRow.orderId) :
    (s.perform env t).market.Strands others := by
  cases t with
  | enter o =>
      obtain ⟨orders, lists⟩ := strands
      have entered := lists.accumulateOrder (unused o List.mem_cons_self)
      simp only [Server.perform]
      split
      · exact entered.processContinuousTrading fresh o.actionId
      · exact entered
  | wait o => exact strands.congr fun side action => pendingOrders_addWaitingOrder o
  | withdraw client amount => exact strands.congr fun side action => rfl

/-- **One step** keeps the rows that are in no vector, unless it is a `play`. -/
theorem strands_step (fresh : env.Fresh) (distinct : s.DistinctIds)
    (strands : s.market.Strands others) (step : Server.Step env order s s') :
    s' = { market := { db := s.market.db } } ∨ s'.market.Strands others := by
  cases step with
  | deposit client amount known =>
      exact .inr (strands.congr fun side action => pendingOrders_deposit client amount)
  | askWithdrawal client amount known covered => exact .inr strands
  | placeOrder line id date daily free taken => exact .inr strands
  | @perform t front back next =>
      refine .inr (strands_perform (s := { s with tasks := front ++ back }) fresh strands ?_)
      exact fun o mem => distinct.unused (by simp [next]) mem
  | expire nowDate nowDaily waits expired =>
      exact .inr (strands.congr fun side action => pendingOrders_removeWaitingOrder _ _)
  | release nowDate nowDaily waits lasts triggered =>
      exact .inr (strands.congr fun side action => pendingOrders_removeWaitingOrder _ _)
  | fixing => exact .inr (strands.processFixing fresh order)
  | period running => exact .inr strands
  | play => exact .inl rfl

/-! ### Runs -/

theorem pendingOrders_eq_nil_iff :
    (∀ side action, d.pendingOrders side action = []) ↔
      ∀ o ∈ d.orders.rows, o.orderStatus ≠ .pending := by
  constructor
  · intro none o mem pending
    have listed : o ∈ d.pendingOrders o.orderType o.actionId :=
      mem_pendingOrders.mpr ⟨mem, pending, rfl, rfl⟩
    rw [none] at listed
    cases listed
  · intro none side action
    refine List.eq_nil_iff_forall_not_mem.mpr fun o mem => ?_
    obtain ⟨mem, rests⟩ := mem_pendingOrders.mp mem
    exact none o mem rests.1

/-- After a step from vectors and rows that agree, they agree if and only if the step is
clean. -/
theorem agrees_step_iff (fresh : env.Fresh) (distinct : s.DistinctIds)
    (strands : s.market.Strands fun _ _ => []) (step : Server.Step env order s s') :
    (s'.market.Agrees ↔ s.Clean s') ∧
      (s.Clean s' → s'.market.Strands fun _ _ => []) := by
  have started := Market.strands_start s.market.db
  rcases strands_step fresh distinct strands step with rfl | strands'
  · have clean : s.Clean { market := { db := s.market.db } } ↔
        ∀ side action, s.market.db.pendingOrders side action = [] :=
      ⟨fun clean => pendingOrders_eq_nil_iff.mpr (clean rfl),
        fun none _ => pendingOrders_eq_nil_iff.mp none⟩
    refine ⟨started.agrees_iff.trans clean.symm, fun none => ?_⟩
    have none := clean.mp none
    simpa only [none] using started
  · refine ⟨⟨fun _ same => ?_, fun _ => strands'.agrees_iff.mpr fun _ _ => rfl⟩, fun _ => strands'⟩
    have agrees := strands'.agrees_iff.mpr fun _ _ => rfl
    rw [same] at agrees
    exact pendingOrders_eq_nil_iff.mp (started.agrees_iff.mp agrees)

/-- **The live book and the database agree** in every state of a run if and only if every
`play` in it starts on a database without PENDING rows. -/
theorem agrees_iff_clean (fresh : env.Fresh) {d : Database} (initial : d.Initial)
    (ss : List Server)
    (run : List.IsChain (Server.Step env order) ({ market := { db := d } } :: ss))
    (distinct : ∀ s ∈ ss, s.DistinctIds) :
    (∀ s ∈ ss, s.market.Agrees) ↔ List.IsChain Server.Clean ({ market := { db := d } } :: ss) := by
  have start : ({ db := d } : Market).Strands fun _ _ => [] := by
    have none : ∀ side action, d.pendingOrders side action = [] :=
      pendingOrders_eq_nil_iff.mpr fun o mem => by
        rw [initial.orders] at mem
        cases mem
    simpa only [none] using Market.strands_start d
  have distinct' : ∀ s ∈ ({ market := { db := d } } : Server) :: ss, s.DistinctIds := by
    refine List.forall_mem_cons.mpr ⟨?_, distinct⟩
    unfold Server.DistinctIds
    rw [initial.orders]
    exact List.nodup_nil
  have start' : ({ market := { db := d } } : Server).market.Strands fun _ _ => [] := start
  generalize ({ market := { db := d } } : Server) = s at run start' distinct'
  clear start initial distinct
  induction ss generalizing s with
  | nil => simp
  | cons s' ss ih =>
      obtain ⟨first, later⟩ := List.isChain_cons_cons.mp run
      obtain ⟨here, others⟩ := List.forall_mem_cons.mp distinct'
      obtain ⟨agrees, strands⟩ := agrees_step_iff fresh here start' first
      rw [List.forall_mem_cons, List.isChain_cons_cons]
      constructor
      · rintro ⟨now, rest⟩
        have clean := agrees.mp now
        exact ⟨clean, (ih s' later (strands clean) others).mp rest⟩
      · rintro ⟨clean, rest⟩
        exact ⟨agrees.mpr clean, (ih s' later (strands clean) others).mpr rest⟩

/-- In every run the vectors list open orders of their side and action, each once. -/
theorem backed_of_run (fresh : env.Fresh) {d : Database} {s : Server}
    (run : Relation.ReflTransGen (fun s s' => s.DistinctIds ∧ Server.Step env order s s')
      { market := { db := d } } s) : s.market.Backed := by
  have strands : ∃ others, s.market.Strands others := by
    induction run with
    | refl => exact ⟨_, Market.strands_start d⟩
    | tail _ step ih =>
        obtain ⟨others, strands⟩ := ih
        rcases strands_step fresh step.1 strands step.2 with rfl | strands
        · exact ⟨_, Market.strands_start _⟩
        · exact ⟨others, strands⟩
  obtain ⟨others, strands⟩ := strands
  exact strands.backed

end

/-! ### A session after another -/

/-- An order of client 1 that is checked and still to be recorded. -/
def demoPlaced : Server :=
  ({ market := { db := Database.demo 0 1 } } : Server).addTask
    (Server.orderTask (marketRow 1 1 .buy 20))

theorem free_demo : (Database.demo 0 1).orderIdIsFree 1 := by decide

theorem admitOrder_demo : admitOrder countingEnv (marketLine 1 "BUY" 20) 1 1 1 (Database.demo 0 1)
    = .ok (marketRow 1 1 .buy 20) := by
  decide +kernel

/-- In one session the order is accumulated. -/
theorem agrees_iff_clean_demo : (demoBuy 20).market.Agrees := by
  have placed : Server.Step countingEnv .stored { market := { db := Database.demo 0 1 } }
      demoPlaced :=
    .placeOrder (marketLine 1 "BUY" 20) 1 1 1 free_demo admitOrder_demo
  have tasks : demoPlaced.tasks = [] ++ .enter (marketRow 1 1 .buy 20) :: [] := rfl
  have entered : Server.Step countingEnv .stored demoPlaced (demoBuy 20) := .perform tasks
  have moved : Server.Clean { market := { db := Database.demo 0 1 } } demoPlaced :=
    fun same => nomatch congrArg Server.tasks same
  have filled : Server.Clean demoPlaced (demoBuy 20) := fun same =>
    absurd (congrArg (fun s : Server => s.market.orderIds .buy 1) same) (by decide +kernel)
  have distinct : ∀ s ∈ [demoPlaced, demoBuy 20], s.DistinctIds := by
    unfold Server.DistinctIds
    decide +kernel
  have agree := (agrees_iff_clean fresh_countingEnv (Database.initial_demo 0 1)
    [demoPlaced, demoBuy 20] (by simpa using ⟨placed, entered⟩) distinct).mpr
    (by simpa using ⟨moved, filled⟩)
  exact agree _ (by simp)

/-- A second session on the database of the first has the order in no vector. -/
theorem play_disagrees : ¬∀ s : Server, Server.Reachable countingEnv .stored s →
    s.market.Agrees := by
  intro claim
  have start : Server.Reachable countingEnv .stored { market := { db := Database.demo 0 1 } } :=
    ⟨_, Database.initial_demo 0 1, .refl⟩
  have bought : Server.Reachable countingEnv .stored (demoBuy 20) :=
    reachable_submit start rfl free_demo admitOrder_demo
  obtain ⟨d, initial, run⟩ := bought
  have agrees := claim _ ⟨d, initial, run.tail .play⟩ .buy 1
  exact absurd agrees.length_eq (by decide +kernel)

end StockMarket.Sql
