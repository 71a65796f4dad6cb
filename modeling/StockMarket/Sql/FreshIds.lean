import StockMarket.Sql.Database

/-!
Drawing new ids (`get_new_order_id`, `get_new_action_id` and `get_new_message_id` of
`Src_SQL/database_management.cpp`).

The three functions are one loop over the ids of a table. The query that ends it is a text
that was made for the first draw, so the loop asks about that one for ever: it returns the
first draw at once if its id is free (`getNewId_of_free`), and otherwise it returns never
(`getNewId_of_taken`), or, for the id that 32 bits read as the answer to an empty result,
at once (`getNewId_of_unread`). `getNewIds_fresh_iff` puts these together.
-/

namespace StockMarket.Sql

/-- The loop, if it ends within so many rounds: `asked` is the id in the text of the query,
`candidate` the last draw and `n` the number of the next one. -/
def newIdLoop (column : List ID) (asked : ID) (draws : Nat → ID) : Nat → Nat → ID → Option ID
  | 0, _, _ => none
  | fuel + 1, n, candidate =>
    if executeSqlQueryId (column.filter fun id => id = asked) ≠ -1 then
      newIdLoop column asked draws fuel (n + 1) (draws n)
    else some candidate

/-- The three functions, for the ids of their table. -/
def getNewId (column : List ID) (draws : Nat → ID) (fuel : Nat) : Option ID :=
  newIdLoop column (draws 0) draws fuel 1 (draws 0)

/-- `generate_random_uint32`. -/
def IsUint32 (id : ID) : Prop := 0 ≤ id ∧ id < 2 ^ 32

namespace Database

def orderIds (d : Database) : List ID := d.orders.rows.map OrderRow.orderId

def actionIds (d : Database) : List ID := d.actions.rows.map ActionRow.actionId

def getNewOrderId (draws : Nat → ID) (fuel : Nat) (d : Database) : Option ID :=
  getNewId d.orderIds draws fuel

def getNewActionId (draws : Nat → ID) (fuel : Nat) (d : Database) : Option ID :=
  getNewId d.actionIds draws fuel

/-- `get_new_message_id`, for the column `message_id` of the table `messages`. -/
def getNewMessageId (messageIds : List ID) (draws : Nat → ID) (fuel : Nat) : Option ID :=
  getNewId messageIds draws fuel

end Database

/-- The function returns, after finitely many draws, an id that is not in the table. -/
def DrawsFresh (column : List ID) (newId : (Nat → ID) → Nat → Option ID) (draws : Nat → ID) :
    Prop :=
  ∃ fuel id, newId draws fuel = some id ∧ id ∉ column

section

variable {column : List ID} {draws : Nat → ID}

theorem filter_of_mem {asked : ID} (taken : asked ∈ column) :
    ∃ rest, column.filter (fun id => id = asked) = asked :: rest := by
  cases found : column.filter (fun id => id = asked) with
  | nil =>
      have miss := List.filter_eq_nil_iff.mp found asked taken
      simp at miss
  | cons id rest =>
      have hit : id ∈ column.filter (fun id => id = asked) := found ▸ List.mem_cons_self
      obtain rfl : id = asked := of_decide_eq_true (List.mem_filter.mp hit).2
      exact ⟨rest, rfl⟩

/-- A free first draw is returned. -/
theorem getNewId_of_free (free : draws 0 ∉ column) (fuel : Nat) :
    getNewId column draws (fuel + 1) = some (draws 0) := by
  have none : column.filter (fun id => id = draws 0) = [] := by
    refine List.filter_eq_nil_iff.mpr fun id mem hit => free ?_
    rwa [← of_decide_eq_true hit]
  simp [getNewId, newIdLoop, none, executeSqlQueryId]

/-- A first draw that is taken, and read as what an empty result gives, is returned. -/
theorem getNewId_of_unread (taken : draws 0 ∈ column) (unread : columnInt (draws 0) = -1)
    (fuel : Nat) : getNewId column draws (fuel + 1) = some (draws 0) := by
  obtain ⟨rest, found⟩ := filter_of_mem taken
  simp [getNewId, newIdLoop, found, executeSqlQueryId, unread]

/-- After any other first draw that is taken the loop does not end. -/
theorem getNewId_of_taken (taken : draws 0 ∈ column) (read : columnInt (draws 0) ≠ -1)
    (fuel : Nat) : getNewId column draws fuel = none := by
  obtain ⟨rest, found⟩ := filter_of_mem taken
  have goes : executeSqlQueryId (column.filter fun id => id = draws 0) ≠ -1 := by
    simpa [found, executeSqlQueryId] using read
  have never : ∀ fuel n candidate,
      newIdLoop column (draws 0) draws fuel n candidate = none := by
    intro fuel
    induction fuel with
    | zero => exact fun _ _ => rfl
    | succ fuel ih =>
        intro n candidate
        rw [newIdLoop, if_pos goes]
        exact ih _ _
  exact never fuel 1 _

theorem drawsFresh_getNewId_iff : DrawsFresh column (getNewId column) draws ↔ draws 0 ∉ column := by
  constructor
  · rintro ⟨fuel, id, returns, fresh⟩ taken
    by_cases read : columnInt (draws 0) = -1
    · cases fuel with
      | zero => cases returns
      | succ fuel =>
          rw [getNewId_of_unread taken read] at returns
          obtain rfl := Option.some.inj returns
          exact fresh taken
    · rw [getNewId_of_taken taken read] at returns
      cases returns
  · exact fun free => ⟨1, draws 0, getNewId_of_free free 0, free⟩

end

/-- **A fresh id is returned** if and only if the first draw is free, for the ids of orders, of
actions and of messages. -/
theorem getNewIds_fresh_iff (d : Database) (messageIds : List ID) (draws : Nat → ID) :
    (DrawsFresh d.orderIds (fun draws fuel => d.getNewOrderId draws fuel) draws
      ↔ draws 0 ∉ d.orderIds) ∧
    (DrawsFresh d.actionIds (fun draws fuel => d.getNewActionId draws fuel) draws
      ↔ draws 0 ∉ d.actionIds) ∧
    (DrawsFresh messageIds (fun draws fuel => Database.getNewMessageId messageIds draws fuel) draws
      ↔ draws 0 ∉ messageIds) :=
  ⟨drawsFresh_getNewId_iff, drawsFresh_getNewId_iff, drawsFresh_getNewId_iff⟩

/-- A table with one order, to buy nothing. -/
def oneOrder (order : ID) : Database where
  actions := .empty
  prices := []
  clients := .empty
  orders := Relation.empty.insert
    { orderId := order
      orderStatus := .completed
      orderTimeDate := 0
      orderTimeDaily := 0
      clientId := 1
      orderType := .buy
      quantity := 0
      actionId := 1
      triggerType := .market
      price := 0
      triggerPriceLower := 0
      triggerPriceUpper := 0
      expirationTimeDate := maxNumber
      expirationTimeDaily := 0 }
  clientPortfolio := .empty

/-- There is an order with the id 7, and 7 is drawn again before 8 is. -/
theorem collision_hangs : ¬∀ (d : Database) (draws : Nat → ID),
    (∃ id, IsUint32 id ∧ id ∉ d.orderIds) → (∀ n, IsUint32 (draws n)) →
    (∃ n, draws n ∉ d.orderIds) →
    DrawsFresh d.orderIds (fun draws fuel => d.getNewOrderId draws fuel) draws := by
  intro claim
  have ids : (oneOrder 7).orderIds = [7] := rfl
  have drawn : ∀ n, IsUint32 (if n = 0 then 7 else 8) := by
    intro n
    split <;> exact ⟨by decide, by decide⟩
  have fresh := claim (oneOrder 7) (fun n => if n = 0 then 7 else 8)
    ⟨8, ⟨by decide, by decide⟩, by rw [ids]; decide⟩ drawn ⟨1, by rw [ids]; decide⟩
  refine drawsFresh_getNewId_iff.mp fresh ?_
  rw [ids]
  decide

end StockMarket.Sql
