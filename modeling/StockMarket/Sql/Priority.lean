import Mathlib.Data.Prod.Lex
import StockMarket.Lib.Queue
import StockMarket.Sql.Texts

/-!
Price-time priority in the vectors.

The rank of an order is its price, the better one first, and then the date and the time of
day of its submission. Every vector is sorted by rank, whatever calls are made
(`Queued.call`), the keys being read from the rows behind the ids. `std::lower_bound` puts a
new order in front of those that have its rank, though, so the last one that came is served
first (`inTurn_iff_unrivalled`).

Of the calls it is assumed what their callers see to (`BookCall.Proper`): an order that is
accumulated has an id that no row has and the time of a clock, and `deaccumulate_order` is
told the side and the action of the order.
-/

namespace StockMarket.Sql

open Client Database

/-- Lower ranks come first in a vector. -/
def OrderRow.rank (side : OrderType) (o : OrderRow) : ℚ ×ₗ ℤ ×ₗ ℤ :=
  toLex (match side with | .buy => -o.price | .sell => o.price,
    toLex (o.orderTimeDate, o.orderTimeDaily))

/-- The rank as the comparators read it, 32 bits of the date and of the time of day. -/
def OrderRow.readRank (side : OrderType) (o : OrderRow) : ℚ ×ₗ ℤ ×ₗ ℤ :=
  toLex (match side with | .buy => -o.price | .sell => o.price,
    toLex (columnInt o.orderTimeDate, columnInt o.orderTimeDaily))

/-- The date and the time of day are in the range of the column read. -/
def OrderRow.Timed (o : OrderRow) : Prop :=
  columnInt o.orderTimeDate = o.orderTimeDate ∧ columnInt o.orderTimeDaily = o.orderTimeDaily

/-! ### The comparators -/

section

variable {d : Database} {side : OrderType} {o o' : OrderRow}

theorem rank_eq_iff : o.rank side = o'.rank side ↔
    o.price = o'.price ∧ o.orderTimeDate = o'.orderTimeDate ∧
      o.orderTimeDaily = o'.orderTimeDaily := by
  cases side <;> simp [OrderRow.rank]

theorem readRank_lt_iff : o.readRank side < o'.readRank side ↔
    (match side with | .buy => o'.price < o.price | .sell => o.price < o'.price) ∨
      o.price = o'.price ∧ (columnInt o.orderTimeDate < columnInt o'.orderTimeDate ∨
        columnInt o.orderTimeDate = columnInt o'.orderTimeDate ∧
          columnInt o.orderTimeDaily < columnInt o'.orderTimeDaily) := by
  cases side <;> simp [OrderRow.readRank, Prod.Lex.toLex_lt_toLex]

theorem OrderRow.Timed.readRank (timed : o.Timed) : o.readRank side = o.rank side := by
  simp only [OrderRow.readRank, OrderRow.rank, timed.1, timed.2]

theorem getPrice_of_mem (mem : o ∈ d.orders.rows) : d.getPrice o.orderId = o.price := by
  rw [getPrice, Relation.select_key, Relation.find_some_iff.mpr ⟨mem, rfl⟩]
  rfl

theorem getDateOrderTime_of_mem (mem : o ∈ d.orders.rows) :
    d.getDateOrderTime o.orderId = columnInt o.orderTimeDate := by
  rw [getDateOrderTime, Relation.select_key, Relation.find_some_iff.mpr ⟨mem, rfl⟩]
  rfl

theorem getDailyOrderTime_of_mem (mem : o ∈ d.orders.rows) :
    d.getDailyOrderTime o.orderId = columnInt o.orderTimeDaily := by
  rw [getDailyOrderTime, Relation.select_key, Relation.find_some_iff.mpr ⟨mem, rfl⟩]
  rfl

/-- The comparators compare ranks. -/
theorem orderPriority_iff (mem : o ∈ d.orders.rows) (mem' : o' ∈ d.orders.rows) :
    Market.orderPriority side d o.orderId o'.orderId = true ↔
      o.readRank side < o'.readRank side := by
  rw [readRank_lt_iff]
  cases side with
  | buy =>
      simp only [Market.orderPriority, Market.buyOrderPriority, getPrice_of_mem mem,
        getPrice_of_mem mem', getDateOrderTime_of_mem mem, getDateOrderTime_of_mem mem',
        getDailyOrderTime_of_mem mem, getDailyOrderTime_of_mem mem']
      grind
  | sell =>
      simp only [Market.orderPriority, Market.sellOrderPriority, getPrice_of_mem mem,
        getPrice_of_mem mem', getDateOrderTime_of_mem mem, getDateOrderTime_of_mem mem',
        getDailyOrderTime_of_mem mem, getDailyOrderTime_of_mem mem']
      grind

/-! ### The binary search -/

/-- The search narrows to the first element that is not before the new one. -/
theorem lowerBoundFrom_spec {before : ID → Bool} {orders : List ID}
    (sorted : ∀ (i j : Nat) a b, i ≤ j → orders[i]? = some a → orders[j]? = some b →
      before b → before a) :
    ∀ (fuel first len : Nat), len ≤ fuel → first + len ≤ orders.length →
      (∀ (i : Nat) a, i < first → orders[i]? = some a → before a) →
      (∀ (i : Nat) a, first + len ≤ i → orders[i]? = some a → ¬before a) →
      lowerBoundFrom before orders fuel first len ≤ orders.length ∧
      (∀ (i : Nat) a, i < lowerBoundFrom before orders fuel first len →
        orders[i]? = some a → before a) ∧
      ∀ (i : Nat) a, lowerBoundFrom before orders fuel first len ≤ i →
        orders[i]? = some a → ¬before a := by
  intro fuel
  induction fuel with
  | zero =>
      intro first len enough inside low high
      obtain rfl : len = 0 := by omega
      exact ⟨inside, low, high⟩
  | succ fuel ih =>
      intro first len enough inside low high
      rw [lowerBoundFrom]
      split
      · rename_i empty
        subst empty
        exact ⟨inside, low, high⟩
      · rename_i some
        have middle : first + len / 2 < orders.length := by omega
        have found := List.getElem?_eq_getElem middle
        rw [found, Option.any_some]
        split
        · rename_i hit
          refine ih _ _ (by omega) (by omega) (fun i a lt at_i => ?_) fun i a le at_i => ?_
          · exact sorted i _ a _ (by omega) at_i found hit
          · exact high i a (by omega) at_i
        · rename_i miss
          refine ih _ _ (by omega) (by omega) low fun i a le at_i hit => ?_
          exact miss (sorted _ i _ a le found at_i hit)

/-- **`std::lower_bound`** splits a sorted vector where the new element belongs. -/
theorem lowerBound_spec {before : ID → Bool} {orders : List ID}
    (sorted : orders.Pairwise fun a b => before b → before a) :
    lowerBound before orders ≤ orders.length ∧
      (∀ a ∈ orders.take (lowerBound before orders), before a) ∧
      ∀ a ∈ orders.drop (lowerBound before orders), ¬before a := by
  have monotone : ∀ (i j : Nat) a b, i ≤ j → orders[i]? = some a → orders[j]? = some b →
      before b → before a := by
    intro i j a b le at_i at_j hit
    obtain ⟨inside, rfl⟩ := List.getElem?_eq_some_iff.mp at_i
    obtain ⟨inside', rfl⟩ := List.getElem?_eq_some_iff.mp at_j
    rcases le.eq_or_lt with rfl | lt
    · exact hit
    · exact List.pairwise_iff_getElem.mp sorted i j inside inside' lt hit
  obtain ⟨inside, low, high⟩ := lowerBoundFrom_spec monotone orders.length 0 orders.length le_rfl
    (by omega) (by omega) fun i a le at_i => by
      obtain ⟨inside, -⟩ := List.getElem?_eq_some_iff.mp at_i
      omega
  refine ⟨inside, fun a mem => ?_, fun a mem => ?_⟩
  · obtain ⟨i, here⟩ := List.mem_iff_getElem?.mp mem
    rw [List.getElem?_take] at here
    split at here
    · exact low i a ‹_› here
    · cases here
  · obtain ⟨i, here⟩ := List.mem_iff_getElem?.mp mem
    rw [List.getElem?_drop] at here
    exact high _ a (Nat.le_add_right _ i) here

end

/-! ### Sorted vectors -/

/-- The vectors list open orders by rank. -/
structure Market.Queued (m : Market) : Prop where
  backed : m.Backed
  ranked : ∀ side action,
    ((m.ordersOf side action).map (OrderRow.readRank side)).Pairwise (· ≤ ·)

namespace Market

variable {env : Env} {m m' : Market} {side : OrderType} {action : ID} {rows : List OrderRow}
  {orders others : OrderType → ID → List OrderRow}
  {pair : Database → ID → ID → Option (OrderRow × OrderRow)}

theorem backed_iff : m.Backed ↔ ∀ side action, (m.orderIds side action).Nodup ∧
    ∀ id ∈ m.orderIds side action,
      ∃ o ∈ m.db.orders.rows, o.orderId = id ∧ o.Rests side action := by
  constructor
  · intro backed side action
    have listed := backed side action
    have unique : ((m.db.pendingOrders side action).map OrderRow.orderId).Nodup :=
      m.db.orders.unique.sublist (List.filter_sublist.map _)
    obtain ⟨ids, same, sub⟩ := listed
    refine ⟨same.nodup_iff.mp (unique.sublist sub), fun id mem => ?_⟩
    obtain ⟨o, pending, rfl⟩ := List.mem_map.mp (sub.subset (same.mem_iff.mpr mem))
    obtain ⟨row, rests⟩ := mem_pendingOrders.mp pending
    exact ⟨o, row, rfl, rests⟩
  · intro listed side action
    obtain ⟨unique, known⟩ := listed side action
    refine List.subperm_of_subset unique fun id mem => ?_
    obtain ⟨o, row, rfl, rests⟩ := known id mem
    exact List.mem_map_of_mem (mem_pendingOrders.mpr ⟨row, rests⟩)

theorem ordersOf_eq (ids : m.orderIds side action = rows.map OrderRow.orderId)
    (known : ∀ o ∈ rows, o ∈ m.db.orders.rows) : m.ordersOf side action = rows := by
  rw [ordersOf, ids, List.filterMap_map]
  have found : ∀ o ∈ rows, (m.db.orders.find ∘ OrderRow.orderId) o = some o :=
    fun o mem => Relation.find_some_iff.mpr ⟨known o mem, rfl⟩
  rw [List.filterMap_congr found, List.filterMap_some]

theorem Backed.ids (backed : m.Backed) (side : OrderType) (action : ID) :
    m.orderIds side action = (m.ordersOf side action).map OrderRow.orderId :=
  (backed.split side action).1

theorem Backed.row_mem (backed : m.Backed) {o : OrderRow} (mem : o ∈ m.ordersOf side action) :
    o ∈ m.db.orders.rows := by
  obtain ⟨others, lists⟩ := backed.lists
  exact lists.row_mem mem

theorem Backed.rests (backed : m.Backed) {o : OrderRow} (mem : o ∈ m.ordersOf side action) :
    o.Rests side action := by
  obtain ⟨others, lists⟩ := backed.lists
  exact (mem_pendingOrders.mp ((lists.pending side action).mem_iff.mpr
    (List.mem_append_left _ mem))).2

/-! ### What the calls do to the vectors -/

/-- The order that is recorded for an order that is accumulated. -/
def entered (o : OrderRow) : OrderRow := { o with orderStatus := .pending }

/-- **`accumulate_order`** puts the order in front of the first one of no lower rank. -/
theorem Queued.accumulateOrder (queued : m.Queued) {o : OrderRow}
    (unused : o.orderId ∉ m.db.orders.rows.map OrderRow.orderId)
    (known : m.db.clientExists o.clientId) :
    (m.accumulateOrder o).Queued ∧ ∃ place ≤ (m.ordersOf o.orderType o.actionId).length,
      (∀ side action, (m.accumulateOrder o).ordersOf side action
        = if side = o.orderType ∧ action = o.actionId then
            (m.ordersOf side action).take place ++ entered o :: (m.ordersOf side action).drop place
          else m.ordersOf side action) ∧
      (∀ o' ∈ (m.ordersOf o.orderType o.actionId).take place,
        o'.readRank o.orderType < o.readRank o.orderType) ∧
      ∀ o' ∈ (m.ordersOf o.orderType o.actionId).drop place,
        o.readRank o.orderType ≤ o'.readRank o.orderType := by
  set d := addPendingOrder o m.db
  set queue := m.ordersOf o.orderType o.actionId
  set before := fun r => orderPriority o.orderType d r o.orderId
  obtain ⟨place, search⟩ : ∃ place, lowerBound before (m.orderIds o.orderType o.actionId) = place :=
    ⟨_, rfl⟩
  have rows : d.orders.rows = m.db.orders.rows ++ [entered o] := by
    simp [d, addPendingOrder, addOrder, Relation.insert, unused, entered]
  have old : ∀ {side action}, ∀ o' ∈ m.ordersOf side action, o' ∈ d.orders.rows := by
    intro side action o' mem
    rw [rows]
    exact List.mem_append_left _ (queued.backed.row_mem mem)
  have new : entered o ∈ d.orders.rows := by simp [rows]
  have ids := queued.backed.ids o.orderType o.actionId
  have compare : ∀ o' ∈ queue, orderPriority o.orderType d o'.orderId (entered o).orderId = true ↔
      o'.readRank o.orderType < (entered o).readRank o.orderType :=
    fun o' mem => orderPriority_iff (old o' mem) new
  have sorted : (m.orderIds o.orderType o.actionId).Pairwise fun a b => before b → before a := by
    rw [ids, List.pairwise_map]
    refine (List.pairwise_map.mp (queued.ranked o.orderType o.actionId)).imp_of_mem ?_
    intro a b mem mem' le hit
    exact (compare a mem).mpr (lt_of_le_of_lt le ((compare b mem').mp hit))
  obtain ⟨inside, low, high⟩ := lowerBound_spec sorted
  rw [search, ids] at inside low high
  have front : ∀ o' ∈ queue.take place, o'.readRank o.orderType < o.readRank o.orderType := by
    intro o' mem
    refine (compare o' (List.mem_of_mem_take mem)).mp (low _ ?_)
    rw [← List.map_take]
    exact List.mem_map_of_mem mem
  have back : ∀ o' ∈ queue.drop place, o.readRank o.orderType ≤ o'.readRank o.orderType := by
    intro o' mem
    refine not_lt.mp fun lt => high _ ?_ ((compare o' (List.mem_of_mem_drop mem)).mpr lt)
    rw [← List.map_drop]
    exact List.mem_map_of_mem mem
  have after : ∀ side action, (m.accumulateOrder o).ordersOf side action
      = if side = o.orderType ∧ action = o.actionId then
          (m.ordersOf side action).take place ++ entered o :: (m.ordersOf side action).drop place
        else m.ordersOf side action := by
    intro side action
    apply ordersOf_eq
    · rw [orderIds_accumulateOrder known]
      split
      · rename_i here
        obtain ⟨rfl, rfl⟩ := here
        have search' : lowerBound (fun r => orderPriority o.orderType (addPendingOrder o m.db) r
            o.orderId) (m.orderIds o.orderType o.actionId) = place := search
        simp only [insertOrder, search']
        simp [ids, entered]
      · exact queued.backed.ids side action
    · intro o' mem
      rw [db_accumulateOrder known]
      split at mem
      · rcases List.mem_append.mp mem with mem | mem
        · exact old o' (List.mem_of_mem_take mem)
        · rcases List.mem_cons.mp mem with rfl | mem
          · exact new
          · exact old o' (List.mem_of_mem_drop mem)
      · exact old o' mem
  refine ⟨⟨?_, fun side action => ?_⟩, place, ?_, after, front, back⟩
  · obtain ⟨others, lists⟩ := queued.backed.lists
    exact (lists.accumulateOrder unused).backed
  · rw [after]
    split
    · rename_i here
      obtain ⟨rfl, rfl⟩ := here
      simp only [List.map_append, List.map_cons, List.map_take, List.map_drop]
      refine Queue.ranked_insert (queued.ranked _ _) ?_ ?_
      · rw [← List.map_take]
        exact List.forall_mem_map.mpr front
      · rw [← List.map_drop]
        exact List.forall_mem_map.mpr back
    · exact queued.ranked side action
  · simpa using inside

/-- The PENDING row that `deaccumulate_order` deletes is one of the side and the action it is
told. -/
def NamesItsSide (client order : ID) (type : OrderType) (action : ID) (m : Market) : Prop :=
  ∀ o ∈ m.db.orders.rows, o.orderId = order → o.orderStatus = .pending → o.clientId = client →
    o.orderType = type ∧ o.actionId = action

theorem orderIds_deaccumulateOrder {client order : ID} {type : OrderType}
    (known : m.db.clientExists client) (side : OrderType) (a : ID) :
    (m.deaccumulateOrder client order type action).orderIds side a
      = if side = type ∧ a = action then (m.orderIds side a).erase order
        else m.orderIds side a := by
  unfold Market.deaccumulateOrder
  rw [if_neg (not_not.mpr known)]
  by_cases here : a = action
  · subst here
    cases type <;> cases side <;> simp [orderIds]
  · cases type <;> cases side <;> simp [orderIds, here, Table.lookup_update_ne here]

/-- **`deaccumulate_order`** takes the order out of its vector. -/
theorem Queued.deaccumulateOrder (queued : m.Queued) {client order : ID} {type : OrderType}
    (names : NamesItsSide client order type action m) (known : m.db.clientExists client) :
    (m.deaccumulateOrder client order type action).Queued ∧
      ∀ side a, (m.deaccumulateOrder client order type action).ordersOf side a
        = if side = type ∧ a = action then
            (m.ordersOf side a).eraseIdx ((m.orderIds side a).idxOf order)
          else m.ordersOf side a := by
  have db : (m.deaccumulateOrder client order type action).db
      = removePendingOrder client order m.db := by
    unfold Market.deaccumulateOrder
    rw [if_neg (not_not.mpr known)]
    cases type <;> rfl
  have stays : ∀ {side a}, ∀ o ∈ m.ordersOf side a,
      (side = type ∧ a = action → o.orderId ≠ order) →
      o ∈ (m.deaccumulateOrder client order type action).db.orders.rows := by
    intro side a o mem other
    have row := queued.backed.row_mem mem
    have rests := queued.backed.rests mem
    rw [db]
    refine List.mem_filter.mpr ⟨row, ?_⟩
    simp only [Bool.not_eq_true', decide_eq_false_iff_not]
    rintro ⟨same, pending, owner⟩
    obtain ⟨rfl, rfl⟩ := names o row same pending owner
    exact other ⟨rests.2.1.symm, rests.2.2.symm⟩ same
  have unique : ∀ side a, (m.orderIds side a).Nodup := fun side a =>
    (backed_iff.mp queued.backed side a).1
  have left : ∀ {side a}, ∀ o ∈ (m.ordersOf side a).eraseIdx ((m.orderIds side a).idxOf order),
      o ∈ m.ordersOf side a ∧ o.orderId ≠ order := by
    intro side a o mem
    have id := List.mem_map_of_mem mem (f := OrderRow.orderId)
    rw [← List.eraseIdx_map, ← queued.backed.ids, List.eraseIdx_idxOf_eq_erase] at id
    exact ⟨List.mem_of_mem_eraseIdx mem, ((unique side a).mem_erase_iff.mp id).1⟩
  set queue := fun side a => if side = type ∧ a = action then
    (m.ordersOf side a).eraseIdx ((m.orderIds side a).idxOf order) else m.ordersOf side a
  have ids : ∀ side a, (m.deaccumulateOrder client order type action).orderIds side a
      = (queue side a).map OrderRow.orderId := by
    intro side a
    rw [orderIds_deaccumulateOrder known]
    simp only [queue]
    split
    · rw [← List.eraseIdx_map, ← queued.backed.ids, List.eraseIdx_idxOf_eq_erase]
    · exact queued.backed.ids side a
  have rows : ∀ side a, ∀ o ∈ queue side a,
      o ∈ (m.deaccumulateOrder client order type action).db.orders.rows := by
    intro side a o mem
    simp only [queue] at mem
    split at mem
    · obtain ⟨mem, other⟩ := left o mem
      exact stays o mem fun _ => other
    · rename_i elsewhere
      exact stays o mem fun here => absurd here elsewhere
  have sub : ∀ side a, (queue side a).Sublist (m.ordersOf side a) := by
    intro side a
    simp only [queue]
    split
    · exact List.eraseIdx_sublist _ _
    · exact .refl _
  have after : ∀ side a,
      (m.deaccumulateOrder client order type action).ordersOf side a = queue side a :=
    fun side a => ordersOf_eq (ids side a) (rows side a)
  refine ⟨⟨backed_iff.mpr fun side a => ⟨?_, fun id mem => ?_⟩, fun side a => ?_⟩, after⟩
  · have old := (backed_iff.mp queued.backed side a).1
    rw [queued.backed.ids] at old
    rw [ids]
    exact old.sublist ((sub side a).map _)
  · rw [ids] at mem
    obtain ⟨o, listed, rfl⟩ := List.mem_map.mp mem
    exact ⟨o, rows side a o listed, rfl, queued.backed.rests ((sub side a).subset listed)⟩
  · rw [after]
    exact (queued.ranked side a).sublist ((sub side a).map _)

/-! ### What the loops do to the vectors -/

/-- The price, the time of submission and the client. -/
def terms (o : OrderRow) : ℚ × ID × ID × ID :=
  (o.price, o.orderTimeDate, o.orderTimeDaily, o.clientId)

/-- The vectors are what is left of some others. -/
def Trails (old : OrderType → ID → List (ℚ × ID × ID × ID)) (m : Market) : Prop :=
  m.Backed ∧ ∀ side action, (m.ordersOf side action).map terms <:+ old side action

theorem trails_matchCall (fresh : env.Fresh) (order : IterationOrder ID (List ID))
    (call : MatchCall) (backed : m.Backed) :
    (call.run env order m).1.Trails fun side action => (m.ordersOf side action).map terms :=
  have ⟨backed', left⟩ := leftOf_matchCall fresh order call backed
  ⟨backed', fun side action => (left side action).map_suffix terms fun _ _ _ => rfl⟩

/-- What depends on the terms only. -/
theorem suffix_of_terms {κ : Type} {rows rows' : List OrderRow} (trails : rows'.map terms <:+
    rows.map terms) (f : ℚ × ID × ID × ID → κ) :
    rows'.map (fun o => f (terms o)) <:+ rows.map fun o => f (terms o) := by
  have mapped := trails.map f
  simpa only [List.map_map, Function.comp_def] using mapped

theorem suffix_readRank {rows rows' : List OrderRow} (side : OrderType)
    (trails : rows'.map terms <:+ rows.map terms) :
    rows'.map (OrderRow.readRank side) <:+ rows.map (OrderRow.readRank side) := by
  cases side
  · exact suffix_of_terms trails fun t => toLex (-t.1, toLex (columnInt t.2.1, columnInt t.2.2.1))
  · exact suffix_of_terms trails fun t => toLex (t.1, toLex (columnInt t.2.1, columnInt t.2.2.1))

theorem suffix_rank {rows rows' : List OrderRow} (side : OrderType)
    (trails : rows'.map terms <:+ rows.map terms) :
    rows'.map (OrderRow.rank side) <:+ rows.map (OrderRow.rank side) := by
  cases side
  · exact suffix_of_terms trails fun t => toLex (-t.1, toLex (t.2.1, t.2.2.1))
  · exact suffix_of_terms trails fun t => toLex (t.1, toLex (t.2.1, t.2.2.1))

/-- **The loops** keep the vectors sorted. -/
theorem Queued.matchCall (queued : m.Queued) (fresh : env.Fresh)
    (order : IterationOrder ID (List ID)) (call : MatchCall) :
    (call.run env order m).1.Queued ∧ ∀ side action,
      ((call.run env order m).1.ordersOf side action).map terms
        <:+ (m.ordersOf side action).map terms := by
  obtain ⟨backed, trails⟩ := trails_matchCall fresh order call queued.backed
  exact ⟨⟨backed, fun side action => (queued.ranked side action).sublist
    (suffix_readRank side (trails side action)).sublist⟩, trails⟩

/-- The same for a call whose orders read back from their texts. -/
theorem Queued.runText {text : ℚ → ℚ} {call : MatchCall} (queued : m.Queued) (fresh : env.Fresh)
    (order : IterationOrder ID (List ID)) (readBack : ReadsBack text order call m) :
    (call.runText text env order m).1.Queued ∧ ∀ side action,
      ((call.runText text env order m).1.ordersOf side action).map terms
        <:+ (m.ordersOf side action).map terms := by
  obtain ⟨backed, left⟩ := leftOf_runText fresh order queued.backed readBack
  have trails : ∀ side action, ((call.runText text env order m).1.ordersOf side action).map terms
      <:+ (m.ordersOf side action).map terms := fun side action =>
    (left side action).map_suffix terms fun _ _ _ => rfl
  exact ⟨⟨backed, fun side action => (queued.ranked side action).sublist
    (suffix_readRank side (trails side action)).sublist⟩, trails⟩

end Market

/-! ### Runs -/

/-- The calls that change the vectors. -/
inductive BookCall where
  | accumulate (o : OrderRow)
  | deaccumulate (client order : ID) (type : OrderType) (action : ID)
  | matching (call : MatchCall)

namespace BookCall

def run (text : ℚ → ℚ) (env : Env) (order : IterationOrder ID (List ID)) :
    BookCall → Market → Market
  | accumulate o, m => m.accumulateOrder o
  | deaccumulate client id type action, m => m.deaccumulateOrder client id type action
  | matching call, m => (call.runText text env order m).1

/-- What the callers see to. -/
def Proper (m : Market) : BookCall → Prop
  | accumulate o => o.orderId ∉ m.db.orders.rows.map OrderRow.orderId ∧ o.Timed
  | deaccumulate client id type action => m.NamesItsSide client id type action
  | matching _ => True

/-- No order in its vector has the price and the time of an order that is accumulated. -/
def Unrivalled (m : Market) : BookCall → Prop
  | accumulate o => m.db.clientExists o.clientId → ∀ o' ∈ m.ordersOf o.orderType o.actionId,
      ¬(o'.price = o.price ∧ o'.orderTimeDate = o.orderTimeDate ∧
        o'.orderTimeDaily = o.orderTimeDaily)
  | _ => True

/-- The orders that a matching loop fills in part read back from their texts. -/
def ReadsBack (text : ℚ → ℚ) (order : IterationOrder ID (List ID)) (m : Market) :
    BookCall → Prop
  | matching call => Market.ReadsBack text order call m
  | _ => True

/-- The numbers of the orders in a vector after a call with the next number, which has made
the ids `ids'` of the ids `ids`. A loop erases from the front, and what is left of an order
keeps its place and its number. -/
def arrivals (number : Nat) (ids ids' : List ID) (numbers : List Nat) : BookCall → List Nat
  | accumulate o =>
    if ids' = ids then numbers
    else
      let place := ids'.idxOf o.orderId
      numbers.take place ++ number :: numbers.drop place
  | deaccumulate _ id _ _ => if ids' = ids then numbers else numbers.eraseIdx (ids.idxOf id)
  | matching _ => numbers.drop (ids.length - ids'.length)

end BookCall

/-- A market after some calls, and for each order in a vector the number of the call that has
accumulated it. -/
structure Numbered where
  market : Market
  arrivals : OrderType → ID → List Nat := fun _ _ => []
  calls : Nat := 0

namespace Numbered

def call (text : ℚ → ℚ) (env : Env) (order : IterationOrder ID (List ID)) (s : Numbered)
    (c : BookCall) : Numbered where
  market := c.run text env order s.market
  arrivals side action := c.arrivals s.calls (s.market.orderIds side action)
    ((c.run text env order s.market).orderIds side action) (s.arrivals side action)
  calls := s.calls + 1

/-- Some calls from a market that starts on a database. -/
def after (text : ℚ → ℚ) (env : Env) (order : IterationOrder ID (List ID)) (d : Database)
    (cs : List BookCall) : Numbered :=
  cs.foldl (call text env order) { market := { db := d } }

/-- The ranks in a vector, with the numbers of their arrival. -/
def entries (s : Numbered) (side : OrderType) (action : ID) : List ((ℚ ×ₗ ℤ ×ₗ ℤ) × ℕ) :=
  ((s.market.ordersOf side action).map (OrderRow.rank side)).zip (s.arrivals side action)

/-- **Price-time priority**: the orders behind every vector are listed by rank, and those of
the same rank in the order in which they were accumulated. -/
structure InTurn (s : Numbered) : Prop where
  rows : ∀ side action, (s.market.ordersOf side action).map OrderRow.orderId
    = s.market.orderIds side action
  numbered : ∀ side action,
    (s.arrivals side action).length = (s.market.orderIds side action).length
  inTurn : ∀ side action, Queue.InTurn (s.entries side action)

/-- What holds after proper calls. -/
structure Invariant (s : Numbered) : Prop where
  queued : s.market.Queued
  timed : ∀ side action, ∀ o ∈ s.market.ordersOf side action, o.Timed
  numbered : ∀ side action,
    (s.arrivals side action).length = (s.market.ordersOf side action).length
  earlier : ∀ side action, ∀ number ∈ s.arrivals side action, number < s.calls

variable {env : Env} {order : IterationOrder ID (List ID)} {s : Numbered} {c : BookCall}
  {d : Database} {text : ℚ → ℚ}

theorem invariant_start (d : Database) : Invariant { market := { db := d } } := by
  have none : ∀ side action, ({ db := d } : Market).orderIds side action = [] := by
    intro side action
    cases side <;> rfl
  have empty : ∀ side action, ({ db := d } : Market).ordersOf side action = [] :=
    fun side action => Market.ordersOf_eq (none side action) (by simp)
  refine ⟨⟨(Market.strands_start d).backed, ?_⟩, ?_, ?_, ?_⟩
  all_goals simp [empty]

theorem Invariant.inTurn_iff (inv : s.Invariant) :
    s.InTurn ↔ ∀ side action, Queue.InTurn (s.entries side action) := by
  refine ⟨InTurn.inTurn, fun turn => ⟨fun side action => ?_, fun side action => ?_, turn⟩⟩
  · exact (inv.queued.backed.ids side action).symm
  · rw [inv.numbered, inv.queued.backed.ids, List.length_map]

/-- A call that changes no vector. -/
theorem Invariant.idle (inv : s.Invariant)
    (same : s.call text env order c = { s with calls := s.calls + 1 }) :
    (s.call text env order c).Invariant ∧ (s.InTurn → (s.call text env order c).InTurn) := by
  rw [same]
  constructor
  · exact ⟨inv.queued, inv.timed, inv.numbered, fun side action number mem =>
      (inv.earlier side action number mem).trans (Nat.lt_succ_self _)⟩
  · exact fun turn => ⟨turn.rows, turn.numbered, turn.inTurn⟩

theorem entries_fst (numbered : (s.arrivals side action).length
    = (s.market.ordersOf side action).length) :
    (s.entries side action).map Prod.fst
      = (s.market.ordersOf side action).map (OrderRow.rank side) :=
  List.map_fst_zip (by simp [numbered])

/-- The number of an order that is accumulated stands where its id does. -/
theorem Invariant.arrivals_accumulate (inv : s.Invariant) {o : OrderRow} {place : Nat}
    (unused : o.orderId ∉ s.market.db.orders.rows.map OrderRow.orderId)
    (inside : place ≤ (s.market.ordersOf o.orderType o.actionId).length)
    (ids : ∀ side action, (s.market.accumulateOrder o).orderIds side action
      = if side = o.orderType ∧ action = o.actionId then
          (s.market.orderIds side action).take place
            ++ o.orderId :: (s.market.orderIds side action).drop place
        else s.market.orderIds side action) (side : OrderType) (action : ID) :
    (s.call text env order (.accumulate o)).arrivals side action
      = if side = o.orderType ∧ action = o.actionId then
          (s.arrivals side action).take place ++ s.calls :: (s.arrivals side action).drop place
        else s.arrivals side action := by
  simp only [Numbered.call, BookCall.arrivals, BookCall.run, ids]
  split
  · rename_i here
    obtain ⟨rfl, rfl⟩ := here
    have absent : o.orderId ∉ (s.market.orderIds o.orderType o.actionId).take place := by
      intro mem
      obtain ⟨o', row, same, -⟩ := (Market.backed_iff.mp inv.queued.backed _ _).2 _
        (List.mem_of_mem_take mem)
      exact unused (same ▸ List.mem_map_of_mem row)
    have longer : (s.market.orderIds o.orderType o.actionId).take place
        ++ o.orderId :: (s.market.orderIds o.orderType o.actionId).drop place
        ≠ s.market.orderIds o.orderType o.actionId := by
      intro same
      have lengths := congrArg List.length same
      simp only [List.length_append, List.length_cons, List.length_take, List.length_drop]
        at lengths
      omega
    have at_place : ((s.market.orderIds o.orderType o.actionId).take place
        ++ o.orderId :: (s.market.orderIds o.orderType o.actionId).drop place).idxOf o.orderId
        = place := by
      rw [List.idxOf_append_of_notMem absent, List.idxOf_cons_self, List.length_take,
        inv.queued.backed.ids, List.length_map]
      omega
    rw [if_neg longer, at_place]
  · simp

/-- An order that is inserted behind those of lower rank is in turn if it has no rival. -/
theorem Invariant.inTurn_insert_iff (inv : s.Invariant) {o : OrderRow} {place : Nat}
    (timed : o.Timed) (turn : Queue.InTurn (s.entries o.orderType o.actionId))
    (front : ∀ o' ∈ (s.market.ordersOf o.orderType o.actionId).take place,
      o'.readRank o.orderType < o.readRank o.orderType)
    (back : ∀ o' ∈ (s.market.ordersOf o.orderType o.actionId).drop place,
      o.readRank o.orderType ≤ o'.readRank o.orderType) :
    Queue.InTurn ((s.entries o.orderType o.actionId).take place
        ++ (o.rank o.orderType, s.calls) :: (s.entries o.orderType o.actionId).drop place) ↔
      ∀ o' ∈ s.market.ordersOf o.orderType o.actionId,
        o'.rank o.orderType ≠ o.rank o.orderType := by
  have fst := entries_fst (inv.numbered o.orderType o.actionId)
  have before : ∀ x ∈ (s.entries o.orderType o.actionId).take place,
      x.1 < o.rank o.orderType := by
    intro x mem
    have here := List.mem_map_of_mem (f := Prod.fst) mem
    rw [List.map_take, fst, ← List.map_take] at here
    obtain ⟨o', mem', same⟩ := List.mem_map.mp here
    have lower := front o' mem'
    rwa [(inv.timed _ _ o' (List.mem_of_mem_take mem')).readRank, timed.readRank, same] at lower
  have behind : ∀ x ∈ (s.entries o.orderType o.actionId).drop place,
      o.rank o.orderType ≤ x.1 := by
    intro x mem
    have here := List.mem_map_of_mem (f := Prod.fst) mem
    rw [List.map_drop, fst, ← List.map_drop] at here
    obtain ⟨o', mem', same⟩ := List.mem_map.mp here
    have upper := back o' mem'
    rwa [(inv.timed _ _ o' (List.mem_of_mem_drop mem')).readRank, timed.readRank, same] at upper
  have last : ∀ x ∈ s.entries o.orderType o.actionId, x.2 < s.calls :=
    fun x mem => inv.earlier _ _ _ (List.of_mem_zip mem).2
  have unlike : (∀ x ∈ s.entries o.orderType o.actionId, x.1 ≠ o.rank o.orderType) ↔
      ∀ o' ∈ s.market.ordersOf o.orderType o.actionId,
        o'.rank o.orderType ≠ o.rank o.orderType := by
    have ranks := List.forall_mem_map (l := s.entries o.orderType o.actionId) (f := Prod.fst)
      (P := fun r => r ≠ o.rank o.orderType)
    rw [fst, List.forall_mem_map] at ranks
    exact ranks.symm
  exact (Queue.inTurn_insert_iff turn before behind last).trans unlike

/-- An order that is accumulated. -/
theorem Invariant.accumulate (inv : s.Invariant) {o : OrderRow}
    (unused : o.orderId ∉ s.market.db.orders.rows.map OrderRow.orderId) (timed : o.Timed)
    (known : s.market.db.clientExists o.clientId) :
    (s.call text env order (.accumulate o)).Invariant ∧
      (s.InTurn → ((s.call text env order (.accumulate o)).InTurn ↔
        ∀ o' ∈ s.market.ordersOf o.orderType o.actionId,
          o'.rank o.orderType ≠ o.rank o.orderType)) := by
  obtain ⟨queued, place, inside, after, front, back⟩ := inv.queued.accumulateOrder unused known
  have ids : ∀ side action, (s.market.accumulateOrder o).orderIds side action
      = if side = o.orderType ∧ action = o.actionId then
          (s.market.orderIds side action).take place
            ++ o.orderId :: (s.market.orderIds side action).drop place
        else s.market.orderIds side action := by
    intro side action
    rw [queued.backed.ids, after, inv.queued.backed.ids]
    split <;> simp [Market.entered]
  have numbers : ∀ side action, (s.call text env order (.accumulate o)).arrivals side action = _ :=
    inv.arrivals_accumulate unused inside ids
  have entries : ∀ side action, (s.call text env order (.accumulate o)).entries side action
      = if side = o.orderType ∧ action = o.actionId then
          (s.entries side action).take place
            ++ (o.rank side, s.calls) :: (s.entries side action).drop place
        else s.entries side action := by
    intro side action
    have lengths : ((s.market.ordersOf side action).map (OrderRow.rank side)).length
        = (s.arrivals side action).length := by
      rw [inv.numbered, List.length_map]
    have ranks := after side action
    simp only [Numbered.entries, numbers]
    simp only [Numbered.call, BookCall.run, ranks]
    split
    · rw [List.map_append, List.map_cons, List.map_take, List.map_drop]
      exact Queue.zip_insert _ _ _ _ lengths
    · rfl
  have inv' : (s.call text env order (.accumulate o)).Invariant := by
    refine ⟨queued, fun side action o' mem => ?_, fun side action => ?_,
      fun side action number mem => ?_⟩
    · simp only [Numbered.call, BookCall.run, after] at mem
      split at mem
      · rcases List.mem_append.mp mem with mem | mem
        · exact inv.timed _ _ o' (List.mem_of_mem_take mem)
        · rcases List.mem_cons.mp mem with rfl | mem
          · exact timed
          · exact inv.timed _ _ o' (List.mem_of_mem_drop mem)
      · exact inv.timed _ _ o' mem
    · rw [numbers]
      simp only [Numbered.call, BookCall.run, after]
      split <;> simp [inv.numbered]
    · rw [numbers] at mem
      have old : number ∈ s.arrivals side action → number < s.calls + 1 :=
        fun mem => (inv.earlier side action number mem).trans (Nat.lt_succ_self _)
      split at mem
      · rcases List.mem_append.mp mem with mem | mem
        · exact old (List.mem_of_mem_take mem)
        · rcases List.mem_cons.mp mem with rfl | mem
          · exact Nat.lt_succ_self _
          · exact old (List.mem_of_mem_drop mem)
      · exact old mem
  refine ⟨inv', fun turn => inv'.inTurn_iff.trans ?_⟩
  rw [← inv.inTurn_insert_iff timed (turn.inTurn _ _) front back]
  constructor
  · intro turn'
    simpa [entries] using turn' o.orderType o.actionId
  · intro here side action
    rw [entries]
    split
    · rename_i eq
      obtain ⟨rfl, rfl⟩ := eq
      exact here
    · exact turn.inTurn side action

theorem arrivals_same {ids : List ID} {numbers : List Nat} (number : Nat) :
    c.arrivals number ids ids numbers = numbers := by
  cases c <;> simp [BookCall.arrivals]

/-- A client that there is not changes nothing. -/
theorem call_of_same (same : c.run text env order s.market = s.market) :
    s.call text env order c = { s with calls := s.calls + 1 } := by
  simp only [Numbered.call, same, arrivals_same]

/-- An order that is taken out. -/
theorem Invariant.deaccumulate (inv : s.Invariant) {client id : ID} {type : OrderType} {a : ID}
    (names : s.market.NamesItsSide client id type a) (known : s.market.db.clientExists client) :
    (s.call text env order (.deaccumulate client id type a)).Invariant ∧
      (s.InTurn → (s.call text env order (.deaccumulate client id type a)).InTurn) := by
  obtain ⟨queued, after⟩ := inv.queued.deaccumulateOrder names known
  have numbers : ∀ side action,
      (s.call text env order (.deaccumulate client id type a)).arrivals side action
        = if side = type ∧ action = a then
            (s.arrivals side action).eraseIdx ((s.market.orderIds side action).idxOf id)
          else s.arrivals side action := by
    intro side action
    simp only [Numbered.call, BookCall.arrivals, BookCall.run,
      Market.orderIds_deaccumulateOrder known]
    split
    · split
      · rename_i same
        have beyond : (s.arrivals side action).length
            ≤ (s.market.orderIds side action).idxOf id := by
          rw [inv.numbered, ← List.length_map (f := OrderRow.orderId), ← inv.queued.backed.ids]
          by_contra inside
          have mem := List.idxOf_lt_length_iff.mp (not_le.mp inside)
          have lengths := congrArg List.length same
          rw [List.length_erase_of_mem mem] at lengths
          have := List.length_pos_of_mem mem
          omega
        rw [List.eraseIdx_of_length_le beyond]
      · rfl
    · simp
  have entries : ∀ side action,
      (s.call text env order (.deaccumulate client id type a)).entries side action
        = if side = type ∧ action = a then
            (s.entries side action).eraseIdx ((s.market.orderIds side action).idxOf id)
          else s.entries side action := by
    intro side action
    have ranks := after side action
    simp only [Numbered.entries, numbers]
    simp only [Numbered.call, BookCall.run, ranks]
    split
    · rw [← List.eraseIdx_map, Queue.zip_eraseIdx]
    · rfl
  have inv' : (s.call text env order (.deaccumulate client id type a)).Invariant := by
    refine ⟨queued, fun side action o mem => ?_, fun side action => ?_,
      fun side action number mem => ?_⟩
    · simp only [Numbered.call, BookCall.run, after] at mem
      split at mem
      · exact inv.timed _ _ o (List.mem_of_mem_eraseIdx mem)
      · exact inv.timed _ _ o mem
    · rw [numbers]
      simp only [Numbered.call, BookCall.run, after]
      split <;> simp [List.length_eraseIdx, inv.numbered]
    · rw [numbers] at mem
      refine (inv.earlier side action number ?_).trans (Nat.lt_succ_self _)
      split at mem
      · exact List.mem_of_mem_eraseIdx mem
      · exact mem
  refine ⟨inv', fun turn => inv'.inTurn_iff.mpr fun side action => ?_⟩
  rw [entries]
  split
  · exact (turn.inTurn side action).eraseIdx _
  · exact turn.inTurn side action

/-- A matching loop. -/
theorem Invariant.matching (fresh : env.Fresh) (inv : s.Invariant) (call : MatchCall)
    (readBack : s.market.ReadsBack text order call) :
    (s.call text env order (.matching call)).Invariant ∧
      (s.InTurn → (s.call text env order (.matching call)).InTurn) := by
  obtain ⟨queued, trails⟩ := inv.queued.runText fresh order readBack
  have ranks : ∀ side action,
      ((call.runText text env order s.market).1.ordersOf side action).map (OrderRow.rank side)
        = ((s.market.ordersOf side action).map (OrderRow.rank side)).drop
            ((s.market.ordersOf side action).length
              - ((call.runText text env order s.market).1.ordersOf side action).length) := by
    intro side action
    simpa using List.suffix_iff_eq_drop.mp (Market.suffix_rank side (trails side action))
  have numbers : ∀ side action, (s.call text env order (.matching call)).arrivals side action
      = (s.arrivals side action).drop ((s.market.ordersOf side action).length
          - ((call.runText text env order s.market).1.ordersOf side action).length) := by
    intro side action
    simp [Numbered.call, BookCall.arrivals, BookCall.run, inv.queued.backed.ids, queued.backed.ids]
  have entries : ∀ side action, (s.call text env order (.matching call)).entries side action
      = (s.entries side action).drop ((s.market.ordersOf side action).length
          - ((call.runText text env order s.market).1.ordersOf side action).length) := by
    intro side action
    simp only [Numbered.entries, numbers]
    rw [← Queue.zip_drop, ← ranks]
    rfl
  have inv' : (s.call text env order (.matching call)).Invariant := by
    refine ⟨queued, fun side action o mem => ?_, fun side action => ?_,
      fun side action number mem => ?_⟩
    · obtain ⟨o', mem', same⟩ := List.mem_map.mp
        ((trails side action).subset (List.mem_map_of_mem mem))
      have timed := inv.timed side action o' mem'
      simp only [Market.terms, Prod.mk.injEq] at same
      rwa [OrderRow.Timed, same.2.1, same.2.2.1] at timed
    · have shorter := (trails side action).length_le
      simp only [List.length_map] at shorter
      rw [numbers, List.length_drop, inv.numbered]
      simp only [Numbered.call, BookCall.run]
      omega
    · rw [numbers] at mem
      exact (inv.earlier side action number (List.mem_of_mem_drop mem)).trans (Nat.lt_succ_self _)
  refine ⟨inv', fun turn => inv'.inTurn_iff.mpr fun side action => ?_⟩
  rw [entries]
  exact (turn.inTurn side action).drop _

/-- **A step lemma.** Every proper call keeps the invariant, and from queues in turn it leads
to queues in turn if and only if it does not accumulate an order with a rival. -/
theorem Invariant.call (fresh : env.Fresh) (inv : s.Invariant) (proper : c.Proper s.market)
    (readBack : c.ReadsBack text order s.market) :
    (s.call text env order c).Invariant ∧
      (s.InTurn → ((s.call text env order c).InTurn ↔ c.Unrivalled s.market)) := by
  cases c with
  | accumulate o =>
      by_cases known : s.market.db.clientExists o.clientId
      · have added : (s.call text env order (.accumulate o)).Invariant ∧ _ :=
          inv.accumulate proper.1 proper.2 known
        refine ⟨added.1, fun turn => (added.2 turn).trans ?_⟩
        simp [BookCall.Unrivalled, known, rank_eq_iff]
      · have same : (BookCall.accumulate o).run text env order s.market = s.market := by
          simp [BookCall.run, Market.accumulateOrder, known]
        obtain ⟨inv', turns⟩ := inv.idle (call_of_same same)
        exact ⟨inv', fun turn => iff_of_true (turns turn) fun known' => absurd known' known⟩
  | deaccumulate client id type action =>
      by_cases known : s.market.db.clientExists client
      · obtain ⟨inv', turns⟩ := inv.deaccumulate proper known
        exact ⟨inv', fun turn => iff_of_true (turns turn) trivial⟩
      · have same : (BookCall.deaccumulate client id type action).run text env order s.market
            = s.market := by
          simp [BookCall.run, Market.deaccumulateOrder, known]
        obtain ⟨inv', turns⟩ := inv.idle (call_of_same same)
        exact ⟨inv', fun turn => iff_of_true (turns turn) trivial⟩
  | matching call =>
      obtain ⟨inv', turns⟩ := inv.matching fresh call readBack
      exact ⟨inv', fun turn => iff_of_true (turns turn) trivial⟩

theorem after_append (cs : List BookCall) (c : BookCall) :
    after text env order d (cs ++ [c]) = (after text env order d cs).call text env order c := by
  simp [after]

/-- **Every proper run** keeps the vectors sorted by rank. -/
theorem invariant_after (fresh : env.Fresh) : ∀ (cs : List BookCall),
    (∀ done c, done ++ [c] <+: cs → c.Proper (after text env order d done).market) →
    (∀ done c, done ++ [c] <+: cs →
      c.ReadsBack text order (after text env order d done).market) →
    (after text env order d cs).Invariant := by
  intro cs
  induction cs using List.reverseRecOn with
  | nil => exact fun _ _ => invariant_start d
  | append_singleton cs c ih =>
      intro proper readBack
      have inv := ih (fun done c' pre => proper done c' (pre.trans (List.prefix_append _ _)))
        fun done c' pre => readBack done c' (pre.trans (List.prefix_append _ _))
      rw [after_append]
      exact (inv.call fresh (proper cs c List.prefix_rfl) (readBack cs c List.prefix_rfl)).1

/-- **Price-time priority is kept** in every state of a run of proper calls, in which what is
left of an order reads back, if and only if no order is accumulated into a vector that has an
order of the same price and the same time. -/
theorem inTurn_iff_unrivalled (fresh : env.Fresh) (d : Database) (cs : List BookCall)
    (proper : ∀ done c, done ++ [c] <+: cs → c.Proper (after text env order d done).market)
    (readBack : ∀ done c, done ++ [c] <+: cs →
      c.ReadsBack text order (after text env order d done).market) :
    (∀ done, done <+: cs → (after text env order d done).InTurn) ↔
      ∀ done c, done ++ [c] <+: cs → c.Unrivalled (after text env order d done).market := by
  have inv : ∀ done, done <+: cs → (after text env order d done).Invariant := fun done pre =>
    invariant_after fresh done (fun done' c pre' => proper done' c (pre'.trans pre))
      fun done' c pre' => readBack done' c (pre'.trans pre)
  have step : ∀ done c, done ++ [c] <+: cs → (after text env order d done).InTurn →
      ((after text env order d (done ++ [c])).InTurn ↔
        c.Unrivalled (after text env order d done).market) := by
    intro done c pre turn
    rw [after_append]
    exact ((inv done ((List.prefix_append _ _).trans pre)).call fresh (proper done c pre)
      (readBack done c pre)).2 turn
  constructor
  · intro turn done c pre
    exact (step done c pre (turn done ((List.prefix_append _ _).trans pre))).mp (turn _ pre)
  · intro unrivalled done
    induction done using List.reverseRecOn with
    | nil =>
        intro _
        have start := invariant_start d
        refine start.inTurn_iff.mpr fun side action => ?_
        have none := start.numbered side action
        simp only [List.length_nil] at none
        simp [entries, List.eq_nil_of_length_eq_zero none.symm, Queue.InTurn]
    | append_singleton done c ih =>
        intro pre
        exact (step done c pre (ih ((List.prefix_append _ _).trans pre))).mpr
          (unrivalled done c pre)

end Numbered

/-! ### Two orders of the same price -/

/-- Client 2 of `init` offers 10 at 10. -/
def offerAt (order daily : ID) : OrderRow :=
  { limitRow order 2 .sell 10 10 with orderTimeDaily := daily }

/-- Twice, at two times of a day. -/
def sellTwice (daily : ID) : List BookCall :=
  [.accumulate (offerAt 1 1), .accumulate (offerAt 2 daily)]

/-- The calls of a run of two. -/
theorem prefix_pair {α : Type} {a b x : α} {done : List α} (pre : done ++ [x] <+: [a, b]) :
    done = [] ∧ x = a ∨ done = [a] ∧ x = b := by
  rcases done with _ | ⟨y, _ | ⟨z, rest⟩⟩
  · simp only [List.nil_append, List.cons_prefix_cons] at pre
    exact .inl ⟨rfl, pre.1⟩
  · simp only [List.cons_append, List.nil_append, List.cons_prefix_cons] at pre
    exact .inr ⟨by rw [pre.1], pre.2.1⟩
  · simp [List.cons_prefix_cons] at pre

theorem proper_sellTwice {daily : ID} (small : columnInt daily = daily) (done : List BookCall)
    (c : BookCall) (pre : done ++ [c] <+: sellTwice daily) :
    c.Proper (Numbered.after fifteenDigits countingEnv .stored
    (Database.demo 0 1) done).market := by
  rcases prefix_pair pre with ⟨rfl, rfl⟩ | ⟨rfl, rfl⟩
  · exact ⟨by decide +kernel, by decide, by decide⟩
  · have unused : (2 : ID) ∉ (Numbered.after fifteenDigits countingEnv .stored (Database.demo 0 1)
        [.accumulate (offerAt 1 1)]).market.db.orders.rows.map OrderRow.orderId := by
      decide +kernel
    have date : columnInt 1 = 1 := by decide
    exact ⟨unused, date, small⟩

/-- Nothing is matched. -/
theorem readsBack_sellTwice {daily : ID} (done : List BookCall) (c : BookCall)
    (pre : done ++ [c] <+: sellTwice daily) : c.ReadsBack fifteenDigits .stored
      (Numbered.after fifteenDigits countingEnv .stored (Database.demo 0 1) done).market := by
  rcases prefix_pair pre with ⟨rfl, rfl⟩ | ⟨rfl, rfl⟩
  · trivial
  · trivial

/-- One after the other, they are served in this order. -/
theorem inTurn_iff_unrivalled_sellTwice :
    (Numbered.after fifteenDigits countingEnv .stored (Database.demo 0 1) (sellTwice 2)).InTurn ∧
      (Numbered.after fifteenDigits countingEnv .stored (Database.demo 0 1)
        (sellTwice 2)).market.orderIds .sell 1 = [1, 2] := by
  refine ⟨(Numbered.inTurn_iff_unrivalled fresh_countingEnv (Database.demo 0 1) (sellTwice 2)
    (proper_sellTwice (by decide)) readsBack_sellTwice).mpr ?_ _ List.prefix_rfl,
    by decide +kernel⟩
  intro done c pre
  rcases prefix_pair pre with ⟨rfl, rfl⟩ | ⟨rfl, rfl⟩
  · intro _
    decide +kernel
  · intro _
    decide +kernel

/-- In the same millisecond, the second is served first. -/
theorem last_come_first_served : ¬∀ (cs : List BookCall),
    (∀ done c, done ++ [c] <+: cs →
      c.Proper (Numbered.after fifteenDigits countingEnv .stored (Database.demo 0 1) done).market) →
    ∀ done, done <+: cs →
      (Numbered.after fifteenDigits countingEnv .stored (Database.demo 0 1) done).InTurn := by
  intro claim
  have turn := (claim (sellTwice 1) (proper_sellTwice (by decide)) _ List.prefix_rfl).inTurn .sell 1
  exact absurd turn (by decide +kernel)

end StockMarket.Sql
