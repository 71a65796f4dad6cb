import StockMarket.OrderRegistry

/-!
The invariant of the waiting registry and what a scan does to it.

`RegistryInvariant` says that the id index and the buckets describe the same
orders, each in the bucket of its own symbol. Under it a registry is a set of
orders (`Waits`), `all_waiting` and `size` agree with that set, and a scan of any
list of symbols takes exactly the orders out that it reports
(`scanSymbols_exact`).
-/

namespace StockMarket

variable {P : Type}

namespace OrderRegistry

/-- The order waits in the bucket of its own symbol. -/
def Waits (r : OrderRegistry P) (o : Order P) : Prop :=
  (r.bucket o.symbol).lookup o.id = some o

end OrderRegistry

/-- The index and the buckets describe the same orders. -/
structure RegistryInvariant (r : OrderRegistry P) : Prop where
  own : ∀ s id o, (r.bucket s).lookup id = some o → o.id = id ∧ o.symbol = s
  index : ∀ id s, r.orderSymbolIndex.lookup id = some s ↔ ∃ o, (r.bucket s).lookup id = some o

open OrderRegistry

section

variable {r : OrderRegistry P}

theorem RegistryInvariant.empty : RegistryInvariant ({} : OrderRegistry P) where
  own := by
    intro s id o h
    cases h
  index := by
    intro id s
    constructor
    · intro h
      cases h
    · rintro ⟨o, h⟩
      cases h

theorem RegistryInvariant.waits (inv : RegistryInvariant r) {s : Symbol} {id : Nat} {o : Order P} :
    (r.bucket s).lookup id = some o ↔ r.Waits o ∧ o.id = id ∧ o.symbol = s := by
  constructor
  · intro h
    obtain ⟨rfl, rfl⟩ := inv.own s id o h
    exact ⟨h, rfl, rfl⟩
  · rintro ⟨h, rfl, rfl⟩
    exact h

/-- Two waiting orders of one id are the same order. -/
theorem RegistryInvariant.unique (inv : RegistryInvariant r) {o o' : Order P} (h : r.Waits o)
    (h' : r.Waits o') (same : o.id = o'.id) : o = o' := by
  have index := (inv.index o.id o.symbol).mpr ⟨o, h⟩
  have index' := (inv.index o'.id o'.symbol).mpr ⟨o', h'⟩
  rw [same, index'] at index
  unfold Waits at h
  rw [← Option.some.inj index, same, h'] at h
  exact (Option.some.inj h).symm

/-- An id is in the index exactly when an order of that id waits. -/
theorem RegistryInvariant.mem_index (inv : RegistryInvariant r) {id : Nat} :
    id ∈ r.orderSymbolIndex ↔ ∃ o, r.Waits o ∧ o.id = id := by
  rw [← AList.lookup_isSome, Option.isSome_iff_exists]
  constructor
  · rintro ⟨s, hs⟩
    obtain ⟨o, ho⟩ := (inv.index id s).mp hs
    exact ⟨o, (inv.waits.mp ho).1, (inv.waits.mp ho).2.1⟩
  · rintro ⟨o, ho, rfl⟩
    exact ⟨o.symbol, (inv.index o.id o.symbol).mpr ⟨o, ho⟩⟩

/-! ### The orders of some buckets -/

/-- The orders of one bucket as a scan walks it. -/
def OrderRegistry.walked (r : OrderRegistry P) (order : IterationOrder Nat (Order P))
    (s : Symbol) : List (Order P) :=
  (order.walk (r.bucket s)).map fun e => e.2

theorem RegistryInvariant.mem_walked (inv : RegistryInvariant r)
    {order : IterationOrder Nat (Order P)} {s : Symbol} {o : Order P} :
    o ∈ r.walked order s ↔ r.Waits o ∧ o.symbol = s := by
  unfold walked
  rw [List.mem_map]
  constructor
  · rintro ⟨⟨id, o'⟩, mem, rfl⟩
    obtain ⟨h, -, eq⟩ := inv.waits.mp (order.mem_walk.mp mem)
    exact ⟨h, eq⟩
  · rintro ⟨h, rfl⟩
    exact ⟨⟨o.id, o⟩, order.mem_walk.mpr h, rfl⟩

theorem RegistryInvariant.nodup_walked (inv : RegistryInvariant r)
    (order : IterationOrder Nat (Order P)) (s : Symbol) :
    ((r.walked order s).map Order.id).Nodup := by
  have ids : (r.walked order s).map Order.id = (order.walk (r.bucket s)).map fun e => e.1 := by
    unfold walked
    rw [List.map_map]
    refine List.map_congr_left fun e he => ?_
    exact (inv.own s e.1 e.2 (order.mem_walk.mp he)).1
  rw [ids]
  exact order.nodup_keys _

/-- The orders in the buckets of several symbols: no id twice. -/
theorem RegistryInvariant.nodup_flatMap (inv : RegistryInvariant r)
    (order : Symbol → IterationOrder Nat (Order P)) {symbols : List Symbol}
    (distinct : symbols.Nodup) :
    ((symbols.flatMap fun s => r.walked (order s) s).map Order.id).Nodup := by
  rw [List.map_flatMap, List.nodup_flatMap]
  refine ⟨fun s _ => inv.nodup_walked (order s) s, distinct.imp fun {s t} ne => ?_⟩
  intro id hs ht
  obtain ⟨o, ho, rfl⟩ := List.mem_map.mp hs
  obtain ⟨o', ho', same⟩ := List.mem_map.mp ht
  obtain ⟨waits, rfl⟩ := inv.mem_walked.mp ho
  obtain ⟨waits', rfl⟩ := inv.mem_walked.mp ho'
  exact ne (by rw [inv.unique waits' waits same])

theorem RegistryInvariant.mem_flatMap (inv : RegistryInvariant r)
    {order : Symbol → IterationOrder Nat (Order P)} {symbols : List Symbol} {o : Order P} :
    o ∈ (symbols.flatMap fun s => r.walked (order s) s) ↔ r.Waits o ∧ o.symbol ∈ symbols := by
  rw [List.mem_flatMap]
  constructor
  · rintro ⟨s, hs, mem⟩
    obtain ⟨waits, rfl⟩ := inv.mem_walked.mp mem
    exact ⟨waits, hs⟩
  · rintro ⟨waits, mem⟩
    exact ⟨o.symbol, mem, inv.mem_walked.mpr ⟨waits, rfl⟩⟩

/-- The symbols that have a bucket. -/
def OrderRegistry.symbols (r : OrderRegistry P) : List Symbol :=
  r.waitingBySymbol.entries.map fun e => e.1

theorem mem_symbols_of_waits {o : Order P} (waits : r.Waits o) : o.symbol ∈ r.symbols := by
  by_contra absent
  have none : r.waitingBySymbol.lookup o.symbol = none := AList.lookup_eq_none.mpr absent
  unfold Waits bucket at waits
  rw [none] at waits
  cases waits

theorem allWaiting_eq (r : OrderRegistry P) :
    r.allWaiting = r.symbols.flatMap fun s => r.walked IterationOrder.stored s := by
  unfold allWaiting symbols
  rw [List.flatMap_map]
  refine List.flatMap_congr fun e he => ?_
  have look : r.waitingBySymbol.lookup e.1 = some e.2 := Table.mem_entries_iff.mp he
  simp only [walked, bucket, look, Option.getD_some]
  rfl

/-- `all_waiting` lists exactly the waiting orders. -/
theorem RegistryInvariant.mem_allWaiting (inv : RegistryInvariant r) {o : Order P} :
    o ∈ r.allWaiting ↔ r.Waits o := by
  have mem : o ∈ (r.symbols.flatMap fun s => r.walked IterationOrder.stored s) ↔
      r.Waits o ∧ o.symbol ∈ r.symbols := inv.mem_flatMap
  rw [allWaiting_eq, mem]
  exact and_iff_left_of_imp mem_symbols_of_waits

/-- `all_waiting` lists no order twice. -/
theorem RegistryInvariant.nodup_allWaiting (inv : RegistryInvariant r) :
    (r.allWaiting.map Order.id).Nodup := by
  rw [allWaiting_eq]
  exact inv.nodup_flatMap (fun _ => IterationOrder.stored) r.waitingBySymbol.keys_nodup

/-- The index has the ids of `all_waiting`. -/
theorem RegistryInvariant.index_perm (inv : RegistryInvariant r) :
    r.orderSymbolIndex.keys.Perm (r.allWaiting.map Order.id) := by
  refine (List.perm_ext_iff_of_nodup r.orderSymbolIndex.keys_nodup inv.nodup_allWaiting).mpr ?_
  intro id
  rw [← AList.mem_keys, inv.mem_index, List.mem_map]
  simp only [inv.mem_allWaiting]

/-- `size` counts `all_waiting`. -/
theorem RegistryInvariant.size_eq (inv : RegistryInvariant r) : r.size = r.allWaiting.length := by
  have count := inv.index_perm.length_eq
  rw [List.length_map] at count
  rw [← count]
  simp [size, AList.keys, List.keys]

/-- What callers can see of a registry that satisfies its invariant: the list of
waiting orders, the index and the size describe the same set. -/
structure RegistryConsistent (r : OrderRegistry P) : Prop extends RegistryInvariant r where
  listed : ∀ o, o ∈ r.allWaiting ↔ r.Waits o
  listedOnce : (r.allWaiting.map Order.id).Nodup
  indexed : r.orderSymbolIndex.keys.Perm (r.allWaiting.map Order.id)
  sized : r.size = r.allWaiting.length

theorem RegistryInvariant.consistent (inv : RegistryInvariant r) : RegistryConsistent r where
  toRegistryInvariant := inv
  listed := fun _ => inv.mem_allWaiting
  listedOnce := inv.nodup_allWaiting
  indexed := inv.index_perm
  sized := inv.size_eq

end

/-! ### What a scan takes out -/

section

variable [LE P] [DecidableLE P]

/-- Not expired, started and in its band: a scan releases the order. -/
def Order.isReleasable (o : Order P) (now : Int) (referencePrice : P) : Prop :=
  ¬o.isExpired now ∧ o.isStarted now ∧ o.releaseBandContains referencePrice

instance (o : Order P) (now : Int) (p : P) : Decidable (o.isReleasable now p) := by
  unfold Order.isReleasable
  infer_instance

/-- A scan expires or releases the order. -/
def Order.leaves (o : Order P) (now : Int) (referencePrice : P) : Prop :=
  o.isExpired now ∨ o.isReleasable now referencePrice

instance (o : Order P) (now : Int) (p : P) : Decidable (o.leaves now p) := by
  unfold Order.leaves
  infer_instance

/-- The loop over a bucket, in closed form. -/
theorem scanBucketLocked_eq (now : Int) (p : P) : ∀ (walk : List (Sigma fun _ : Nat => Order P))
    (bucket : Bucket P) (index : Table Nat Symbol) (result : ScanResult P),
    scanBucketLocked now p walk (bucket, index, result)
      = let gone := (walk.filter fun e => e.2.leaves now p).map fun e => e.1
        let orders := walk.map fun e => e.2
        (Table.eraseAll gone bucket, Table.eraseAll gone index,
          ⟨result.released ++ orders.filter (fun o => o.isReleasable now p),
            result.expired ++ orders.filter (fun o => o.isExpired now)⟩)
  | [], bucket, index, result => by simp [scanBucketLocked, Table.eraseAll]
  | ⟨id, o⟩ :: walk, bucket, index, result => by
      rw [scanBucketLocked]
      by_cases expired : o.isExpired now
      · rw [if_pos expired, scanBucketLocked_eq now p walk]
        simp [Order.leaves, Order.isReleasable, expired, Table.eraseAll]
      · rw [if_neg expired]
        by_cases ready : o.isStarted now ∧ o.releaseBandContains p
        · rw [if_pos ready, scanBucketLocked_eq now p walk]
          simp [Order.leaves, Order.isReleasable, expired, ready, Table.eraseAll]
        · rw [if_neg ready, scanBucketLocked_eq now p walk]
          simp [Order.leaves, Order.isReleasable, expired, ready]

variable {order : IterationOrder Nat (Order P)} {now : Int} {p : P} {s : Symbol}
  {r : OrderRegistry P} {result : ScanResult P}

/-- What one symbol's scan adds to the result. -/
theorem scanSymbol_result : (scanSymbol order now p s (r, result)).2
    = ⟨result.released ++ (r.walked order s).filter (fun o => o.isReleasable now p),
        result.expired ++ (r.walked order s).filter (fun o => o.isExpired now)⟩ := by
  unfold scanSymbol walked bucket
  cases look : r.waitingBySymbol.lookup s with
  | none => simp
  | some b => simp [scanBucketLocked_eq]

/-- What was collected before does not matter for the registry. -/
theorem scanSymbol_registry : (scanSymbol order now p s (r, result)).1
    = (scanSymbol order now p s (r, {})).1 := by
  unfold scanSymbol
  cases look : r.waitingBySymbol.lookup s with
  | none => rfl
  | some b => simp [scanBucketLocked_eq]

/-- A bucket that is not scanned. -/
theorem bucket_scanSymbol_ne {t : Symbol} (ne : t ≠ s) :
    (scanSymbol order now p s (r, result)).1.bucket t = r.bucket t := by
  unfold scanSymbol bucket
  cases look : r.waitingBySymbol.lookup s with
  | none => rfl
  | some b => simp [AList.lookup_insert_ne ne]

/-- The ids that the loop over a bucket erases. -/
theorem mem_gone {id : Nat} {b : Bucket P} :
    id ∈ ((order.walk b).filter fun e => e.2.leaves now p).map (fun e => e.1) ↔
      ∃ o, b.lookup id = some o ∧ o.leaves now p := by
  simp only [List.mem_map, List.mem_filter, decide_eq_true_eq]
  constructor
  · rintro ⟨⟨id', o⟩, ⟨mem, leaves⟩, rfl⟩
    exact ⟨o, order.mem_walk.mp mem, leaves⟩
  · rintro ⟨o, look, leaves⟩
    exact ⟨⟨id, o⟩, ⟨order.mem_walk.mpr look, leaves⟩, rfl⟩

/-- The bucket that is scanned. -/
theorem lookup_bucket_scanSymbol (id : Nat) :
    ((scanSymbol order now p s (r, result)).1.bucket s).lookup id
      = ((r.bucket s).lookup id).filter fun o => ¬o.leaves now p := by
  unfold scanSymbol bucket
  cases look : r.waitingBySymbol.lookup s with
  | none => simp [look]
  | some b =>
      simp only [AList.lookup_insert, Option.getD_some, scanBucketLocked_eq, Table.lookup_eraseAll,
        mem_gone]
      cases found : b.lookup id with
      | none => simp
      | some o => by_cases leaves : o.leaves now p <;> simp [Option.filter, leaves]

/-- The index after a scan. -/
theorem lookup_index_scanSymbol (id : Nat) :
    (scanSymbol order now p s (r, result)).1.orderSymbolIndex.lookup id
      = if ∃ o, (r.bucket s).lookup id = some o ∧ o.leaves now p then none
        else r.orderSymbolIndex.lookup id := by
  unfold scanSymbol bucket
  cases look : r.waitingBySymbol.lookup s with
  | none => simp
  | some b => simp only [Option.getD_some, scanBucketLocked_eq, Table.lookup_eraseAll, mem_gone]

theorem RegistryInvariant.scanSymbol (inv : RegistryInvariant r) :
    RegistryInvariant (scanSymbol order now p s (r, result)).1 where
  own := by
    intro t id o h
    by_cases eq : t = s
    · subst eq
      rw [lookup_bucket_scanSymbol, Option.filter_eq_some_iff] at h
      exact inv.own t id o h.1
    · rw [bucket_scanSymbol_ne eq] at h
      exact inv.own t id o h
  index := by
    intro id t
    rw [lookup_index_scanSymbol]
    by_cases eq : t = s
    · subst eq
      rw [lookup_bucket_scanSymbol]
      cases found : (r.bucket t).lookup id with
      | none =>
          have := (inv.index id t).not.mpr (by simp [found])
          simp [this]
      | some o =>
          have known := (inv.index id t).mpr ⟨o, found⟩
          by_cases leaves : o.leaves now p <;> simp [Option.filter, leaves, known]
    · rw [bucket_scanSymbol_ne eq]
      by_cases leaves : ∃ o, (r.bucket s).lookup id = some o ∧ o.leaves now p
      · -- an order that leaves from bucket `s` is not in bucket `t`
        obtain ⟨o, found, gone⟩ := leaves
        have here := (inv.index id s).mpr ⟨o, found⟩
        have absent : ¬∃ o', (r.bucket t).lookup id = some o' := by
          intro there
          have := (inv.index id t).mpr there
          rw [here] at this
          exact eq (Option.some.inj this).symm
        rw [if_pos ⟨o, found, gone⟩]
        exact iff_of_false (by simp) absent
      · rw [if_neg leaves]
        exact inv.index id t

/-! ### Scanning several symbols -/

variable {orders : Symbol → IterationOrder Nat (Order P)} {price : Symbol → P}

theorem scanSymbols_cons (t : Symbol) (ts : List Symbol) :
    scanSymbols orders now price (t :: ts) (r, result)
      = scanSymbols orders now price ts (scanSymbol (orders t) now (price t) t (r, result)) := rfl

theorem RegistryInvariant.scanSymbols : ∀ {symbols : List Symbol} {r : OrderRegistry P}
    {result : ScanResult P}, RegistryInvariant r →
      RegistryInvariant (scanSymbols orders now price symbols (r, result)).1
  | [], _, _, inv => inv
  | s :: symbols, r, result, inv => by
      rw [scanSymbols_cons]
      exact RegistryInvariant.scanSymbols inv.scanSymbol

/-- The buckets after a scan. -/
theorem lookup_bucket_scanSymbols (id : Nat) (t : Symbol) : ∀ {symbols : List Symbol}
    {r : OrderRegistry P} {result : ScanResult P}, symbols.Nodup →
      ((scanSymbols orders now price symbols (r, result)).1.bucket t).lookup id
        = if t ∈ symbols then ((r.bucket t).lookup id).filter fun o => ¬o.leaves now (price t)
          else (r.bucket t).lookup id
  | [], _, _, _ => by simp [scanSymbols]
  | s :: symbols, r, result, distinct => by
      obtain ⟨notMem, rest⟩ := List.nodup_cons.mp distinct
      rw [scanSymbols_cons, lookup_bucket_scanSymbols id t rest]
      by_cases eq : t = s
      · subst eq
        rw [if_neg notMem, lookup_bucket_scanSymbol, if_pos List.mem_cons_self]
      · rw [bucket_scanSymbol_ne eq]
        simp [eq]

/-- What a scan reports, symbol by symbol. -/
theorem scanSymbols_result : ∀ {symbols : List Symbol} {r : OrderRegistry P}
    {result : ScanResult P}, symbols.Nodup →
      (scanSymbols orders now price symbols (r, result)).2
        = ⟨result.released ++ symbols.flatMap (fun s =>
              (r.walked (orders s) s).filter fun o => o.isReleasable now (price s)),
            result.expired ++ symbols.flatMap (fun s =>
              (r.walked (orders s) s).filter fun o => o.isExpired now)⟩
  | [], _, _, _ => by simp [scanSymbols]
  | s :: symbols, r, result, distinct => by
      obtain ⟨notMem, rest⟩ := List.nodup_cons.mp distinct
      have later : ∀ t ∈ symbols, (OrderRegistry.scanSymbol (orders s) now (price s) s
          (r, result)).1.walked (orders t) t = r.walked (orders t) t := by
        intro t ht
        unfold walked
        rw [bucket_scanSymbol_ne fun eq : t = s => notMem (eq ▸ ht)]
      rw [scanSymbols_cons, scanSymbols_result rest, scanSymbol_result]
      simp only [List.flatMap_cons, List.append_assoc]
      congr 3
      · exact List.flatMap_congr fun t ht => by rw [later t ht]
      · exact List.flatMap_congr fun t ht => by rw [later t ht]

/-- A scan leaves what it does not report. -/
theorem RegistryInvariant.waits_scanSymbols {symbols : List Symbol} (distinct : symbols.Nodup)
    {o : Order P} :
    (OrderRegistry.scanSymbols orders now price symbols (r, result)).1.Waits o ↔
      r.Waits o ∧ ¬(o.symbol ∈ symbols ∧ o.leaves now (price o.symbol)) := by
  unfold Waits
  rw [lookup_bucket_scanSymbols _ _ distinct]
  by_cases mem : o.symbol ∈ symbols
  · rw [if_pos mem, Option.filter_eq_some_iff]
    simp [mem]
  · rw [if_neg mem]
    simp [mem]

omit [LE P] [DecidableLE P] in
/-- A filter by the symbol's price is a filter by the order's own price. -/
theorem RegistryInvariant.flatMap_filter (inv : RegistryInvariant r) (symbols : List Symbol)
    (test : Symbol → Order P → Bool) :
    (symbols.flatMap fun s => (r.walked (orders s) s).filter (test s))
      = (symbols.flatMap fun s => r.walked (orders s) s).filter fun o => test o.symbol o := by
  rw [List.filter_flatMap]
  refine List.flatMap_congr fun s _ => List.filter_congr fun o ho => ?_
  rw [(inv.mem_walked.mp ho).2]

/-! ### Exactness -/

/-- A scan of some symbols takes out what has expired and what may be released,
reports it, and keeps the rest. -/
structure ScanExact (r : OrderRegistry P) (scanned : Symbol → Prop) [DecidablePred scanned]
    (now : Int) (price : Symbol → P) (out : OrderRegistry P × ScanResult P) : Prop where
  expired : out.2.expired.Perm
    (r.allWaiting.filter fun o => scanned o.symbol ∧ o.isExpired now)
  released : out.2.released.Perm
    (r.allWaiting.filter fun o => scanned o.symbol ∧ ¬o.isExpired now ∧ o.isStarted now ∧
      o.releaseBandContains (price o.symbol))
  kept : out.1.allWaiting.Perm
    (r.allWaiting.filter fun o => ¬(scanned o.symbol ∧ (o.isExpired now ∨
      ¬o.isExpired now ∧ o.isStarted now ∧ o.releaseBandContains (price o.symbol))))

/-- **A scan is exact** if the symbols it walks are those to be scanned, as far as
orders wait there. -/
theorem RegistryInvariant.scanSymbols_exact (inv : RegistryInvariant r) {symbols : List Symbol}
    (distinct : symbols.Nodup) {scanned : Symbol → Prop} [DecidablePred scanned]
    (cover : ∀ o, r.Waits o → (o.symbol ∈ symbols ↔ scanned o.symbol)) :
    ScanExact r scanned now price
      (OrderRegistry.scanSymbols orders now price symbols (r, {})) := by
  have nodup := List.Nodup.of_map _ inv.nodup_allWaiting
  have nodup' := List.Nodup.of_map _ (inv.nodup_flatMap orders distinct)
  have report : ∀ (test : Symbol → Order P → Prop) [∀ s, DecidablePred (test s)],
      (symbols.flatMap fun s => (r.walked (orders s) s).filter fun o => test s o).Perm
        (r.allWaiting.filter fun o => scanned o.symbol ∧ test o.symbol o) := by
    intro test _
    rw [inv.flatMap_filter symbols fun s o => decide (test s o)]
    refine (List.perm_ext_iff_of_nodup (nodup'.filter _) (nodup.filter _)).mpr fun o => ?_
    rw [List.mem_filter, List.mem_filter, inv.mem_flatMap, inv.mem_allWaiting, decide_eq_true_eq,
      decide_eq_true_eq]
    constructor
    · rintro ⟨⟨waits, mem⟩, holds⟩
      exact ⟨waits, (cover o waits).mp mem, holds⟩
    · rintro ⟨waits, mem, holds⟩
      exact ⟨⟨waits, (cover o waits).mpr mem⟩, holds⟩
  constructor
  · rw [scanSymbols_result distinct]
    exact report fun _ o => o.isExpired now
  · rw [scanSymbols_result distinct]
    exact report fun s o => o.isReleasable now (price s)
  · have inv' : RegistryInvariant (OrderRegistry.scanSymbols orders now price symbols (r, {})).1 :=
      inv.scanSymbols
    refine (List.perm_ext_iff_of_nodup (List.Nodup.of_map _ inv'.nodup_allWaiting)
      (nodup.filter _)).mpr fun o => ?_
    rw [inv'.mem_allWaiting, RegistryInvariant.waits_scanSymbols distinct, List.mem_filter,
      inv.mem_allWaiting, decide_eq_true_eq]
    refine and_congr_right fun waits => ?_
    rw [cover o waits]
    rfl

end

end StockMarket
