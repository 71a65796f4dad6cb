import StockMarket.Registry.Scan

/-!
The waiting registry over whole runs.

A run is a sequence of calls: each call holds the mutex throughout, so every
interleaving of concurrent calls is one. `RegistryHistory` records next to the
registry what the callers saw. `registry_exactly_once` says that after every run
the index and the buckets agree, that every order added is waiting or was
released, expired or cancelled, exactly one of these and once, and that the next
scan takes out exactly what it should.
-/

namespace StockMarket

open OrderRegistry
open scoped List

variable {P : Type}

/-! ### Adding -/

section

variable {r : OrderRegistry P} {o : Order P}

theorem lookup_bucket_add (id : Nat) (s : Symbol) :
    ((r.add o).bucket s).lookup id
      = if s = o.symbol ∧ id = o.id then some (((r.bucket s).lookup id).getD o)
        else (r.bucket s).lookup id := by
  unfold bucket add
  by_cases eq : s = o.symbol
  · subst eq
    rw [Table.lookup_update, Option.getD_some]
    by_cases same : id = o.id
    · subst same
      rw [Table.lookup_tryEmplace_self, if_pos ⟨rfl, rfl⟩]
    · rw [Table.lookup_tryEmplace_ne same, if_neg fun h => same h.2]
  · rw [Table.lookup_update_ne eq, if_neg fun h => eq h.1]

theorem lookup_index_add (id : Nat) :
    (r.add o).orderSymbolIndex.lookup id
      = if id = o.id then some ((r.orderSymbolIndex.lookup id).getD o.symbol)
        else r.orderSymbolIndex.lookup id := by
  unfold add
  by_cases same : id = o.id
  · subst same
    rw [Table.lookup_tryEmplace_self, if_pos rfl]
  · rw [Table.lookup_tryEmplace_ne same, if_neg same]

/-- A new id is in no bucket and not in the index. -/
theorem RegistryInvariant.absent (inv : RegistryInvariant r)
    (fresh : ∀ w, r.Waits w → w.id ≠ o.id) :
    (∀ s, (r.bucket s).lookup o.id = none) ∧ r.orderSymbolIndex.lookup o.id = none := by
  constructor
  · intro s
    cases found : (r.bucket s).lookup o.id with
    | none => rfl
    | some w => exact absurd (inv.waits.mp found).2.1 (fresh w (inv.waits.mp found).1)
  · rw [AList.lookup_eq_none, inv.mem_index]
    rintro ⟨w, waits, same⟩
    exact fresh w waits same

theorem RegistryInvariant.add (inv : RegistryInvariant r) (fresh : ∀ w, r.Waits w → w.id ≠ o.id) :
    RegistryInvariant (r.add o) where
  own := by
    intro s id w h
    rw [lookup_bucket_add] at h
    by_cases new : s = o.symbol ∧ id = o.id
    · obtain ⟨rfl, rfl⟩ := new
      rw [if_pos ⟨rfl, rfl⟩, (inv.absent fresh).1, Option.getD_none] at h
      cases h
      exact ⟨rfl, rfl⟩
    · rw [if_neg new] at h
      exact inv.own s id w h
  index := by
    intro id s
    rw [lookup_index_add, lookup_bucket_add]
    by_cases same : id = o.id
    · subst same
      rw [if_pos rfl, (inv.absent fresh).2, (inv.absent fresh).1, Option.getD_none]
      by_cases eq : s = o.symbol
      · simp [eq]
      · simp [eq, Ne.symm eq]
    · rw [if_neg same, if_neg fun h => same h.2]
      exact inv.index id s

theorem RegistryInvariant.waits_add (inv : RegistryInvariant r)
    (fresh : ∀ w, r.Waits w → w.id ≠ o.id) {w : Order P} : (r.add o).Waits w ↔ w = o ∨ r.Waits w := by
  unfold Waits
  rw [lookup_bucket_add]
  by_cases new : w.symbol = o.symbol ∧ w.id = o.id
  · rw [if_pos new, new.2, (inv.absent fresh).1, Option.getD_none, Option.some_inj]
    simp [eq_comm]
  · rw [if_neg new]
    constructor
    · exact .inr
    · rintro (rfl | h)
      · exact absurd ⟨rfl, rfl⟩ new
      · exact h

/-- `add` adds no other order, whatever waits already. -/
theorem waits_of_add {w : Order P} (waits : (r.add o).Waits w) : w = o ∨ r.Waits w := by
  unfold Waits at waits ⊢
  rw [lookup_bucket_add] at waits
  by_cases new : w.symbol = o.symbol ∧ w.id = o.id
  · rw [if_pos new, Option.some_inj] at waits
    cases known : (r.bucket w.symbol).lookup w.id with
    | none =>
        rw [known, Option.getD_none] at waits
        exact .inl waits.symm
    | some w' =>
        rw [known, Option.getD_some] at waits
        exact .inr (congrArg some waits)
  · rw [if_neg new] at waits
    exact .inr waits

/-- `add` adds the order and nothing else. -/
theorem RegistryInvariant.allWaiting_add (inv : RegistryInvariant r)
    (fresh : ∀ w, r.Waits w → w.id ≠ o.id) : (r.add o).allWaiting.Perm (o :: r.allWaiting) := by
  have old := List.Nodup.of_map _ inv.nodup_allWaiting
  have new := List.Nodup.of_map _ (inv.add fresh).nodup_allWaiting
  have notMem : o ∉ r.allWaiting := fun mem => fresh o (inv.mem_allWaiting.mp mem) rfl
  refine (List.perm_ext_iff_of_nodup new (List.nodup_cons.mpr ⟨notMem, old⟩)).mpr fun w => ?_
  rw [(inv.add fresh).mem_allWaiting, inv.waits_add fresh, List.mem_cons, inv.mem_allWaiting]

/-! ### Cancelling -/

/-- A cancellation that finds nothing. -/
theorem cancel_of_absent {id : Nat} (absent : r.orderSymbolIndex.lookup id = none) :
    r.cancel id = (false, r) := by
  unfold cancel
  rw [absent]

/-- A cancellation that finds the order erases it from its bucket and the index. -/
theorem RegistryInvariant.cancel_eq (inv : RegistryInvariant r) (waits : r.Waits o) :
    r.cancel o.id = (true,
      { waitingBySymbol :=
          r.waitingBySymbol.insert o.symbol ((r.bucket o.symbol).erase o.id)
        orderSymbolIndex := r.orderSymbolIndex.erase o.id }) := by
  have known := (inv.index o.id o.symbol).mpr ⟨o, waits⟩
  unfold cancel bucket
  rw [known]
  cases look : r.waitingBySymbol.lookup o.symbol with
  | none =>
      unfold Waits bucket at waits
      rw [look] at waits
      cases waits
  | some b => simp [look]

theorem RegistryInvariant.lookup_bucket_cancel (inv : RegistryInvariant r) (waits : r.Waits o)
    (id : Nat) (s : Symbol) :
    ((r.cancel o.id).2.bucket s).lookup id
      = if s = o.symbol ∧ id = o.id then none else (r.bucket s).lookup id := by
  rw [inv.cancel_eq waits]
  by_cases eq : s = o.symbol
  · subst eq
    have here : (r.waitingBySymbol.insert o.symbol ((r.bucket o.symbol).erase o.id)).lookup o.symbol
        = some ((r.bucket o.symbol).erase o.id) := AList.lookup_insert _
    rw [bucket, here, Option.getD_some]
    by_cases same : id = o.id
    · subst same
      rw [AList.lookup_erase, if_pos ⟨rfl, rfl⟩]
    · rw [AList.lookup_erase_ne same, if_neg fun h => same h.2]
  · have there : (r.waitingBySymbol.insert o.symbol ((r.bucket o.symbol).erase o.id)).lookup s
        = r.waitingBySymbol.lookup s := AList.lookup_insert_ne eq
    rw [bucket, there, if_neg fun h => eq h.1]
    rfl

theorem RegistryInvariant.cancel (inv : RegistryInvariant r) (id : Nat) :
    RegistryInvariant (r.cancel id).2 := by
  by_cases found : ∃ o, r.Waits o ∧ o.id = id
  · obtain ⟨o, waits, rfl⟩ := found
    constructor
    · intro s id w h
      rw [inv.lookup_bucket_cancel waits] at h
      by_cases gone : s = o.symbol ∧ id = o.id
      · rw [if_pos gone] at h
        cases h
      · rw [if_neg gone] at h
        exact inv.own s id w h
    · intro id s
      rw [inv.lookup_bucket_cancel waits, inv.cancel_eq waits]
      by_cases same : id = o.id
      · subst same
        rw [AList.lookup_erase]
        by_cases eq : s = o.symbol
        · simp [eq]
        · -- an id is in one bucket only
          have other : ¬∃ w, (r.bucket s).lookup o.id = some w := by
            rintro ⟨w, hw⟩
            have := inv.unique (inv.waits.mp hw).1 waits (inv.waits.mp hw).2.1
            exact eq (this ▸ (inv.waits.mp hw).2.2.symm)
          rw [if_neg fun h => eq h.1]
          exact iff_of_false (by simp) other
      · rw [AList.lookup_erase_ne same, if_neg fun h => same h.2]
        exact inv.index id s
  · rw [← inv.mem_index, ← AList.lookup_eq_none] at found
    rw [cancel_of_absent found]
    exact inv

/-- A confirmed cancellation takes out the order of that id and nothing else. -/
theorem RegistryInvariant.allWaiting_cancel (inv : RegistryInvariant r) (waits : r.Waits o) :
    r.allWaiting.Perm (o :: (r.cancel o.id).2.allWaiting) := by
  have old := List.Nodup.of_map _ inv.nodup_allWaiting
  have new := List.Nodup.of_map _ (inv.cancel o.id).nodup_allWaiting
  have left : ∀ w, (r.cancel o.id).2.Waits w ↔ r.Waits w ∧ w.id ≠ o.id := by
    intro w
    unfold Waits
    rw [inv.lookup_bucket_cancel waits]
    by_cases same : w.id = o.id
    · have : ¬r.Waits w ∨ w = o := by
        by_cases h : r.Waits w
        · exact .inr (inv.unique h waits same)
        · exact .inl h
      rcases this with h | rfl
      · by_cases eq : w.symbol = o.symbol
        · simp [eq, same]
        · rw [if_neg fun h => eq h.1]
          exact iff_of_false h fun h' => h h'.1
      · simp
    · simp [same]
  have notMem : o ∉ (r.cancel o.id).2.allWaiting := fun mem =>
    ((left o).mp ((inv.cancel o.id).mem_allWaiting.mp mem)).2 rfl
  refine (List.perm_ext_iff_of_nodup old (List.nodup_cons.mpr ⟨notMem, new⟩)).mpr fun w => ?_
  rw [inv.mem_allWaiting, List.mem_cons, (inv.cancel o.id).mem_allWaiting, left]
  constructor
  · intro h
    by_cases same : w.id = o.id
    · exact .inl (inv.unique h waits same)
    · exact .inr ⟨h, same⟩
  · rintro (rfl | ⟨h, -⟩)
    · exact waits
    · exact h

/-- What waits after a cancellation waited before. -/
theorem RegistryInvariant.cancel_subset (inv : RegistryInvariant r) (id : Nat) :
    (r.cancel id).2.allWaiting ⊆ r.allWaiting := by
  by_cases found : ∃ w, r.Waits w ∧ w.id = id
  · obtain ⟨w, waits, rfl⟩ := found
    intro o mem
    exact (inv.allWaiting_cancel waits).mem_iff.mpr (List.mem_cons_of_mem _ mem)
  · rw [← inv.mem_index, ← AList.lookup_eq_none] at found
    rw [cancel_of_absent found]
    exact List.Subset.refl _

/-- Waiting orders after a new one. -/
theorem RegistryInvariant.size_add {o : Order P} (inv : RegistryInvariant r)
    (fresh : ∀ w, r.Waits w → w.id ≠ o.id) : (r.add o).size = r.size + 1 := by
  rw [(inv.add fresh).size_eq, inv.size_eq, (inv.allWaiting_add fresh).length_eq,
    List.length_cons]

/-- Waiting orders after a cancellation. -/
theorem RegistryInvariant.size_cancel (inv : RegistryInvariant r) (id : Nat) :
    (r.cancel id).2.size + (if (r.cancel id).1 then 1 else 0) = r.size := by
  cases known : r.orderSymbolIndex.lookup id with
  | none => simp [cancel_of_absent known]
  | some s =>
      obtain ⟨o, waits, rfl⟩ := inv.mem_index.mp (AList.lookup_isSome.mp (by rw [known]; rfl))
      have found : (r.cancel o.id).1 = true := by rw [inv.cancel_eq waits]
      have left := (inv.allWaiting_cancel waits).length_eq
      rw [if_pos found, (inv.cancel o.id).size_eq, inv.size_eq, left, List.length_cons]

end

/-! ### Runs -/

section

variable [LE P] [DecidableLE P]

/-- An exact scan splits the waiting orders into released, expired and kept ones. -/
theorem ScanExact.split {r : OrderRegistry P} {scanned : Symbol → Prop} [DecidablePred scanned]
    {now : Int} {price : Symbol → P} {out : OrderRegistry P × ScanResult P}
    (exact' : ScanExact r scanned now price out) :
    r.allWaiting.Perm (out.1.allWaiting ++ (out.2.released ++ out.2.expired)) := by
  have outer := List.filter_append_perm (fun o : Order P => !decide (scanned o.symbol ∧
    (o.isExpired now ∨ ¬o.isExpired now ∧ o.isStarted now ∧
      o.releaseBandContains (price o.symbol)))) r.allWaiting
  refine outer.symm.trans (List.Perm.append ?_ ?_)
  · refine List.Perm.trans (List.Perm.of_eq ?_) exact'.kept.symm
    exact List.filter_congr fun o _ => decide_not.symm
  · have inner := List.filter_append_perm (fun o : Order P => !decide (o.isExpired now))
      (r.allWaiting.filter fun o => !!decide (scanned o.symbol ∧
        (o.isExpired now ∨ ¬o.isExpired now ∧ o.isStarted now ∧
          o.releaseBandContains (price o.symbol))))
    refine inner.symm.trans (List.Perm.append ?_ ?_)
    · rw [List.filter_filter]
      refine List.Perm.trans (List.Perm.of_eq ?_) exact'.released.symm
      refine List.filter_congr fun o _ => ?_
      by_cases expired : o.isExpired now <;> simp [expired]
    · rw [List.filter_filter]
      refine List.Perm.trans (List.Perm.of_eq ?_) exact'.expired.symm
      refine List.filter_congr fun o _ => ?_
      by_cases expired : o.isExpired now <;> simp [expired]

/-- Waiting orders after a scan. -/
theorem RegistryInvariant.size_scanSymbol {r : OrderRegistry P} (inv : RegistryInvariant r)
    (order : IterationOrder Nat (Order P)) (now : Int) (p : P) (s : Symbol)
    (result : ScanResult P) :
    let out := OrderRegistry.scanSymbol order now p s (r, result)
    out.1.size + out.2.released.length + out.2.expired.length
      = r.size + result.released.length + result.expired.length := by
  intro out
  have split := (inv.scanSymbols_exact (List.nodup_singleton s) fun _ _ =>
    List.mem_singleton : ScanExact r (· = s) now (fun _ => p)
      (OrderRegistry.scanSymbols (fun _ => order) now (fun _ => p) [s] (r, {}))).split
  have scan : OrderRegistry.scanSymbols (fun _ => order) now (fun _ => p) [s] (r, {})
      = OrderRegistry.scanSymbol order now p s (r, {}) := rfl
  rw [scan] at split
  have inv' : RegistryInvariant (OrderRegistry.scanSymbol order now p s (r, {})).1 := inv.scanSymbol
  have registry : out.1 = (OrderRegistry.scanSymbol order now p s (r, {})).1 := scanSymbol_registry
  have count := split.length_eq
  rw [List.length_append, List.length_append, ← inv.size_eq, ← inv'.size_eq, scanSymbol_result]
    at count
  rw [registry, scanSymbol_result]
  simp only [List.length_append, List.nil_append] at count ⊢
  omega

/-- A call on the registry. -/
inductive RegistryCall (P : Type) where
  | add (order : Order P)
  | cancel (id : Nat)
  | scanSymbol (order : ScanOrder P) (symbol : Symbol) (now : Int) (price : Symbol → P)
  | scanAll (order : ScanOrder P) (now : Int) (price : Symbol → P)

/-- The order a call adds. -/
def RegistryCall.added : RegistryCall P → Option (Order P)
  | .add order => some order
  | _ => none

/-- A registry with what its callers saw: the orders they added, the orders that
scans reported, and the ids whose cancellation was confirmed. -/
structure RegistryHistory (P : Type) where
  registry : OrderRegistry P := {}
  added : List (Order P) := []
  released : List (Order P) := []
  expired : List (Order P) := []
  cancelled : List Nat := []

namespace RegistryHistory

/-- A scan's outcome in the history. -/
def record (h : RegistryHistory P) (out : OrderRegistry P × ScanResult P) : RegistryHistory P :=
  { h with
    registry := out.1
    released := h.released ++ out.2.released
    expired := h.expired ++ out.2.expired }

/-- One call. -/
def call (h : RegistryHistory P) : RegistryCall P → RegistryHistory P
  | .add order => { h with registry := h.registry.add order, added := h.added ++ [order] }
  | .cancel id =>
    let (found, registry) := h.registry.cancel id
    { h with registry, cancelled := if found then h.cancelled ++ [id] else h.cancelled }
  | .scanSymbol order symbol now price =>
    h.record (h.registry.scanAndReleaseSymbol order symbol now price)
  | .scanAll order now price => h.record (h.registry.scanAndRelease order now price)

/-- A sequence of calls. -/
def run (h : RegistryHistory P) (calls : List (RegistryCall P)) : RegistryHistory P :=
  calls.foldl call h

end RegistryHistory

/-- Every order added is in exactly one of the four states, once: the ids of the
waiting, the released, the expired and the cancelled orders are together those
of the added orders, and these are distinct. -/
structure ExactlyOnce (h : RegistryHistory P) : Prop where
  distinct : (h.added.map Order.id).Nodup
  accounted : (h.registry.allWaiting.map Order.id ++
    ((h.released ++ h.expired).map Order.id ++ h.cancelled)).Perm (h.added.map Order.id)
  unchanged : ∀ o, o ∈ h.registry.allWaiting ∨ o ∈ h.released ∨ o ∈ h.expired → o ∈ h.added

section

variable {h : RegistryHistory P}

theorem ExactlyOnce.record {scanned : Symbol → Prop} [DecidablePred scanned] {now : Int}
    {price : Symbol → P} {out : OrderRegistry P × ScanResult P} (once : ExactlyOnce h)
    (exact' : ScanExact h.registry scanned now price out) : ExactlyOnce (h.record out) where
  distinct := once.distinct
  accounted := by
    refine List.Perm.trans ?_ once.accounted
    have split := (exact'.split.map Order.id).symm
    simp only [RegistryHistory.record, List.map_append] at split ⊢
    have moved : ((h.released.map Order.id ++ out.2.released.map Order.id) ++
        (h.expired.map Order.id ++ out.2.expired.map Order.id)).Perm
        ((out.2.released.map Order.id ++ out.2.expired.map Order.id) ++
          (h.released.map Order.id ++ h.expired.map Order.id)) := by
      rw [List.perm_iff_count]
      intro id
      simp only [List.count_append]
      omega
    calc _
      _ ~ out.1.allWaiting.map Order.id ++ (((out.2.released.map Order.id ++
            out.2.expired.map Order.id) ++ (h.released.map Order.id ++
            h.expired.map Order.id)) ++ h.cancelled) := (moved.append_right _).append_left _
      _ = (out.1.allWaiting.map Order.id ++ (out.2.released.map Order.id ++
            out.2.expired.map Order.id)) ++ ((h.released.map Order.id ++
            h.expired.map Order.id) ++ h.cancelled) := by simp only [List.append_assoc]
      _ ~ _ := split.append_right _
  unchanged := by
    intro o mem
    have inside : ∀ o', o' ∈ out.1.allWaiting ++ (out.2.released ++ out.2.expired) →
        o' ∈ h.added := fun o' mem' => once.unchanged o' (.inl (exact'.split.mem_iff.mpr mem'))
    simp only [RegistryHistory.record, List.mem_append] at mem inside
    rcases mem with mem | (mem | mem) | (mem | mem)
    · exact inside o (.inl mem)
    · exact once.unchanged o (.inr (.inl mem))
    · exact inside o (.inr (.inl mem))
    · exact once.unchanged o (.inr (.inr mem))
    · exact inside o (.inr (.inr mem))

/-- A scan of one symbol is exact for that symbol. -/
theorem RegistryInvariant.scanAndReleaseSymbol_exact {r : OrderRegistry P}
    (inv : RegistryInvariant r) (order : ScanOrder P) (symbol : Symbol) (now : Int)
    (price : Symbol → P) :
    ScanExact r (· = symbol) now price (r.scanAndReleaseSymbol order symbol now price) := by
  have alone : ScanExact r (· = symbol) now price
      (OrderRegistry.scanSymbols order.bucket now price [symbol] (r, {})) :=
    inv.scanSymbols_exact (List.nodup_singleton symbol) fun _ _ => List.mem_singleton
  exact alone

/-- A scan of all symbols is exact. -/
theorem RegistryInvariant.scanAndRelease_exact {r : OrderRegistry P} (inv : RegistryInvariant r)
    (order : ScanOrder P) (now : Int) (price : Symbol → P) :
    ScanExact r (fun _ => True) now price (r.scanAndRelease order now price) := by
  refine inv.scanSymbols_exact (order.symbols.nodup_keys _) fun o waits => iff_true_intro ?_
  exact ((order.symbols.perm _).map _).mem_iff.mpr (mem_symbols_of_waits waits)

/-- **One call keeps the registry consistent and every order accounted for.** -/
theorem RegistryInvariant.call {c : RegistryCall P} (inv : RegistryInvariant h.registry)
    (once : ExactlyOnce h) (fresh : ∀ o, c.added = some o → ∀ a ∈ h.added, a.id ≠ o.id) :
    RegistryInvariant (h.call c).registry ∧ ExactlyOnce (h.call c) := by
  cases c with
  | add order =>
      have new : ∀ w, h.registry.Waits w → w.id ≠ order.id := fun w waits =>
        fresh order rfl w (once.unchanged w (.inl (inv.mem_allWaiting.mpr waits)))
      refine ⟨inv.add new, ⟨?_, ?_, ?_⟩⟩
      · rw [RegistryHistory.call, List.map_append, List.nodup_append]
        refine ⟨once.distinct, List.nodup_singleton _, fun id hid id' hid' => ?_⟩
        obtain ⟨a, ha, rfl⟩ := List.mem_map.mp hid
        rw [List.mem_singleton.mp hid']
        exact fresh order rfl a ha
      · have waiting := (inv.allWaiting_add new).map Order.id
        have added : ((h.added ++ [order]).map Order.id).Perm (order.id ::
            h.added.map Order.id) := by
          rw [List.map_append]
          exact List.perm_append_singleton _ _
        exact (waiting.append_right _).trans ((once.accounted.cons order.id).trans added.symm)
      · intro o mem
        rcases mem with mem | mem
        · rcases List.mem_cons.mp ((inv.allWaiting_add new).mem_iff.mp mem) with rfl | old
          · exact List.mem_append_right _ (List.mem_singleton.mpr rfl)
          · exact List.mem_append_left _ (once.unchanged o (.inl old))
        · exact List.mem_append_left _ (once.unchanged o (.inr mem))
  | cancel id =>
      by_cases found : ∃ o, h.registry.Waits o ∧ o.id = id
      · obtain ⟨o, waits, rfl⟩ := found
        have confirmed : (h.registry.cancel o.id).1 = true := by rw [inv.cancel_eq waits]
        have taken := inv.allWaiting_cancel waits
        refine ⟨inv.cancel o.id, ⟨once.distinct, ?_, ?_⟩⟩
        · refine List.Perm.trans ?_ once.accounted
          simp only [RegistryHistory.call, confirmed, if_true]
          rw [List.perm_iff_count]
          intro id
          have count := (taken.map Order.id).count_eq id
          simp only [List.map_cons, List.count_append, List.count_cons, List.count_nil] at count ⊢
          omega
        · intro p mem
          rcases mem with mem | mem
          · exact once.unchanged p (.inl (taken.mem_iff.mpr (List.mem_cons_of_mem _ mem)))
          · exact once.unchanged p (.inr mem)
      · rw [← inv.mem_index, ← AList.lookup_eq_none] at found
        rw [RegistryHistory.call, cancel_of_absent found]
        exact ⟨inv, once⟩
  | scanSymbol order symbol now price =>
      exact ⟨inv.scanSymbol, once.record (inv.scanAndReleaseSymbol_exact order symbol now price)⟩
  | scanAll order now price =>
      exact ⟨inv.scanSymbols, once.record (inv.scanAndRelease_exact order now price)⟩

theorem RegistryHistory.call_added (h : RegistryHistory P) (c : RegistryCall P) :
    (h.call c).added = h.added ++ c.added.toList := by
  cases c with
  | add order => rfl
  | cancel id => exact (List.append_nil _).symm
  | scanSymbol order symbol now price => exact (List.append_nil _).symm
  | scanAll order now price => exact (List.append_nil _).symm

/-- The run lemma: from any accounted state, with new ids only. -/
theorem RegistryInvariant.run : ∀ {calls : List (RegistryCall P)} {h : RegistryHistory P},
    RegistryInvariant h.registry → ExactlyOnce h →
    ((h.added ++ calls.filterMap RegistryCall.added).map Order.id).Nodup →
    RegistryInvariant (h.run calls).registry ∧ ExactlyOnce (h.run calls) ∧
      (h.run calls).added = h.added ++ calls.filterMap RegistryCall.added
  | [], h, inv, once, _ => ⟨inv, once, (List.append_nil _).symm⟩
  | c :: calls, h, inv, once, distinct => by
      have step : h.added ++ (c :: calls).filterMap RegistryCall.added
          = (h.call c).added ++ calls.filterMap RegistryCall.added := by
        rw [RegistryHistory.call_added, List.append_assoc, List.filterMap_cons]
        cases c.added <;> rfl
      have fresh : ∀ o, c.added = some o → ∀ a ∈ h.added, a.id ≠ o.id := by
        intro o ho a ha same
        rw [List.map_append, List.nodup_append] at distinct
        refine distinct.2.2 a.id (List.mem_map_of_mem ha) o.id ?_ same
        rw [List.filterMap_cons, ho]
        exact List.mem_map_of_mem List.mem_cons_self
      obtain ⟨inv', once'⟩ := inv.call once fresh
      rw [step] at distinct ⊢
      exact RegistryInvariant.run inv' once' distinct

end

/-- **The registry is consistent and every order is accounted for exactly once**,
after every sequence of calls in which the added orders have distinct ids; and
whatever scan comes next is exact. -/
theorem registry_exactly_once (calls : List (RegistryCall P))
    (fresh : ((calls.filterMap RegistryCall.added).map Order.id).Nodup) :
    let h := RegistryHistory.run {} calls
    RegistryConsistent h.registry ∧
      h.added = calls.filterMap RegistryCall.added ∧ ExactlyOnce h ∧
      (∀ order symbol now price, ScanExact h.registry (· = symbol) now price
        (h.registry.scanAndReleaseSymbol order symbol now price)) ∧
      (∀ order now price, ScanExact h.registry (fun _ => True) now price
        (h.registry.scanAndRelease order now price)) := by
  intro h
  have none : ExactlyOnce ({} : RegistryHistory P) := by
    refine ⟨List.nodup_nil, List.Perm.refl _, fun o mem => ?_⟩
    rcases mem with mem | mem | mem <;> cases mem
  obtain ⟨inv, once, added⟩ := RegistryInvariant.run RegistryInvariant.empty none fresh
  exact ⟨inv.consistent, added, once, inv.scanAndReleaseSymbol_exact, inv.scanAndRelease_exact⟩

end

/-- A waiting STOP order: released from the trigger price on. -/
def waitingStop (id : Nat) (symbol : Symbol) (trigger : Int) (expiresAt : Option Int) :
    Order Int where
  id := id
  client := 1
  side := .buy
  kind := .stop
  symbol := symbol
  quantity := 10
  price := trigger
  releaseLower := some trigger
  releaseUpper := none
  submittedAt := 0
  notBefore := none
  expiresAt := expiresAt

/-- One order is released, one expires, one is cancelled and one goes on waiting. -/
def fourFates : List (RegistryCall Int) :=
  let stored : ScanOrder Int := ⟨IterationOrder.stored, fun _ => IterationOrder.stored⟩
  [.add (waitingStop 1 "AAPL" 90 none), .add (waitingStop 2 "AAPL" 200 (some 5)),
    .add (waitingStop 3 "AAPL" 300 none), .add (waitingStop 4 "MSFT" 300 none), .cancel 4,
    .scanSymbol stored "AAPL" 5 fun _ => 100]

theorem registry_exactly_once_fourFates :
    let h := RegistryHistory.run {} fourFates
    RegistryConsistent h.registry ∧
      h.added = fourFates.filterMap RegistryCall.added ∧ ExactlyOnce h ∧
      (∀ order symbol now price, ScanExact h.registry (· = symbol) now price
        (h.registry.scanAndReleaseSymbol order symbol now price)) ∧
      (∀ order now price, ScanExact h.registry (fun _ => True) now price
        (h.registry.scanAndRelease order now price)) :=
  registry_exactly_once fourFates (by decide)

/-- The four fates, evaluated. -/
example : let h := RegistryHistory.run {} fourFates
    (h.released.map Order.id, h.expired.map Order.id, h.cancelled,
      h.registry.allWaiting.map Order.id) = ([1], [2], [4], [3]) := by
  decide

end StockMarket
