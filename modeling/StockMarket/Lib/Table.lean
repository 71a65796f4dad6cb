import Mathlib.Algebra.BigOperators.Group.List.Basic
import Mathlib.Data.List.AList

/-!
Finite tables with unique keys, and the sum of a measure over a table.

A `Table K V` is Mathlib's `AList` with values of one type. What is added here
is the update `m[k] = f(m[k])` that creates an absent key with a default value
(`Table.update`), and how a sum over all values changes under insertion, update
and erasure (`sumBy_insert`, `sumBy_update`, `sumBy_erase`). The sums are
stated additively, so they hold in every commutative monoid. Code that iterates
over a hash table takes an `IterationOrder`.
-/

namespace StockMarket

/-- A finite table: entries in some order, no key twice. -/
abbrev Table (K V : Type) := AList fun _ : K => V

namespace Table

variable {K V M : Type} [DecidableEq K]

/-- `m[k] = f(m[k])`, where an absent key first gets the value `d`. -/
def update (k : K) (d : V) (f : V → V) (t : Table K V) : Table K V :=
  t.insert k (f ((t.lookup k).getD d))

@[simp] theorem lookup_update (k : K) (d : V) (f : V → V) (t : Table K V) :
    AList.lookup k (update k d f t) = some (f ((t.lookup k).getD d)) :=
  AList.lookup_insert t

theorem lookup_update_ne {k k' : K} (ne : k' ≠ k) (d : V) (f : V → V) (t : Table K V) :
    AList.lookup k' (update k d f t) = t.lookup k' :=
  AList.lookup_insert_ne ne

/-- `try_emplace`: an entry that exists is kept. -/
def tryEmplace (k : K) (v : V) (t : Table K V) : Table K V :=
  if k ∈ t then t else t.insert k v

theorem lookup_tryEmplace_self (k : K) (v : V) (t : Table K V) :
    AList.lookup k (tryEmplace k v t) = some ((t.lookup k).getD v) := by
  unfold tryEmplace
  by_cases mem : k ∈ t
  · obtain ⟨v', hv'⟩ := Option.isSome_iff_exists.mp (AList.lookup_isSome.mpr mem)
    rw [if_pos mem, hv', Option.getD_some]
  · rw [if_neg mem, AList.lookup_insert, AList.lookup_eq_none.mpr mem, Option.getD_none]

theorem lookup_tryEmplace_ne {k k' : K} (ne : k' ≠ k) (v : V) (t : Table K V) :
    AList.lookup k' (tryEmplace k v t) = t.lookup k' := by
  unfold tryEmplace
  split
  · rfl
  · exact AList.lookup_insert_ne ne

/-- `m[k] = f(m[k])` on the lookups of a table. -/
def touch (k : K) (d : V) (f : V → V) (m : K → Option V) : K → Option V :=
  Function.update m k (some (f ((m k).getD d)))

theorem lookup_update_eq_touch (k : K) (d : V) (f : V → V) (t : Table K V) (k' : K) :
    AList.lookup k' (update k d f t) = touch k d f (fun k => t.lookup k) k' := by
  unfold touch
  by_cases eq : k' = k
  · subst eq
    rw [lookup_update, Function.update_self]
  · rw [lookup_update_ne eq, Function.update_of_ne eq]

/-- Items counted into a table: what is found at a key is the fold of its own items. -/
theorem lookup_foldl_update {α : Type} (key : α → K) (d : V) (f : α → V → V) (k : K) :
    ∀ (items : List α) (t : Table K V),
      (AList.lookup k (items.foldl (fun t a => update (key a) d (f a) t) t)).getD d
        = (items.filter fun a => key a = k).foldl (fun v a => f a v) ((t.lookup k).getD d)
  | [], _ => rfl
  | a :: items, t => by
      rw [List.foldl_cons, lookup_foldl_update key d f k items]
      by_cases own : key a = k
      · rw [List.filter_cons_of_pos (by simpa using own), List.foldl_cons, ← own, lookup_update,
          Option.getD_some]
      · rw [List.filter_cons_of_neg (by simpa using own), lookup_update_ne (Ne.symm own)]

/-- Two updates may be swapped if their functions may. -/
theorem touch_comm {d : V} {f f' : V → V} (swap : ∀ v, f (f' v) = f' (f v)) (k k' : K)
    (m : K → Option V) : touch k d f (touch k' d f' m) = touch k' d f' (touch k d f m) := by
  unfold touch
  by_cases eq : k = k'
  · subst eq
    simp only [Function.update_self, Option.getD_some, Function.update_idem, swap]
  · rw [Function.update_of_ne eq, Function.update_of_ne (Ne.symm eq), Function.update_comm eq]

/-- Erase several keys. -/
def eraseAll (ks : List K) (t : Table K V) : Table K V :=
  ks.foldl (fun t k => t.erase k) t

theorem lookup_eraseAll (k : K) : ∀ (ks : List K) (t : Table K V),
    AList.lookup k (eraseAll ks t) = if k ∈ ks then none else t.lookup k
  | [], t => by simp [eraseAll]
  | k' :: ks, t => by
      have ih := lookup_eraseAll k ks (t.erase k')
      by_cases eq : k = k'
      · subst eq
        simp [eraseAll, AList.lookup_erase] at ih ⊢
        exact ih
      · rw [AList.lookup_erase_ne eq] at ih
        simpa [eraseAll, eq] using ih

/-- Insert several entries, one after the other. -/
def insertAll (es : List (Sigma fun _ : K => V)) (t : Table K V) : Table K V :=
  es.foldl (fun t e => t.insert e.1 e.2) t

/-- What is found after entries with different keys were inserted. -/
theorem lookup_insertAll_iff {es : List (Sigma fun _ : K => V)} (nodup : (es.map Sigma.fst).Nodup)
    {k : K} {v : V} : ∀ t : Table K V, AList.lookup k (insertAll es t) = some v ↔
      ⟨k, v⟩ ∈ es ∨ k ∉ es.map Sigma.fst ∧ t.lookup k = some v := by
  induction es with
  | nil => simp [insertAll]
  | cons e es ih =>
      intro t
      obtain ⟨k', v'⟩ := e
      rw [List.map_cons, List.nodup_cons] at nodup
      have step : AList.lookup k (insertAll (⟨k', v'⟩ :: es) t) = some v ↔ _ :=
        ih nodup.2 (t.insert k' v')
      rw [step, List.mem_cons, List.map_cons, List.mem_cons]
      by_cases eq : k = k'
      · subst eq
        have later : (⟨k, v⟩ : Sigma fun _ : K => V) ∉ es := fun mem =>
          nodup.1 (List.mem_map.mpr ⟨_, mem, rfl⟩)
        simp [nodup.1, later, eq_comm]
      · simp [eq, AList.lookup_insert_ne eq]

theorem lookup_insertAll {es : List (Sigma fun _ : K => V)} (nodup : (es.map Sigma.fst).Nodup)
    {k : K} {v : V} : AList.lookup k (insertAll es ∅) = some v ↔ ⟨k, v⟩ ∈ es := by
  rw [lookup_insertAll_iff nodup]
  exact or_iff_left fun none => absurd none.2 (by simp)

/-- The values of a table, in some order. -/
def values (t : Table K V) : List V :=
  t.entries.map fun e => e.2

theorem mem_entries_iff {k : K} {v : V} {t : Table K V} :
    (⟨k, v⟩ : Sigma fun _ : K => V) ∈ t.entries ↔ t.lookup k = some v :=
  AList.mem_lookup_iff.symm

/-- The items that a table's values list, all in one list. -/
def gather {α : Type} (g : V → List α) (t : Table K V) : List α :=
  t.entries.flatMap fun e => g e.2

theorem entries_erase (k : K) (t : Table K V) : (t.erase k).entries = t.entries.kerase k := rfl

theorem gather_insert {α : Type} (g : V → List α) (k : K) (v : V) (t : Table K V) :
    gather g (t.insert k v) = g v ++ gather g (t.erase k) := by
  simp only [gather, AList.entries_insert, entries_erase, List.flatMap_cons]

/-- The items around those of one key. -/
theorem gather_perm {α : Type} (g : V → List α) (k : K) (t : Table K V) :
    (gather g t).Perm ((t.lookup k).elim [] g ++ gather g (t.erase k)) := by
  cases look : t.lookup k with
  | none =>
      have same : t.erase k = t :=
        AList.ext (List.kerase_of_notMem_keys (AList.lookup_eq_none.mp look))
      rw [same]
      exact List.Perm.refl _
  | some v =>
      have known : k ∈ t.entries.keys := AList.lookup_isSome.mp (by rw [look]; rfl)
      obtain ⟨v', front, back, -, split, erased⟩ := List.exists_of_kerase known
      have found : t.lookup k = some v' := mem_entries_iff.mp (by rw [split]; simp)
      obtain rfl : v = v' := Option.some.inj (look.symm.trans found)
      have rest : (t.erase k).entries = front ++ back := erased
      rw [gather, gather, split, rest, List.flatMap_append, List.flatMap_append, List.flatMap_cons]
      exact List.perm_append_comm_assoc _ _ _

theorem mem_gather {α : Type} {g : V → List α} {t : Table K V} {a : α} :
    a ∈ gather g t ↔ ∃ k v, t.lookup k = some v ∧ a ∈ g v := by
  unfold gather
  rw [List.mem_flatMap]
  constructor
  · rintro ⟨⟨k, v⟩, mem, ha⟩
    exact ⟨k, v, mem_entries_iff.mp mem, ha⟩
  · rintro ⟨k, v, look, ha⟩
    exact ⟨⟨k, v⟩, mem_entries_iff.mpr look, ha⟩

/-- The sum of a measure over all values of a table. -/
def sumBy [AddCommMonoid M] (g : V → M) (t : Table K V) : M :=
  (t.entries.map fun e => g e.2).sum

variable [AddCommMonoid M]

/-- Removing a key from a duplicate-free list of entries removes its summand. -/
theorem sum_kerase (g : V → M) (k : K) : ∀ {l : List (Sigma fun _ : K => V)}, l.NodupKeys →
    ((l.kerase k).map fun e => g e.2).sum + (l.dlookup k).elim 0 g = (l.map fun e => g e.2).sum
  | [], _ => by simp
  | ⟨k', v⟩ :: l, nodup => by
      by_cases eq : k = k'
      · subst eq
        have erased : (⟨k, v⟩ :: l : List (Sigma fun _ : K => V)).kerase k = l :=
          List.kerase_cons_eq rfl
        rw [erased, List.dlookup_cons_eq]
        simp [add_comm]
      · have ih := sum_kerase g k (List.nodupKeys_of_nodupKeys_cons nodup)
        rw [List.kerase_cons_ne eq, List.dlookup_cons_ne _ _ eq]
        simp only [List.map_cons, List.sum_cons, add_assoc]
        rw [ih]

/-- Among entries with different keys only one has the key. -/
theorem sum_ite_key (g : V → M) (k : K) : ∀ {l : List (Sigma fun _ : K => V)}, l.NodupKeys →
    (l.map fun e => if e.1 = k then g e.2 else 0).sum = (l.dlookup k).elim 0 g
  | [], _ => by simp
  | ⟨k', v⟩ :: l, nodup => by
      have ih := sum_ite_key g k (List.nodupKeys_of_nodupKeys_cons nodup)
      rw [List.map_cons, List.sum_cons, ih]
      by_cases eq : k' = k
      · subst eq
        have absent : l.dlookup k' = none :=
          List.dlookup_eq_none.mpr (List.notMem_keys_of_nodupKeys_cons nodup)
        rw [if_pos rfl, absent, List.dlookup_cons_eq, Option.elim_none, Option.elim_some, add_zero]
      · rw [if_neg eq, List.dlookup_cons_ne _ _ (Ne.symm eq), zero_add]

/-- A sum over the entries of one list that are found in another one can be taken over either. -/
theorem sum_dlookup_swap {W : Type} (f : V → W → M) {m : List (Sigma fun _ : K => W)}
    (nodup' : m.NodupKeys) : ∀ {l : List (Sigma fun _ : K => V)}, l.NodupKeys →
    (l.map fun e => (m.dlookup e.1).elim 0 (f e.2)).sum
      = (m.map fun e => (l.dlookup e.1).elim 0 fun v => f v e.2).sum
  | [], _ => by simp
  | ⟨k, v⟩ :: l, nodup => by
      have rest := sum_dlookup_swap f nodup' (List.nodupKeys_of_nodupKeys_cons nodup)
      have absent : l.dlookup k = none :=
        List.dlookup_eq_none.mpr (List.notMem_keys_of_nodupKeys_cons nodup)
      have split : ∀ e : Sigma fun _ : K => W,
          ((⟨k, v⟩ :: l : List (Sigma fun _ : K => V)).dlookup e.1).elim 0 (fun w => f w e.2)
            = (if e.1 = k then f v e.2 else 0) + (l.dlookup e.1).elim 0 fun w => f w e.2 := by
        rintro ⟨k', w⟩
        by_cases eq : k' = k
        · subst eq
          rw [List.dlookup_cons_eq, if_pos rfl, absent, Option.elim_some,
            Option.elim_none, add_zero]
        · rw [List.dlookup_cons_ne _ _ eq, if_neg eq, zero_add]
      rw [List.map_cons, List.sum_cons, rest, List.map_congr_left fun e _ => split e,
        List.sum_map_add, sum_ite_key (f v) k nodup']

/-- The items of all keys together. -/
theorem sum_fibers {α : Type} (key : α → K) (g : α → M) {keys : List K} (nodup : keys.Nodup) :
    ∀ {items : List α}, (∀ a ∈ items, key a ∈ keys) →
      (keys.map fun k => ((items.filter fun a => key a = k).map g).sum).sum = (items.map g).sum
  | [], _ => by simp
  | a :: items, known => by
      obtain ⟨first, others⟩ := List.forall_mem_cons.mp known
      have split : ∀ k, (((a :: items).filter fun a => key a = k).map g).sum
          = (if k = key a then g a else 0)
            + ((items.filter fun a => key a = k).map g).sum := by
        intro k
        by_cases eq : key a = k
        · rw [List.filter_cons_of_pos (by simpa using eq), if_pos eq.symm, List.map_cons,
            List.sum_cons]
        · rw [List.filter_cons_of_neg (by simpa using eq), if_neg (Ne.symm eq), zero_add]
      have one : (keys.map fun k => if k = key a then g a else 0).sum = g a := by
        rw [List.sum_map_eq_nsmul_single (key a) _ fun k ne _ => if_neg ne,
          List.count_eq_one_of_mem nodup first, one_nsmul, if_pos rfl]
      rw [List.map_congr_left fun k _ => split k, List.sum_map_add, one,
        sum_fibers key g nodup others,
        List.map_cons, List.sum_cons]

/-- The items of one key, from items that were collected key by key. -/
theorem filter_flatMap {α : Type} (key : α → K) (f : K → List α) (own : ∀ k, ∀ a ∈ f k, key a = k)
    {k : K} : ∀ {keys : List K}, keys.Nodup → k ∈ keys →
      ((keys.flatMap f).filter fun a => key a = k) = f k
  | k' :: keys, nodup, mem => by
      obtain ⟨other, nodup'⟩ := List.nodup_cons.mp nodup
      rw [List.flatMap_cons, List.filter_append]
      rcases List.mem_cons.mp mem with rfl | later
      · have all : ((f k).filter fun a => key a = k) = f k :=
          List.filter_eq_self.mpr fun a ha => decide_eq_true (own k a ha)
        have none : ((keys.flatMap f).filter fun a => key a = k) = [] := by
          refine List.filter_eq_nil_iff.mpr fun a ha same => other ?_
          obtain ⟨k', hk', here⟩ := List.mem_flatMap.mp ha
          rwa [← own k' a here, of_decide_eq_true same] at hk'
        rw [all, none, List.append_nil]
      · have none : ((f k').filter fun a => key a = k) = [] := by
          refine List.filter_eq_nil_iff.mpr fun a ha same => other ?_
          rwa [← own k' a ha, of_decide_eq_true same]
        rw [none, List.nil_append, filter_flatMap key f own nodup' later]

theorem sumBy_erase (g : V → M) (k : K) (t : Table K V) :
    sumBy g (t.erase k) + (t.lookup k).elim 0 g = sumBy g t :=
  sum_kerase g k t.nodupKeys

theorem sumBy_insert (g : V → M) (k : K) (v : V) (t : Table K V) :
    sumBy g (t.insert k v) + (t.lookup k).elim 0 g = sumBy g t + g v := by
  have erased := sumBy_erase g k t
  have : sumBy g (t.insert k v) = g v + sumBy g (t.erase k) := by
    simp [sumBy, AList.entries_insert, entries_erase]
  rw [this, add_assoc, erased, add_comm]

theorem sumBy_insert_of_notMem (g : V → M) {k : K} (v : V) {t : Table K V} (fresh : k ∉ t) :
    sumBy g (t.insert k v) = sumBy g t + g v := by
  have h := sumBy_insert g k v t
  rwa [AList.lookup_eq_none.mpr fresh, Option.elim_none, add_zero] at h

/-- The sum after `m[k] = f(m[k])`, for a measure that gives the default value
no weight. -/
theorem sumBy_update (g : V → M) (k : K) {d : V} (zero : g d = 0) (f : V → V) (t : Table K V) :
    sumBy g (update k d f t) + g ((t.lookup k).getD d)
      = sumBy g t + g (f ((t.lookup k).getD d)) := by
  have h := sumBy_insert g k (f ((t.lookup k).getD d)) t
  cases look : t.lookup k with
  | none => simpa [update, look, zero] using h
  | some v => simpa [update, look] using h

/-- The sum after `m[k] = f(m[k])` when `f` adds `δ` to the measure. -/
theorem sumBy_update_add {G : Type} [AddCommGroup G] (g : V → G) (k : K) {d : V} (zero : g d = 0)
    {f : V → V} {δ : G} (shift : ∀ v, g (f v) = g v + δ) (t : Table K V) :
    sumBy g (update k d f t) = sumBy g t + δ := by
  have h := sumBy_update g k zero f t
  rw [shift, ← add_assoc, add_right_comm] at h
  exact add_right_cancel h

end Table

/-- An order in which the entries of a table are visited: what the iteration over
an `unordered_map` may be. -/
structure IterationOrder (K V : Type) where
  walk : Table K V → List (Sigma fun _ : K => V)
  perm : ∀ t, (walk t).Perm t.entries

/-- The order the entries are stored in. -/
def IterationOrder.stored {K V : Type} : IterationOrder K V where
  walk := AList.entries
  perm := fun _ => List.Perm.refl _

namespace IterationOrder

variable {K V : Type} [DecidableEq K] (order : IterationOrder K V)

theorem mem_walk {k : K} {v : V} {t : Table K V} : ⟨k, v⟩ ∈ order.walk t ↔ t.lookup k = some v :=
  (order.perm t).mem_iff.trans Table.mem_entries_iff

omit [DecidableEq K] in
theorem nodup_keys (t : Table K V) : ((order.walk t).map fun e => e.1).Nodup :=
  ((order.perm t).map _).nodup_iff.mpr t.keys_nodup

theorem dlookup_walk (k : K) (t : Table K V) : (order.walk t).dlookup k = t.lookup k :=
  List.perm_dlookup k ((List.perm_nodupKeys (order.perm t)).mpr t.nodupKeys)
    (order.perm t)

/-- A table rebuilt from the visited entries of another one. -/
theorem lookup_insertAll_walk {W : Type} (f : V → W) (k : K) (t : Table K V) :
    AList.lookup k (Table.insertAll ((order.walk t).map fun e => ⟨e.1, f e.2⟩) ∅)
      = (t.lookup k).map f := by
  have keys : ((order.walk t).map fun e => (⟨e.1, f e.2⟩ : Sigma fun _ : K => W)).map Sigma.fst
      = (order.walk t).map fun e => e.1 := by
    rw [List.map_map]
    rfl
  refine Option.ext fun w => ?_
  rw [Table.lookup_insertAll (keys ▸ order.nodup_keys t), List.mem_map, Option.map_eq_some_iff]
  constructor
  · rintro ⟨⟨k', v⟩, mem, eq⟩
    cases eq
    exact ⟨v, order.mem_walk.mp mem, rfl⟩
  · rintro ⟨v, look, rfl⟩
    exact ⟨⟨k, v⟩, order.mem_walk.mpr look, rfl⟩

/-- A sum over the visited entries with one key. -/
theorem sum_walk_ite {M : Type} [AddCommMonoid M] (g : V → M) (k : K) (t : Table K V) :
    ((order.walk t).map fun e => if e.1 = k then g e.2 else 0).sum = (t.lookup k).elim 0 g :=
  (((order.perm t).map _).sum_eq).trans (Table.sum_ite_key g k t.nodupKeys)

omit [DecidableEq K] in
@[simp] theorem walk_empty : order.walk (∅ : Table K V) = [] :=
  (order.perm ∅).eq_nil

end IterationOrder

end StockMarket
