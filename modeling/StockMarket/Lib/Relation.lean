import Mathlib.Algebra.BigOperators.Group.List.Basic
import Mathlib.Data.List.Nodup

/-!
Tables of rows with a primary key.

A `Relation key` is a list of rows no two of which have the same key; the order of
the list is the order in which a query without `ORDER BY` returns its rows. The
statements `insert`, `update` and `delete` keep the key unique, so a table never
has to be checked again. As in a database, inserting a row whose key is taken
changes nothing.

* `find_insert`, `find_update`: what these statements do to the row of a key.
* `valueAt_insert`, `valueAt_update`: the same for a measure of that row.
* `sumBy_insert`, `sumBy_update`: what it does to a sum over all rows.
-/

namespace StockMarket

/-- A table whose rows have distinct keys. -/
structure Relation {R K : Type} (key : R → K) where
  rows : List R
  unique : (rows.map key).Nodup

namespace Relation

variable {R K M : Type} {key : R → K}

/-- The table without rows. -/
def empty : Relation key := ⟨[], List.nodup_nil⟩

/-- `SELECT * FROM t WHERE p`. -/
def select (p : R → Bool) (t : Relation key) : List R :=
  t.rows.filter p

/-- `UPDATE t SET f WHERE p`, for an assignment that leaves the key alone. -/
def update (p : R → Bool) (f : R → R) (keep : ∀ r, key (f r) = key r) (t : Relation key) :
    Relation key where
  rows := t.rows.map fun r => if p r then f r else r
  unique := by
    have same : (key ∘ fun r => if p r then f r else r) = key := by
      funext r
      by_cases hit : p r <;> simp [hit, keep]
    rw [List.map_map, same]
    exact t.unique

/-- An assignment that assigns what is there. -/
theorem update_eq_self {p : R → Bool} {f : R → R} {keep : ∀ r, key (f r) = key r}
    {t : Relation key} (same : ∀ r, f r = r) : t.update p f keep = t := by
  have rows : t.rows.map (fun r => if p r then f r else r) = t.rows := by
    simp [same]
  simp only [update, rows]

/-- `DELETE FROM t WHERE p`. -/
def delete (p : R → Bool) (t : Relation key) : Relation key where
  rows := t.rows.filter fun r => !p r
  unique := t.unique.sublist (List.filter_sublist.map key)

variable [DecidableEq K]

/-- `INSERT INTO t`, refused when the key is taken. -/
def insert (r : R) (t : Relation key) : Relation key :=
  if taken : key r ∈ t.rows.map key then t
  else
    { rows := t.rows ++ [r]
      unique := by
        rw [List.map_append, List.map_singleton]
        exact List.nodup_append_comm.mp (List.nodup_cons.mpr ⟨taken, t.unique⟩) }

/-- The row of a key. -/
def find (k : K) (t : Relation key) : Option R :=
  t.rows.find? fun r => key r = k

theorem find_none_iff {k : K} {t : Relation key} : t.find k = none ↔ k ∉ t.rows.map key := by
  simp [find, List.find?_eq_none]

theorem find_some_iff {k : K} {r : R} {t : Relation key} :
    t.find k = some r ↔ r ∈ t.rows ∧ key r = k := by
  have hit : ∀ {r'}, t.find k = some r' → r' ∈ t.rows ∧ key r' = k := fun found =>
    ⟨List.mem_of_find?_eq_some found, by simpa using List.find?_some found⟩
  refine ⟨hit, ?_⟩
  rintro ⟨mem, eq⟩
  cases found : t.find k with
  | none => exact absurd (List.mem_map.mpr ⟨r, mem, eq⟩) (find_none_iff.mp found)
  | some r' =>
      have ⟨mem', eq'⟩ := hit found
      rw [List.inj_on_of_nodup_map t.unique mem' mem (eq'.trans eq.symm)]

theorem find_isSome_iff {k : K} {t : Relation key} :
    (t.find k).isSome ↔ k ∈ t.rows.map key := by
  rw [← not_iff_not, Bool.not_eq_true, Option.isSome_eq_false_iff, Option.isNone_iff_eq_none,
    find_none_iff]

/-- The rows of some keys have these keys. -/
theorem map_key_filterMap_find {t : Relation key} {ks : List K}
    (known : ∀ k ∈ ks, k ∈ t.rows.map key) : (ks.filterMap t.find).map key = ks := by
  induction ks with
  | nil => rfl
  | cons k ks ih =>
      obtain ⟨r, mem, rfl⟩ := List.mem_map.mp (known k List.mem_cons_self)
      have found : t.find (key r) = some r := find_some_iff.mpr ⟨mem, rfl⟩
      have later := ih fun k mem => known k (List.mem_cons_of_mem _ mem)
      simp only [List.filterMap_cons, found, List.map_cons, later]

/-- A query for one key returns its row. -/
theorem select_key (k : K) (t : Relation key) :
    (t.select fun r => key r = k) = (t.find k).toList := by
  obtain ⟨rows, unique⟩ := t
  simp only [select, find]
  induction rows with
  | nil => rfl
  | cons r rows ih =>
      have ⟨fresh, unique'⟩ := List.nodup_cons.mp unique
      by_cases eq : key r = k
      · have others : ∀ r' ∈ rows, ¬ key r' = k := fun r' mem' eq' =>
          fresh (List.mem_map.mpr ⟨r', mem', eq'.trans eq.symm⟩)
        simpa [eq] using others
      · simpa [eq] using ih unique'

/-- The row of a key after an insertion. -/
theorem find_insert (r : R) (t : Relation key) (k : K) :
    (t.insert r).find k = if key r = k then some ((t.find k).getD r) else t.find k := by
  by_cases taken : key r ∈ t.rows.map key
  · rw [insert, dif_pos taken]
    split
    · rename_i eq
      obtain ⟨r', found⟩ := Option.isSome_iff_exists.mp (find_isSome_iff.mpr (eq ▸ taken))
      rw [found, Option.getD_some]
    · rfl
  · have missing := find_none_iff.mpr taken
    rw [insert, dif_neg taken]
    simp only [find, List.find?_append, List.find?_singleton, decide_eq_true_eq]
    split
    · rename_i eq
      subst eq
      have missing : List.find? (fun r' => decide (key r' = key r)) t.rows = none := missing
      simp [missing]
    · simp

/-- The row of a key after an update. -/
theorem find_update (p : R → Bool) (f : R → R) (keep : ∀ r, key (f r) = key r)
    (t : Relation key) (k : K) :
    (t.update p f keep).find k = (t.find k).map fun r => if p r then f r else r := by
  have same : ((fun r => decide (key r = k)) ∘ fun r => if p r then f r else r)
      = fun r => decide (key r = k) := by
    funext r
    by_cases hit : p r <;> simp [hit, keep]
  rw [find, update, List.find?_map, same]
  rfl

/-- An update of the row of another key. -/
theorem find_update_ne {k k' : K} (ne : k' ≠ k) (f : R → R) (keep : ∀ r, key (f r) = key r)
    (t : Relation key) : (t.update (fun r => key r = k) f keep).find k' = t.find k' := by
  rw [find_update]
  cases found : t.find k' with
  | none => rfl
  | some r =>
      have other : key r ≠ k := (find_some_iff.mp found).2 ▸ ne
      simp [other]

@[simp] theorem isSome_find_update (p : R → Bool) (f : R → R)
    (keep : ∀ r, key (f r) = key r) (t : Relation key) (k : K) :
    ((t.update p f keep).find k).isSome = (t.find k).isSome := by
  rw [find_update, Option.isSome_map]

theorem isSome_find_insert {r : R} {t : Relation key} {k : K} (known : (t.find k).isSome) :
    ((t.insert r).find k).isSome := by
  rw [find_insert]
  split
  · rfl
  · exact known

/-! ### Queries after a statement -/

/-- A new row comes last. -/
theorem rows_insert_of_fresh {r : R} {t : Relation key} (fresh : key r ∉ t.rows.map key) :
    (t.insert r).rows = t.rows ++ [r] := by
  rw [insert, dif_neg fresh]

theorem select_insert_of_fresh {p : R → Bool} {r : R} {t : Relation key}
    (fresh : key r ∉ t.rows.map key) : (t.insert r).select p = t.select p ++ [r].filter p := by
  rw [select, rows_insert_of_fresh fresh]
  exact List.filter_append ..

/-- A row that is not asked for does not matter. -/
theorem select_insert_of_not {p : R → Bool} {r : R} {t : Relation key} (other : p r = false) :
    (t.insert r).select p = t.select p := by
  by_cases taken : key r ∈ t.rows.map key
  · rw [insert, dif_pos taken]
  · rw [select_insert_of_fresh taken]
    simp [other]

omit [DecidableEq K] in
/-- The deletion of a row by its key and more that holds of it. -/
theorem rows_delete_row [DecidableEq R] {q : R → Bool} {r : R} {t : Relation key}
    (mem : r ∈ t.rows) (here : q r = true) (one : ∀ r', q r' = true → key r' = key r) :
    (t.delete q).rows = t.rows.filter (· ≠ r) := by
  refine List.filter_congr fun r' mem' => ?_
  have only : q r' = true ↔ r' = r := by
    constructor
    · exact fun hit => List.inj_on_of_nodup_map t.unique mem' mem (one r' hit)
    · rintro rfl
      exact here
  by_cases eq : r' = r
  · simp [eq, here]
  · have miss : q r' = false := Bool.eq_false_iff.mpr fun hit => eq (only.mp hit)
    simp [eq, miss]

/-! ### What holds of all rows -/

theorem mem_insert_of_mem {r r' : R} {t : Relation key} (mem : r' ∈ t.rows) :
    r' ∈ (t.insert r).rows := by
  unfold insert
  split
  · exact mem
  · exact List.mem_append_left _ mem

theorem forall_insert {P : R → Prop} {r : R} {t : Relation key} (all : ∀ r ∈ t.rows, P r)
    (new : P r) : ∀ r' ∈ (t.insert r).rows, P r' := by
  intro r' mem
  unfold insert at mem
  split at mem
  · exact all r' mem
  · rcases List.mem_append.mp mem with old | last
    · exact all r' old
    · rwa [List.mem_singleton.mp last]

omit [DecidableEq K] in
theorem forall_update {P : R → Prop} {p : R → Bool} {f : R → R}
    (keep : ∀ r, key (f r) = key r) {t : Relation key} (all : ∀ r ∈ t.rows, P r)
    (kept : ∀ r, P r → P (f r)) : ∀ r ∈ (t.update p f keep).rows, P r := by
  intro r mem
  obtain ⟨r₀, mem₀, rfl⟩ := List.mem_map.mp mem
  split
  · exact kept r₀ (all r₀ mem₀)
  · exact all r₀ mem₀

omit [DecidableEq K] in
theorem forall_delete {P : R → Prop} {p : R → Bool} {t : Relation key}
    (all : ∀ r ∈ t.rows, P r) : ∀ r ∈ (t.delete p).rows, P r :=
  fun r mem => all r (List.mem_filter.mp mem).1

/-! ### The value of a key -/

/-- A measure of the row of a key, nothing if there is no row. -/
def valueAt [Zero M] (g : R → M) (k : K) (t : Relation key) : M :=
  (t.find k).elim 0 g

theorem valueAt_insert [AddZeroClass M] (g : R → M) {r : R} {t : Relation key}
    (fresh : t.find (key r) = none) (k : K) :
    (t.insert r).valueAt g k = t.valueAt g k + if k = key r then g r else 0 := by
  rw [valueAt, valueAt, find_insert]
  by_cases eq : key r = k
  · subst eq
    simp [fresh]
  · simp [eq, Ne.symm eq]

/-- An update of one row shifts the value of its key only. -/
theorem valueAt_update [AddZeroClass M] (g : R → M) {f : R → R} (keep : ∀ r, key (f r) = key r)
    {k : K} {t : Relation key} {r : R} (found : t.find k = some r) {δ : M}
    (shift : g (f r) = g r + δ) (k' : K) :
    (t.update (fun r => key r = k) f keep).valueAt g k'
      = t.valueAt g k' + if k' = k then δ else 0 := by
  rw [valueAt, valueAt, find_update]
  by_cases eq : k' = k
  · subst eq
    have hit : key r = k' := (find_some_iff.mp found).2
    simp [found, hit, shift]
  · cases found' : t.find k' with
    | none => simp [eq]
    | some r' =>
        have miss : key r' = k' := (find_some_iff.mp found').2
        simp [miss, eq]

/-! ### Sums over all rows -/

/-- The sum of a measure over the rows. -/
def sumBy [AddCommMonoid M] (g : R → M) (t : Relation key) : M :=
  (t.rows.map g).sum

theorem sumBy_insert [AddCommMonoid M] (g : R → M) {r : R} {t : Relation key}
    (fresh : t.find (key r) = none) : sumBy g (t.insert r) = sumBy g t + g r := by
  rw [insert, dif_neg (find_none_iff.mp fresh)]
  simp [sumBy]

/-- An update of one row changes the sum by what it changes that row's measure. -/
theorem sumBy_update [AddCommGroup M] (g : R → M) {f : R → R} (keep : ∀ r, key (f r) = key r)
    {k : K} {t : Relation key} {r : R} (found : t.find k = some r) {δ : M}
    (shift : g (f r) = g r + δ) :
    sumBy g (t.update (fun r => key r = k) f keep) = sumBy g t + δ := by
  obtain ⟨mem, rfl⟩ := find_some_iff.mp found
  obtain ⟨rows, unique⟩ := t
  simp only [sumBy, update, List.map_map] at mem ⊢
  clear found
  induction rows with
  | nil => exact absurd mem List.not_mem_nil
  | cons s rows ih =>
      have ⟨fresh, unique'⟩ := List.nodup_cons.mp unique
      by_cases eq : key s = key r
      · -- the row itself: no later row has its key
        have head : s = r := List.inj_on_of_nodup_map unique List.mem_cons_self mem eq
        have rest : rows.map (g ∘ fun s => if key s = key r then f s else s) = rows.map g := by
          refine List.map_congr_left fun s' mem' => ?_
          have ne : key s' ≠ key r := fun eq' =>
            fresh (List.mem_map.mpr ⟨s', mem', eq'.trans eq.symm⟩)
          simp [ne]
        subst head
        simp only [decide_eq_true_eq] at rest ⊢
        rw [List.map_cons, List.map_cons, rest, List.sum_cons, List.sum_cons]
        simp [shift, add_right_comm]
      · have mem' : r ∈ rows := (List.mem_cons.mp mem).resolve_left fun eq' => eq (by rw [eq'])
        have ih := ih unique' mem'
        rw [List.map_cons, List.map_cons, List.sum_cons, List.sum_cons, ih]
        simp [eq, add_assoc]

end Relation

end StockMarket
