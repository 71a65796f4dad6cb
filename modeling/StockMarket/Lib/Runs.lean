import Mathlib.Data.List.Induction
import Mathlib.Data.List.SplitBy
import Mathlib.Data.List.Sort
import Mathlib.Order.Defs.LinearOrder

/-!
Runs of adjacent elements with the same key.

Code that groups a stream without looking back further than its last group cuts it into
runs: `runs key xs` is Mathlib's `splitBy` for the equality of keys. One more element
extends the last run or is a run of its own (`runs_concat_own`, `runs_concat_new`), so
whatever the code keeps for a run can be followed along the stream (`forall₂_runs`). The
runs are in strictly ascending order of their keys exactly if the stream is in ascending
order (`ascending_runs_iff`), and then a run has all elements with its key
(`eq_filter_of_mem_runs`).
-/

namespace StockMarket

section Runs

variable {α K : Type} [DecidableEq K] (key : α → K)

/-- The runs of adjacent elements with the same key. -/
def runs (xs : List α) : List (List α) :=
  xs.splitBy fun x y => key x == key y

@[simp] theorem runs_nil : runs key [] = [] := rfl

@[simp] theorem flatten_runs (xs : List α) : (runs key xs).flatten = xs :=
  List.flatten_splitBy _ _

variable {key} {xs r : List α}

theorem ne_nil_of_mem_runs (mem : r ∈ runs key xs) : r ≠ [] :=
  List.ne_nil_of_mem_splitBy mem

theorem exists_run {x : α} (mem : x ∈ xs) : ∃ r ∈ runs key xs, x ∈ r := by
  rw [← flatten_runs key xs] at mem
  exact List.mem_flatten.mp mem

/-- The elements of a run have one key. -/
theorem key_eq_of_mem_runs (mem : r ∈ runs key xs) {x y : α} (hx : x ∈ r) (hy : y ∈ r) :
    key x = key y := by
  have chain : r.IsChain fun x y => key x = key y :=
    (List.isChain_of_mem_splitBy mem).imp fun x y same => eq_of_beq same
  have trans : IsTrans α fun x y => key x = key y := ⟨fun _ _ _ => Eq.trans⟩
  have symm : Std.Symm fun x y => key x = key y := ⟨fun _ _ => Eq.symm⟩
  have pairwise : r.Pairwise fun x y => key x = key y := List.isChain_iff_pairwise.mp chain
  exact pairwise.forall_of_forall (R := fun x y => key x = key y) (fun _ _ => rfl) hx hy

/-- The last element is in the last run. -/
theorem getLast?_mem_of_runs {front : List (List α)} (split : runs key xs = front ++ [r]) {x : α}
    (last : x ∈ xs.getLast?) : x ∈ r := by
  have mem : r ∈ runs key xs := by
    rw [split]
    exact List.mem_append_right _ List.mem_cons_self
  have whole : xs = front.flatten ++ r := by
    rw [← flatten_runs key xs, split]
    simp
  rw [whole, List.getLast?_append_of_ne_nil _ (ne_nil_of_mem_runs mem)] at last
  exact List.mem_of_getLast? last

/-- An element with another key than the last begins a run. -/
theorem runs_concat_new {x : α} (new : ∀ y ∈ xs.getLast?, key y ≠ key x) :
    runs key (xs ++ [x]) = runs key xs ++ [[x]] :=
  List.splitBy_append_cons [] fun y last => beq_eq_false_iff_ne.mpr (new y last)

/-- An element with the key of the last run extends it. -/
theorem runs_concat_own {x : α} {front : List (List α)} (split : runs key xs = front ++ [r])
    (own : ∀ y ∈ r, key y = key x) : runs key (xs ++ [x]) = front ++ [r ++ [x]] := by
  obtain ⟨whole, none, each, between⟩ := List.splitBy_eq_iff.mp split
  refine List.splitBy_eq_iff.mpr ⟨?_, ?_, ?_, ?_⟩
  · simp [whole]
  · intro mem
    rcases List.mem_append.mp mem with mem | mem
    · exact none (List.mem_append_left _ mem)
    · exact absurd (List.mem_singleton.mp mem) (by simp)
  · intro m mem
    rcases List.mem_append.mp mem with mem | mem
    · exact each m (List.mem_append_left _ mem)
    · obtain rfl := List.mem_singleton.mp mem
      refine (each r (by simp)).append (List.isChain_singleton x) fun y last z first => ?_
      obtain rfl : x = z := by simpa using first
      exact beq_iff_eq.mpr (own y (List.mem_of_getLast? last))
  · obtain ⟨before, -, joint⟩ := List.isChain_append.mp between
    refine before.append (List.isChain_singleton _) fun m last m' first => ?_
    obtain rfl : r ++ [x] = m' := by simpa using first
    obtain ⟨ha, hb, differ⟩ := joint m last r rfl
    exact ⟨ha, by simp, by rw [List.head_append_of_ne_nil hb]; exact differ⟩

/-! ### What is kept for each run -/

variable {V : Type} (key) (keyOf : V → K) (opened : α → V) (extended : V → α → V)

/-- One more element: it goes to the last entry if that has its key, and opens a new entry
otherwise. -/
def addRun (vs : List V) (x : α) : List V :=
  match vs.getLast? with
  | none => vs ++ [opened x]
  | some v => if keyOf v ≠ key x then vs ++ [opened x] else vs.dropLast ++ [extended v x]

variable {key keyOf opened extended} {covers : List α → V → Prop}

/-- The last of several entries. -/
theorem forall₂_concat {R : List α → V → Prop} {rs : List (List α)} {vs : List V} {v : V}
    (each : List.Forall₂ R rs (vs ++ [v])) :
    ∃ front r, rs = front ++ [r] ∧ List.Forall₂ R front vs ∧ R r v := by
  have front := List.forall₂_take_append _ _ _ each
  have last := List.forall₂_drop_append _ _ _ each
  obtain ⟨r, rest, covered, none, cut⟩ := List.forall₂_cons_right_iff.mp last
  obtain rfl := List.forall₂_nil_right_iff.mp none
  exact ⟨_, r, by rw [← cut, List.take_append_drop], front, covered⟩

/-- Each entry has its run. -/
theorem exists_of_forall₂ {α β : Type} {R : α → β → Prop} {as : List α} {bs : List β}
    (each : List.Forall₂ R as bs) {b : β} (mem : b ∈ bs) : ∃ a ∈ as, R a b := by
  induction each with
  | nil => cases mem
  | cons related _ ih =>
      rcases List.mem_cons.mp mem with rfl | mem
      · exact ⟨_, List.mem_cons_self, related⟩
      · obtain ⟨a, ha, related⟩ := ih mem
        exact ⟨a, List.mem_cons_of_mem _ ha, related⟩

/-- A relation between the runs is one between their entries. -/
theorem pairwise_iff_of_forall₂ {R : List α → V → Prop} {Q : List α → List α → Prop}
    {S : V → V → Prop} (agree : ∀ r v r' v', R r v → R r' v' → (Q r r' ↔ S v v'))
    {rs : List (List α)} {vs : List V} (each : List.Forall₂ R rs vs) :
    rs.Pairwise Q ↔ vs.Pairwise S := by
  have first {r : List α} {v : V} (covered : R r v) {rs : List (List α)} {vs : List V}
      (each : List.Forall₂ R rs vs) : (∀ r' ∈ rs, Q r r') ↔ ∀ v' ∈ vs, S v v' := by
    induction each with
    | nil => simp
    | cons later _ ih => simp only [List.forall_mem_cons, ih, agree _ _ _ _ covered later]
  induction each with
  | nil => simp
  | cons covered rest ih =>
      rw [List.pairwise_cons, List.pairwise_cons]
      exact and_congr (first covered rest) ih

/-- One more element of the stream. -/
theorem forall₂_addRun (keyed : ∀ r v, covers r v → ∀ y ∈ r, key y = keyOf v)
    (first : ∀ x, covers [x] (opened x))
    (further : ∀ r v x, covers r v → key x = keyOf v → covers (r ++ [x]) (extended v x))
    {vs : List V} (each : List.Forall₂ covers (runs key xs) vs) (x : α) :
    List.Forall₂ covers (runs key (xs ++ [x])) (addRun key keyOf opened extended vs x) := by
  unfold addRun
  cases last : vs.getLast? with
  | none =>
      obtain rfl := List.getLast?_eq_none_iff.mp last
      obtain rfl : xs = [] := List.splitBy_eq_nil.mp (List.forall₂_nil_right_iff.mp each)
      exact .cons (first x) .nil
  | some v =>
      obtain ⟨vs, rfl⟩ := List.getLast?_eq_some_iff.mp last
      obtain ⟨front, r, split, before, covered⟩ := forall₂_concat each
      have keys := keyed r v covered
      dsimp only
      split_ifs with other
      · have new : ∀ y ∈ xs.getLast?, key y ≠ key x := by
          intro y hy
          rw [keys y (getLast?_mem_of_runs split hy)]
          exact other
        rw [runs_concat_new new]
        exact List.rel_append each (.cons (first x) .nil)
      · have same : key x = keyOf v := (not_not.mp other).symm
        rw [runs_concat_own split fun y hy => (keys y hy).trans same.symm, List.dropLast_concat]
        exact List.rel_append before (.cons (further r v x covered same) .nil)

/-- **Along the whole stream** each run has its entry. -/
theorem forall₂_runs (keyed : ∀ r v, covers r v → ∀ y ∈ r, key y = keyOf v)
    (first : ∀ x, covers [x] (opened x))
    (further : ∀ r v x, covers r v → key x = keyOf v → covers (r ++ [x]) (extended v x))
    (xs : List α) :
    List.Forall₂ covers (runs key xs) (xs.foldl (addRun key keyOf opened extended) []) := by
  induction xs using List.reverseRecOn with
  | nil => exact .nil
  | append_singleton xs x ih =>
      rw [List.foldl_append]
      exact forall₂_addRun keyed first further ih x

end Runs

section Order

variable {α K : Type} [LinearOrder K] {key : α → K} {xs r : List α}

/-- The keys of the runs ascend if and only if those of the list do not descend. -/
theorem ascending_runs_iff : ((runs key xs).Pairwise fun r r' => ∀ x ∈ r, ∀ y ∈ r', key x < key y) ↔
    xs.Pairwise fun x y => key x ≤ key y := by
  constructor
  · intro ascending
    rw [← flatten_runs key xs, List.pairwise_flatten]
    refine ⟨fun r mem => ?_, ascending.imp fun lt x hx y hy => (lt x hx y hy).le⟩
    exact List.pairwise_of_forall_mem_list fun x hx y hy => (key_eq_of_mem_runs mem hx hy).le
  · intro sorted
    rw [← flatten_runs key xs, List.pairwise_flatten] at sorted
    let before (r r' : List α) : Prop := r ≠ [] ∧ r' ≠ [] ∧ ∀ x ∈ r, ∀ y ∈ r', key x < key y
    have trans : IsTrans (List α) before := by
      refine ⟨fun r r' r'' first second => ⟨first.1, second.2.1, fun x hx y hy => ?_⟩⟩
      obtain ⟨z, hz⟩ := List.exists_mem_of_ne_nil r' first.2.1
      exact (first.2.2 x hx z hz).trans (second.2.2 z hz y hy)
    have joints := List.isChain_getLast_head_splitBy (fun x y => key x == key y) xs
    have chain : (runs key xs).IsChain before := by
      refine List.isChain_iff_getElem.mpr fun i lt => ?_
      obtain ⟨ne, ne', differ⟩ := List.isChain_iff_getElem.mp joints i lt
      have le := List.pairwise_iff_getElem.mp sorted.2 i (i + 1) (Nat.lt_of_succ_lt lt) lt
        (Nat.lt_succ_self i)
      refine ⟨ne, ne', fun x hx y hy => ?_⟩
      have own := key_eq_of_mem_runs (List.getElem_mem _) hx (List.getLast_mem ne)
      have own' := key_eq_of_mem_runs (List.getElem_mem _) hy (List.head_mem ne')
      rw [own, own']
      exact lt_of_le_of_ne (le _ (List.getLast_mem ne) _ (List.head_mem ne'))
        (beq_eq_false_iff_ne.mp differ)
    exact (List.isChain_iff_pairwise.mp chain).imp fun lt => lt.2.2

/-- Then a run has all elements with its key. -/
theorem eq_filter_of_mem_runs (sorted : xs.Pairwise fun x y => key x ≤ key y)
    (mem : r ∈ runs key xs) {x : α} (hx : x ∈ r) : r = xs.filter fun y => key y = key x := by
  obtain ⟨front, back, split⟩ := List.append_of_mem mem
  have ascending := ascending_runs_iff.mpr sorted
  rw [split, List.pairwise_append, List.pairwise_cons] at ascending
  obtain ⟨-, ⟨after, -⟩, before⟩ := ascending
  have whole : xs = front.flatten ++ (r ++ back.flatten) := by
    rw [← flatten_runs key xs, split]
    simp
  have own : r.filter (fun y => key y = key x) = r :=
    List.filter_eq_self.mpr fun y hy => by simpa using key_eq_of_mem_runs mem hy hx
  have earlier : front.flatten.filter (fun y => key y = key x) = [] := by
    refine List.filter_eq_nil_iff.mpr fun y hy => ?_
    obtain ⟨r', mem', hy⟩ := List.mem_flatten.mp hy
    simpa using (before r' mem' r List.mem_cons_self y hy x hx).ne
  have later : back.flatten.filter (fun y => key y = key x) = [] := by
    refine List.filter_eq_nil_iff.mpr fun y hy => ?_
    obtain ⟨r', mem', hy⟩ := List.mem_flatten.mp hy
    simpa using (after r' mem' x hx y hy).ne'
  rw [whole, List.filter_append, List.filter_append, own, earlier, later, List.nil_append,
    List.append_nil]

end Order

end StockMarket
