import Mathlib.Data.List.Induction
import Mathlib.Data.List.Sort
import Mathlib.Order.Defs.LinearOrder

/-!
Ordered maps as association lists in ascending key order, and grouping into one.

`upsert k d f m` is `m[k] = f(m[k])` on an ordered map, where an absent key first gets the
value `d`. Code that groups a list by a key calls it once for each element (`group`). The
result is the one ascending list in which a key of the list has the fold of its own elements,
in the order they had (`mem_group`, `ascending_group`); so two ways to group agree as soon as
they have the same entries (`eq_group`).
-/

namespace StockMarket

/-- Keys in strictly ascending order. -/
def Ascending {K V : Type} [LT K] (m : List (K × V)) : Prop :=
  m.Pairwise fun e e' => e.1 < e'.1

section Upsert

variable {K V : Type}

/-- `m[k] = f(m[k])`, where an absent key first gets the value `d`. -/
def upsert [LT K] [DecidableLT K] (k : K) (d : V) (f : V → V) : List (K × V) → List (K × V)
  | [] => [(k, f d)]
  | e :: m =>
    if e.1 < k then e :: upsert k d f m
    else if k < e.1 then (k, f d) :: e :: m
    else (e.1, f e.2) :: m

variable [LinearOrder K] {k : K} {d : V} {f : V → V} {m : List (K × V)}

/-- The entries after an update: the others, and the entry of the key. -/
theorem mem_upsert (ascending : Ascending m) {e : K × V} :
    e ∈ upsert k d f m ↔ (e ∈ m ∧ e.1 ≠ k) ∨ (∃ v, (k, v) ∈ m ∧ e = (k, f v)) ∨
      ((∀ e' ∈ m, e'.1 ≠ k) ∧ e = (k, f d)) := by
  induction m with
  | nil => simp [upsert]
  | cons e' m ih =>
      obtain ⟨first, rest⟩ := List.pairwise_cons.mp ascending
      rcases lt_trichotomy e'.1 k with lt | eq | gt
      · have ne : e'.1 ≠ k := ne_of_lt lt
        rw [upsert, if_pos lt, List.mem_cons, ih rest]
        constructor
        · rintro (rfl | ⟨mem, other⟩ | ⟨v, mem, rfl⟩ | ⟨absent, rfl⟩)
          · exact .inl ⟨List.mem_cons_self, ne⟩
          · exact .inl ⟨List.mem_cons_of_mem _ mem, other⟩
          · exact .inr (.inl ⟨v, List.mem_cons_of_mem _ mem, rfl⟩)
          · exact .inr (.inr ⟨List.forall_mem_cons.mpr ⟨ne, absent⟩, rfl⟩)
        · rintro (⟨mem, other⟩ | ⟨v, mem, rfl⟩ | ⟨absent, rfl⟩)
          · rcases List.mem_cons.mp mem with rfl | mem
            · exact .inl rfl
            · exact .inr (.inl ⟨mem, other⟩)
          · rcases List.mem_cons.mp mem with rfl | mem
            · exact absurd rfl ne
            · exact .inr (.inr (.inl ⟨v, mem, rfl⟩))
          · exact .inr (.inr (.inr ⟨(List.forall_mem_cons.mp absent).2, rfl⟩))
      · obtain ⟨k', w⟩ := e'
        subst eq
        have later : ∀ e' ∈ m, e'.1 ≠ k' := fun e' mem => ne_of_gt (first e' mem)
        rw [upsert, if_neg (lt_irrefl _), if_neg (lt_irrefl _), List.mem_cons]
        constructor
        · rintro (rfl | mem)
          · exact .inr (.inl ⟨w, List.mem_cons_self, rfl⟩)
          · exact .inl ⟨List.mem_cons_of_mem _ mem, later e mem⟩
        · rintro (⟨mem, other⟩ | ⟨v, mem, rfl⟩ | ⟨absent, rfl⟩)
          · rcases List.mem_cons.mp mem with rfl | mem
            · exact absurd rfl other
            · exact .inr mem
          · rcases List.mem_cons.mp mem with eq | mem
            · cases eq
              exact .inl rfl
            · exact absurd rfl (later _ mem)
          · exact absurd rfl (absent _ List.mem_cons_self)
      · have absent : ∀ e'' ∈ e' :: m, e''.1 ≠ k :=
          List.forall_mem_cons.mpr ⟨ne_of_gt gt, fun e'' mem => ne_of_gt (gt.trans (first e'' mem))⟩
        rw [upsert, if_neg gt.asymm, if_pos gt, List.mem_cons]
        constructor
        · rintro (rfl | mem)
          · exact .inr (.inr ⟨absent, rfl⟩)
          · exact .inl ⟨mem, absent e mem⟩
        · rintro (⟨mem, -⟩ | ⟨v, mem, rfl⟩ | ⟨-, rfl⟩)
          · exact .inr mem
          · exact absurd rfl (absent _ mem)
          · exact .inl rfl

theorem ascending_upsert (ascending : Ascending m) : Ascending (upsert k d f m) := by
  induction m with
  | nil => exact List.pairwise_singleton _ _
  | cons e m ih =>
      obtain ⟨first, rest⟩ := List.pairwise_cons.mp ascending
      rcases lt_trichotomy e.1 k with lt | eq | gt
      · rw [upsert, if_pos lt]
        refine List.pairwise_cons.mpr ⟨fun e' mem => ?_, ih rest⟩
        rcases (mem_upsert rest).mp mem with ⟨old, -⟩ | ⟨v, -, rfl⟩ | ⟨-, rfl⟩
        · exact first e' old
        · exact lt
        · exact lt
      · rw [upsert, if_neg (eq ▸ lt_irrefl _), if_neg (eq ▸ lt_irrefl _)]
        exact List.pairwise_cons.mpr ⟨fun e' mem => eq ▸ first e' mem, rest⟩
      · rw [upsert, if_neg gt.asymm, if_pos gt]
        refine List.pairwise_cons.mpr ⟨fun e' mem => ?_, ascending⟩
        rcases List.mem_cons.mp mem with rfl | mem
        · exact gt
        · exact gt.trans (first e' mem)

end Upsert

section Group

variable {α K V : Type} (key : α → K) (d : V) (f : V → α → V)

/-- Group a list by a key, with a fold of the elements for each key. -/
def group [LT K] [DecidableLT K] (xs : List α) : List (K × V) :=
  xs.foldl (fun m x => upsert (key x) d (fun v => f v x) m) []

variable [LinearOrder K]

theorem group_concat (xs : List α) (x : α) :
    group key d f (xs ++ [x]) = upsert (key x) d (fun v => f v x) (group key d f xs) := by
  rw [group, List.foldl_append]
  rfl

theorem ascending_group (xs : List α) : Ascending (group key d f xs) := by
  induction xs using List.reverseRecOn with
  | nil => exact List.Pairwise.nil
  | append_singleton xs x ih =>
      rw [group_concat]
      exact ascending_upsert ih

/-- The elements of a list with a key, and their fold. -/
def foldAt (k : K) (xs : List α) : V :=
  (xs.filter fun x => key x = k).foldl f d

variable {key} in
theorem foldAt_concat_own (xs : List α) {x : α} {k : K} (own : key x = k) :
    foldAt key d f k (xs ++ [x]) = f (foldAt key d f k xs) x := by
  unfold foldAt
  rw [List.filter_append, List.filter_cons_of_pos (by simpa using own), List.filter_nil,
    List.foldl_append]
  rfl

variable {key} in
theorem foldAt_concat_other (xs : List α) {x : α} {k : K} (other : key x ≠ k) :
    foldAt key d f k (xs ++ [x]) = foldAt key d f k xs := by
  unfold foldAt
  rw [List.filter_append, List.filter_cons_of_neg (by simpa using other), List.filter_nil,
    List.append_nil]

variable {key} in
theorem foldAt_absent {xs : List α} {k : K} (absent : ∀ x ∈ xs, key x ≠ k) :
    foldAt key d f k xs = d := by
  unfold foldAt
  rw [List.filter_eq_nil_iff.mpr fun x mem => by simpa using absent x mem]
  rfl

/-- The entries of a grouping: each key of the list with the fold of its own elements. -/
theorem mem_group {xs : List α} {k : K} {v : V} :
    (k, v) ∈ group key d f xs ↔ (∃ x ∈ xs, key x = k) ∧ v = foldAt key d f k xs := by
  induction xs using List.reverseRecOn generalizing k v with
  | nil => simp [group]
  | append_singleton xs x ih =>
      rw [group_concat, mem_upsert (ascending_group key d f xs)]
      by_cases own : key x = k
      · subst own
        rw [foldAt_concat_own d f xs rfl]
        have here : ∃ y ∈ xs ++ [x], key y = key x :=
          ⟨x, List.mem_append_right _ List.mem_cons_self, rfl⟩
        constructor
        · rintro (⟨-, other⟩ | ⟨w, mem, eq⟩ | ⟨absent, eq⟩)
          · exact absurd rfl other
          · rw [(Prod.mk.inj eq).2, (ih.mp mem).2]
            exact ⟨here, rfl⟩
          · have fresh : ∀ y ∈ xs, key y ≠ key x :=
              fun y hy => absent _ (ih.mpr ⟨⟨y, hy, rfl⟩, rfl⟩)
            rw [(Prod.mk.inj eq).2, foldAt_absent d f fresh]
            exact ⟨here, rfl⟩
        · rintro ⟨-, rfl⟩
          by_cases earlier : ∃ y ∈ xs, key y = key x
          · exact .inr (.inl ⟨_, ih.mpr ⟨earlier, rfl⟩, rfl⟩)
          · have fresh : ∀ y ∈ xs, key y ≠ key x := fun y hy same => earlier ⟨y, hy, same⟩
            refine .inr (.inr ⟨fun e' mem same => ?_, by rw [foldAt_absent d f fresh]⟩)
            obtain ⟨y, hy, eq⟩ := (ih.mp mem).1
            exact fresh y hy (eq.trans same)
      · rw [foldAt_concat_other d f xs own, ih]
        constructor
        · rintro (⟨⟨⟨y, hy, eq⟩, value⟩, -⟩ | ⟨w, -, eq⟩ | ⟨-, eq⟩)
          · exact ⟨⟨y, List.mem_append_left _ hy, eq⟩, value⟩
          · exact absurd (Prod.mk.inj eq).1.symm own
          · exact absurd (Prod.mk.inj eq).1.symm own
        · rintro ⟨⟨y, hy, eq⟩, value⟩
          rcases List.mem_append.mp hy with old | new
          · exact .inl ⟨⟨⟨y, old, eq⟩, value⟩, fun same => own same.symm⟩
          · obtain rfl := List.mem_singleton.mp new
            exact absurd eq own

/-- A list in ascending order with the entries of a grouping is the grouping. -/
theorem eq_group {xs : List α} {m : List (K × V)} (ascending : Ascending m)
    (entries : ∀ k v, (k, v) ∈ m ↔ (∃ x ∈ xs, key x = k) ∧ v = foldAt key d f k xs) :
    m = group key d f xs := by
  have : Std.Antisymm fun e e' : K × V => e.1 < e'.1 := ⟨fun _ _ h h' => absurd h' h.asymm⟩
  have : Std.Irrefl fun e e' : K × V => e.1 < e'.1 := ⟨fun e => lt_irrefl e.1⟩
  refine List.Pairwise.eq_of_mem_iff ascending (ascending_group key d f xs) fun e => ?_
  rw [entries, mem_group]

end Group

end StockMarket
