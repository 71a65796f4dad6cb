import Mathlib.Algebra.Order.BigOperators.Group.List
import Mathlib.Algebra.Order.Group.Int
import Mathlib.Data.Int.Cast.Lemmas
import Mathlib.Data.List.Infix
import Mathlib.Tactic.NoncommRing

/-!
Greedy filling of a demand from a list of supplies.

A demand `q` is filled from the supplies of a list in order: each supply gives
what is still needed, up to its capacity, until the demand is met. `take` lists
what was taken, `rest` what is left of the supplies, a partly used supply
shrunk by what it gave.

* `take_append`, `rest_append`: filling from `xs ++ ys` is filling from `xs` and
  then, with the unmet part of the demand, from `ys`.
* `take_split`: with positive capacities the filled supplies are a prefix, all
  used up but possibly the last one.
* `taken_eq_min`: the filled amount is the demand or everything there is.
* `weighted_sum`: a weight that shrinking does not change is conserved.
-/

namespace StockMarket.Greedy

variable {α : Type}

/-- What is taken from each supply, in order. -/
def take (cap : α → ℤ) : ℤ → List α → List (α × ℤ)
  | _, [] => []
  | q, x :: xs => if 0 < q then (x, min q (cap x)) :: take cap (q - min q (cap x)) xs else []

/-- What is left of the supplies; `shrink x a` is `x` after it gave `a`. -/
def rest (cap : α → ℤ) (shrink : α → ℤ → α) : ℤ → List α → List α
  | _, [] => []
  | q, x :: xs =>
    if 0 < q then
      if cap x ≤ q then rest cap shrink (q - cap x) xs else shrink x q :: xs
    else x :: xs

/-- The total amount taken. -/
def taken (cap : α → ℤ) (q : ℤ) (xs : List α) : ℤ :=
  ((take cap q xs).map Prod.snd).sum

section

variable {cap : α → ℤ} {shrink : α → ℤ → α}

@[simp] theorem take_nil (q : ℤ) : take cap q [] = [] := rfl

@[simp] theorem rest_nil (q : ℤ) : rest cap shrink q [] = [] := rfl

@[simp] theorem taken_nil (q : ℤ) : taken cap q [] = 0 := rfl

theorem take_of_nonpos {q : ℤ} (h : q ≤ 0) (xs : List α) : take cap q xs = [] := by
  cases xs with
  | nil => rfl
  | cons x xs => rw [take, if_neg (not_lt.mpr h)]

theorem rest_of_nonpos {q : ℤ} (h : q ≤ 0) (xs : List α) : rest cap shrink q xs = xs := by
  cases xs with
  | nil => rfl
  | cons x xs => rw [rest, if_neg (not_lt.mpr h)]

theorem taken_of_nonpos {q : ℤ} (h : q ≤ 0) (xs : List α) : taken cap q xs = 0 := by
  simp [taken, take_of_nonpos h]

theorem taken_cons {q : ℤ} (h : 0 < q) (x : α) (xs : List α) :
    taken cap q (x :: xs) = min q (cap x) + taken cap (q - min q (cap x)) xs := by
  simp [taken, take, h]

/-- Filling from two lists one after the other. -/
theorem take_append : ∀ (q : ℤ) (xs ys : List α),
    take cap q (xs ++ ys) = take cap q xs ++ take cap (q - taken cap q xs) ys
  | q, [], ys => by simp
  | q, x :: xs, ys => by
      by_cases h : 0 < q
      · have ih := take_append (q - min q (cap x)) xs ys
        rw [taken_cons h, ← sub_sub, List.cons_append, take, if_pos h, take, if_pos h, ih]
        rfl
      · have h := not_lt.mp h
        rw [take_of_nonpos h, taken_of_nonpos h, sub_zero, take_of_nonpos h, take_of_nonpos h]
        rfl

theorem taken_append (q : ℤ) (xs ys : List α) :
    taken cap q (xs ++ ys) = taken cap q xs + taken cap (q - taken cap q xs) ys := by
  rw [taken, take_append, List.map_append, List.sum_append]
  rfl

theorem rest_append : ∀ (q : ℤ) (xs ys : List α),
    rest cap shrink q (xs ++ ys)
      = rest cap shrink q xs ++ rest cap shrink (q - taken cap q xs) ys
  | q, [], ys => by simp
  | q, x :: xs, ys => by
      by_cases h : 0 < q
      · rw [taken_cons h, ← sub_sub, List.cons_append, rest, if_pos h, rest, if_pos h]
        by_cases full : cap x ≤ q
        · rw [if_pos full, if_pos full, min_eq_right full]
          exact rest_append _ xs ys
        · -- `x` meets the demand: nothing more is taken from `xs` or `ys`
          have met : q - min q (cap x) = 0 := by rw [min_eq_left (not_le.mp full).le, sub_self]
          rw [if_neg full, if_neg full, met, taken_of_nonpos le_rfl, sub_zero,
            rest_of_nonpos le_rfl]
          rfl
      · have h := not_lt.mp h
        rw [rest_of_nonpos h, taken_of_nonpos h, sub_zero, rest_of_nonpos h, rest_of_nonpos h]

variable (cap shrink) in
/-- **The filled supplies are a prefix.** Everything before the last touched
supply is used up; the last one gives between one unit and all it has. -/
theorem take_split : ∀ {q : ℤ} {xs : List α}, 0 < q → (∀ x ∈ xs, 0 < cap x) → xs ≠ [] →
    ∃ (full : List α) (last : α) (others : List α) (a : ℤ),
      xs = full ++ last :: others ∧ 0 < a ∧ a ≤ cap last ∧
      take cap q xs = full.map (fun x => (x, cap x)) ++ [(last, a)] ∧
      rest cap shrink q xs = (if a = cap last then [] else [shrink last a]) ++ others
  | _, [], _, _, ne => absurd rfl ne
  | q, x :: xs, hq, pos, _ => by
      have posx := pos x List.mem_cons_self
      by_cases full : cap x ≤ q
      · have unmet : min q (cap x) = cap x := min_eq_right full
        by_cases done : q - cap x ≤ 0
        · refine ⟨[], x, xs, cap x, rfl, posx, le_rfl, ?_, ?_⟩
          · rw [take, if_pos hq, unmet, take_of_nonpos done]; rfl
          · rw [rest, if_pos hq, if_pos full, rest_of_nonpos done, if_pos rfl]; rfl
        · cases xs with
          | nil =>
              refine ⟨[], x, [], cap x, rfl, posx, le_rfl, ?_, ?_⟩
              · simp [take, hq, unmet]
              · simp [rest, hq, full]
          | cons y ys =>
              obtain ⟨done', last, others, a, eq, apos, ale, htake, hrest⟩ :=
                take_split (not_le.mp done)
                  (fun z hz => pos z (List.mem_cons_of_mem _ hz)) (List.cons_ne_nil y ys)
              refine ⟨x :: done', last, others, a, by rw [eq]; rfl, apos, ale, ?_, ?_⟩
              · rw [take, if_pos hq, unmet, htake]; rfl
              · rw [rest, if_pos hq, if_pos full, hrest]
      · have lt := not_le.mp full
        have met : min q (cap x) = q := min_eq_left lt.le
        refine ⟨[], x, xs, q, rfl, hq, lt.le, ?_, ?_⟩
        · rw [take, if_pos hq, met, sub_self, take_of_nonpos le_rfl]; rfl
        · rw [rest, if_pos hq, if_neg full, if_neg lt.ne]; rfl

/-- **The filled amount** is the demand, or the whole supply if that is less. -/
theorem taken_eq_min : ∀ {q : ℤ} {xs : List α}, 0 ≤ q → (∀ x ∈ xs, 0 ≤ cap x) →
    taken cap q xs = min q (xs.map cap).sum
  | q, [], hq, _ => by simp [hq]
  | q, x :: xs, hq, nonneg => by
      have nonnegx := nonneg x List.mem_cons_self
      have nonneg' : ∀ y ∈ xs, 0 ≤ cap y := fun y hy => nonneg y (List.mem_cons_of_mem _ hy)
      have total : 0 ≤ (xs.map cap).sum :=
        List.sum_nonneg fun z hz => by
          obtain ⟨y, hy, rfl⟩ := List.mem_map.mp hz
          exact nonneg' y hy
      rw [List.map_cons, List.sum_cons]
      by_cases h : 0 < q
      · rw [taken_cons h, taken_eq_min (by omega) nonneg']
        omega
      · rw [taken_of_nonpos (not_lt.mp h)]
        omega

theorem taken_le {q : ℤ} {xs : List α} (hq : 0 ≤ q) (nonneg : ∀ x ∈ xs, 0 ≤ cap x) :
    taken cap q xs ≤ q := by
  rw [taken_eq_min hq nonneg]
  exact min_le_left _ _

/-- Every amount taken is positive and within the supply's capacity. -/
theorem amount_bounds {q : ℤ} {xs : List α} (pos : ∀ x ∈ xs, 0 < cap x) {p : α × ℤ}
    (mem : p ∈ take cap q xs) : p.1 ∈ xs ∧ 0 < p.2 ∧ p.2 ≤ cap p.1 := by
  induction xs generalizing q with
  | nil => simp at mem
  | cons x xs ih =>
      by_cases h : 0 < q
      · rw [take, if_pos h, List.mem_cons] at mem
        rcases mem with rfl | mem
        · have := pos x List.mem_cons_self
          exact ⟨List.mem_cons_self, by simp only [lt_min_iff]; omega, min_le_right _ _⟩
        · obtain ⟨hx, bounds⟩ := ih (fun y hy => pos y (List.mem_cons_of_mem _ hy)) mem
          exact ⟨List.mem_cons_of_mem _ hx, bounds⟩
      · rw [take_of_nonpos (not_lt.mp h)] at mem
        cases mem

/-- What is left is untouched, or the shrunk form of a supply that had more
than it gave. -/
theorem mem_rest {q : ℤ} {xs : List α} {y : α} (mem : y ∈ rest cap shrink q xs) :
    y ∈ xs ∨ ∃ x ∈ xs, ∃ a, 0 < a ∧ a < cap x ∧ y = shrink x a := by
  induction xs generalizing q with
  | nil => simp at mem
  | cons x xs ih =>
      by_cases h : 0 < q
      · rw [rest, if_pos h] at mem
        by_cases full : cap x ≤ q
        · rw [if_pos full] at mem
          rcases ih mem with hy | ⟨z, hz, a, bounds⟩
          · exact .inl (List.mem_cons_of_mem _ hy)
          · exact .inr ⟨z, List.mem_cons_of_mem _ hz, a, bounds⟩
        · rw [if_neg full, List.mem_cons] at mem
          rcases mem with rfl | hy
          · exact .inr ⟨x, List.mem_cons_self, q, h, not_le.mp full, rfl⟩
          · exact .inl (List.mem_cons_of_mem _ hy)
      · rw [rest_of_nonpos (not_lt.mp h)] at mem
        exact .inl mem

variable (cap) in
/-- What shrinking leaves alone, read off what is left, is a suffix of what it was. -/
theorem rest_map_suffix {β : Type} (key : α → β) (keyShrink : ∀ x a, key (shrink x a) = key x) :
    ∀ (q : ℤ) (xs : List α), (rest cap shrink q xs).map key <:+ xs.map key
  | _, [] => List.suffix_refl _
  | q, x :: xs => by
      by_cases h : 0 < q
      · rw [rest, if_pos h]
        by_cases full : cap x ≤ q
        · rw [if_pos full]
          exact (rest_map_suffix key keyShrink _ xs).trans (List.suffix_cons _ _)
        · rw [if_neg full, List.map_cons, List.map_cons, keyShrink]
      · rw [rest_of_nonpos (not_lt.mp h)]

/-- **Conservation of weight.** A weight per unit that shrinking leaves alone is
split between what was taken and what is left. -/
theorem weighted_sum {R : Type} [Ring R] (w : α → R)
    (capShrink : ∀ x a, cap (shrink x a) = cap x - a) (wShrink : ∀ x a, w (shrink x a) = w x) :
    ∀ (q : ℤ) (xs : List α), (xs.map fun x => w x * (cap x : R)).sum
      = ((take cap q xs).map fun p => w p.1 * (p.2 : R)).sum
        + ((rest cap shrink q xs).map fun x => w x * (cap x : R)).sum
  | q, [] => by simp
  | q, x :: xs => by
      by_cases h : 0 < q
      · rw [take, if_pos h, rest, if_pos h]
        by_cases full : cap x ≤ q
        · rw [if_pos full, min_eq_right full]
          have ih := weighted_sum w capShrink wShrink (q - cap x) xs
          simp only [List.map_cons, List.sum_cons, ih, add_assoc]
        · rw [if_neg full, min_eq_left (not_le.mp full).le, sub_self, take_of_nonpos le_rfl]
          simp only [List.map_cons, List.sum_cons, List.map_nil, List.sum_nil, wShrink, capShrink,
            Int.cast_sub]
          noncomm_ring
      · rw [take_of_nonpos (not_lt.mp h), rest_of_nonpos (not_lt.mp h)]
        simp

/-- Filling from renamed supplies. -/
theorem take_map {β : Type} (f : β → α) : ∀ (q : ℤ) (xs : List β),
    take cap q (xs.map f) = (take (cap ∘ f) q xs).map fun p => (f p.1, p.2)
  | _, [] => rfl
  | q, x :: xs => by
      by_cases h : 0 < q
      · rw [List.map_cons, take, if_pos h, take, if_pos h, take_map f]
        rfl
      · rw [take_of_nonpos (not_lt.mp h), take_of_nonpos (not_lt.mp h)]
        rfl

theorem taken_map {β : Type} (f : β → α) (q : ℤ) (xs : List β) :
    taken cap q (xs.map f) = taken (cap ∘ f) q xs := by
  simp [taken, take_map, Function.comp_def]

theorem rest_map {β : Type} (f : β → α) {shrink' : β → ℤ → β}
    (compat : ∀ x a, shrink (f x) a = f (shrink' x a)) : ∀ (q : ℤ) (xs : List β),
    rest cap shrink q (xs.map f) = (rest (cap ∘ f) shrink' q xs).map f
  | _, [] => rfl
  | q, x :: xs => by
      by_cases h : 0 < q
      · rw [List.map_cons, rest, if_pos h, rest, if_pos h]
        by_cases full : cap (f x) ≤ q
        · rw [if_pos full, if_pos (show (cap ∘ f) x ≤ q from full)]
          exact rest_map f compat _ xs
        · rw [if_neg full, if_neg (show ¬(cap ∘ f) x ≤ q from full), compat, List.map_cons]
      · rw [rest_of_nonpos (not_lt.mp h), rest_of_nonpos (not_lt.mp h)]

end

end StockMarket.Greedy
