import Mathlib.Data.List.Basic

/-!
Runs of steps some of which do not depend on each other.

Every step has a key, and steps of different keys may be swapped (`Independent`). Runs with the
same steps of each key, in the same order, have the same steps (`perm_of_filter_eq`).
-/

namespace StockMarket

variable {α κ σ : Type}

/-- Steps of different keys may be swapped. -/
def Independent (key : α → κ) (f : σ → α → σ) : Prop :=
  ∀ s a b, key a ≠ key b → f (f s a) b = f (f s b) a

namespace Independent

variable [DecidableEq κ]

/-- Lists with the same subsequences have the same elements. -/
theorem perm_of_filter_eq (key : α → κ) {l l' : List α}
    (same : ∀ k, (l.filter fun a => key a = k) = l'.filter fun a => key a = k) : l.Perm l' := by
  classical
  refine List.perm_iff_count.mpr fun a => ?_
  have counted : ∀ os : List α, (os.filter fun b => key b = key a).count a = os.count a :=
    fun os => List.count_filter (by simp)
  rw [← counted l, ← counted l', same]

end Independent

end StockMarket
