import Mathlib.Algebra.BigOperators.Group.List.Basic
import Mathlib.Logic.Relation
import Mathlib.Tactic.Abel

/-!
Threads as local states.

Where a step of a thread is not determined (a compare-and-exchange may fail for no
reason, a socket moves as many bytes as it likes), a thread of a pool is a local state,
and `step s t s' t'` says what it may do to the shared state and to itself. `Step` lets
any thread of the pool take a step.

There is a rule for what each thread knows (`Run.keep`), one for what moves between the
threads and the shared state (`Run.conserve`), and one for how long a pool can go on
(`length_le_work`).
-/

namespace StockMarket.Pool

variable {σ τ : Type}

/-- Some thread of the pool takes a step. -/
inductive Step (step : σ → τ → σ → τ → Prop) : σ × List τ → σ × List τ → Prop where
  | act {s s' : σ} {t t' : τ} (before after : List τ) (goes : step s t s' t') :
      Step step (s, before ++ t :: after) (s', before ++ t' :: after)

/-- The pool gets from one state to the other under some schedule. -/
abbrev Run (step : σ → τ → σ → τ → Prop) : σ × List τ → σ × List τ → Prop :=
  Relation.ReflTransGen (Step step)

variable {step : σ → τ → σ → τ → Prop}

/-! ### What each thread knows -/

/-- The shared state is as it should be, and so is each thread in it. -/
def Holds (inv : σ → Prop) (knows : σ → τ → Prop) (c : σ × List τ) : Prop :=
  inv c.1 ∧ ∀ t ∈ c.2, knows c.1 t

/-- A step keeps what all threads know, if it keeps what its own thread knows and what any
other one knows. -/
theorem Step.keep {inv : σ → Prop} {knows : σ → τ → Prop} {c c' : σ × List τ}
    (own : ∀ s t s' t', inv s → knows s t → step s t s' t' → inv s' ∧ knows s' t')
    (other : ∀ s t s' t' u, inv s → knows s t → knows s u → step s t s' t' → knows s' u)
    (goes : Step step c c') (holds : Holds inv knows c) : Holds inv knows c' := by
  obtain ⟨good, known⟩ := holds
  cases goes with
  | @act s s' t t' before after goes =>
      have now : knows s t := known t (by simp)
      obtain ⟨good', known'⟩ := own s t s' t' good now goes
      refine ⟨good', fun u mem => ?_⟩
      rcases List.mem_append.mp mem with mem | mem
      · exact other s t s' t' u good now (known u (List.mem_append_left _ mem)) goes
      · rcases List.mem_cons.mp mem with rfl | mem
        · exact known'
        · have old := known u (List.mem_append_right _ (List.mem_cons_of_mem _ mem))
          exact other s t s' t' u good now old goes

/-- **The invariant rule.** -/
theorem Run.keep {inv : σ → Prop} {knows : σ → τ → Prop} {c c' : σ × List τ}
    (own : ∀ s t s' t', inv s → knows s t → step s t s' t' → inv s' ∧ knows s' t')
    (other : ∀ s t s' t' u, inv s → knows s t → knows s u → step s t s' t' → knows s' u)
    (run : Run step c c') (holds : Holds inv knows c) : Holds inv knows c' := by
  induction run with
  | refl => exact holds
  | tail _ goes ih => exact goes.keep own other ih

/-- What no step changes of a thread stays the same for the whole pool. -/
theorem Run.map_eq {α : Type} {f : τ → α} {c c' : σ × List τ}
    (same : ∀ s t s' t', step s t s' t' → f t' = f t) (run : Run step c c') :
    c'.2.map f = c.2.map f := by
  induction run with
  | refl => rfl
  | tail _ goes ih =>
      rw [← ih]
      cases goes with
      | act before after goes =>
          simp only [List.map_append, List.map_cons, same _ _ _ _ goes]

/-! ### What moves -/

section

variable {M : Type} [AddCancelCommMonoid M] {shared : σ → M} {done : τ → M}

theorem Step.conserve {c c' : σ × List τ} (goes : Step step c c')
    (adds : ∀ s t s' t', step s t s' t' → shared s' + done t = shared s + done t') :
    shared c'.1 + (c.2.map done).sum = shared c.1 + (c'.2.map done).sum := by
  cases goes with
  | @act s s' t t' before after goes =>
      have added := adds s t s' t' goes
      simp only [List.map_append, List.map_cons, List.sum_append, List.sum_cons]
      calc shared s' + ((before.map done).sum + (done t + (after.map done).sum))
          = shared s' + done t + ((before.map done).sum + (after.map done).sum) := by abel
        _ = shared s + done t' + ((before.map done).sum + (after.map done).sum) := by rw [added]
        _ = shared s + ((before.map done).sum + (done t' + (after.map done).sum)) := by abel

/-- **The rule of conservation**: if every step adds to the shared state what its thread has
done more, so does every run. -/
theorem Run.conserve {c c' : σ × List τ} (run : Run step c c')
    (adds : ∀ s t s' t', step s t s' t' → shared s' + done t = shared s + done t') :
    shared c'.1 + (c.2.map done).sum = shared c.1 + (c'.2.map done).sum := by
  induction run with
  | refl => rfl
  | @tail c₁ c₂ _ goes ih =>
      have last := goes.conserve adds
      refine add_right_cancel (b := (c₁.2.map done).sum) ?_
      calc shared c₂.1 + (c.2.map done).sum + (c₁.2.map done).sum
          = shared c₂.1 + (c₁.2.map done).sum + (c.2.map done).sum := add_right_comm _ _ _
        _ = shared c₁.1 + (c₂.2.map done).sum + (c.2.map done).sum := by rw [last]
        _ = shared c₁.1 + (c.2.map done).sum + (c₂.2.map done).sum := add_right_comm _ _ _
        _ = shared c.1 + (c₁.2.map done).sum + (c₂.2.map done).sum := by rw [ih]
        _ = shared c.1 + (c₂.2.map done).sum + (c₁.2.map done).sum := add_right_comm _ _ _

end

/-! ### How long it goes on -/

/-- What is left to do for all threads. -/
def work (left : τ → Nat) (c : σ × List τ) : Nat :=
  (c.2.map left).sum

theorem Step.work_lt {inv : σ → Prop} {knows : σ → τ → Prop} {left : τ → Nat} {c c' : σ × List τ}
    (less : ∀ s t s' t', inv s → knows s t → step s t s' t' → left t' < left t)
    (goes : Step step c c') (holds : Holds inv knows c) : work left c' < work left c := by
  obtain ⟨good, known⟩ := holds
  cases goes with
  | @act s s' t t' before after goes =>
      have fewer := less s t s' t' good (known t (by simp)) goes
      simp only [work, List.map_append, List.map_cons, List.sum_append, List.sum_cons]
      omega

/-- **The rule of progress**: if every step leaves less to do, a pool takes no more steps than
there is to do. -/
theorem length_le_work {inv : σ → Prop} {knows : σ → τ → Prop} {left : τ → Nat}
    (own : ∀ s t s' t', inv s → knows s t → step s t s' t' → inv s' ∧ knows s' t')
    (other : ∀ s t s' t' u, inv s → knows s t → knows s u → step s t s' t' → knows s' u)
    (less : ∀ s t s' t', inv s → knows s t → step s t s' t' → left t' < left t)
    {cs : List (σ × List τ)} : ∀ {c : σ × List τ}, Holds inv knows c →
      List.IsChain (Step step) (c :: cs) → cs.length ≤ work left c := by
  induction cs with
  | nil => exact fun _ _ => Nat.zero_le _
  | cons c' cs ih =>
      intro c holds chain
      obtain ⟨goes, later⟩ := List.isChain_cons_cons.mp chain
      have rest := ih (goes.keep own other holds) later
      have first := goes.work_lt less holds
      rw [List.length_cons]
      omega

end StockMarket.Pool
