import Mathlib.Algebra.BigOperators.Group.List.Basic
import Mathlib.Logic.Relation
import Mathlib.Tactic.Abel

/-!
Programs over shared state as trees of atomic actions, and their interleavings.

A `Prog σ α` is what a thread still has to do: it has finished with a result, or
its next step is an atomic action on the shared state whose outcome decides how
it goes on. `exec` runs a program alone; `Step` lets any thread of a pool take
its next action, so `Interleaves` relates a pool to every state it can reach
under any schedule.

The rule for conservation laws is `interleaves_keep_ledger`: if every thread owes
the ledger a known amount, every action moves between the ledger and the amount
owed, and no action changes some fixed quantity, then the fixed quantity and
ledger plus debts are the same at every moment. `Owes` is the per-thread
condition; it is checked one action at a time, without looking at the other
threads.
-/

namespace StockMarket.Atomic

inductive Prog (σ α : Type) : Type 1 where
  | ret (a : α)
  | act {β : Type} (action : σ → β × σ) (next : β → Prog σ α)

namespace Prog

variable {σ α β : Type}

/-- Do one program after the other. -/
def bind : Prog σ α → (α → Prog σ β) → Prog σ β
  | .ret a, k => k a
  | .act action next, k => .act action fun b => (next b).bind k

instance : Monad (Prog σ) where
  pure := .ret
  bind := bind

/-- One atomic action. -/
def step (action : σ → α × σ) : Prog σ α := .act action .ret

/-- An action that only looks. -/
def read (f : σ → α) : Prog σ α := .step fun s => (f s, s)

/-- An action that only changes the state. -/
def modify (f : σ → σ) : Prog σ Unit := .step fun s => ((), f s)

/-- The program run alone. -/
def exec : Prog σ α → σ → α × σ
  | .ret a, s => (a, s)
  | .act action next, s => (next (action s).1).exec (action s).2

@[simp] theorem exec_pure (a : α) (s : σ) : (pure a : Prog σ α).exec s = (a, s) := rfl

@[simp] theorem exec_step (action : σ → α × σ) (s : σ) : (step action).exec s = action s := rfl

@[simp] theorem exec_modify (f : σ → σ) (s : σ) : (modify f).exec s = ((), f s) := rfl

@[simp] theorem exec_ite (c : Prop) [Decidable c] (p q : Prog σ α) (s : σ) :
    (if c then p else q).exec s = if c then p.exec s else q.exec s := by
  split <;> rfl

@[simp] theorem exec_bind : ∀ (p : Prog σ α) (k : α → Prog σ β) (s : σ),
    (p >>= k).exec s = (k (p.exec s).1).exec (p.exec s).2
  | .ret _, _, _ => rfl
  | .act action next, k, s => exec_bind (next (action s).1) k (action s).2

/-- The program on a part of a larger state. -/
def zoom {τ : Type} (get : τ → σ) (set : σ → τ → τ) : Prog σ α → Prog τ α
  | .ret a => .ret a
  | .act action next =>
    .act (fun t => ((action (get t)).1, set (action (get t)).2 t)) fun b => (next b).zoom get set

/-- What is left of the program after some actions, and the state then. -/
def advance : Nat → Prog σ α → σ → Prog σ α × σ
  | 0, p, s => (p, s)
  | _ + 1, .ret a, s => (.ret a, s)
  | n + 1, .act action next, s => (next (action s).1).advance n (action s).2

/-- What a program reads, it can use at once. -/
theorem exec_read_bind (f : σ → α) (k : α → Prog σ β) (s : σ) :
    (read f >>= k).exec s = (k (f s)).exec s := rfl

end Prog

/-! ### Interleaving -/

section

variable {σ α : Type}

/-- Some thread of the pool takes its next action. -/
inductive Step : σ × List (Prog σ α) → σ × List (Prog σ α) → Prop where
  | act {β : Type} (s : σ) (before after : List (Prog σ α)) (action : σ → β × σ)
      (next : β → Prog σ α) :
      Step (s, before ++ .act action next :: after)
        ((action s).2, before ++ next (action s).1 :: after)

/-- The pool gets from one state to the other under some schedule. -/
abbrev Interleaves : σ × List (Prog σ α) → σ × List (Prog σ α) → Prop :=
  Relation.ReflTransGen Step

/-- One possible schedule: a thread runs to its end while the others wait. -/
theorem interleaves_exec (before after : List (Prog σ α)) : ∀ (p : Prog σ α) (s : σ),
    Interleaves (s, before ++ p :: after) ((p.exec s).2, before ++ .ret (p.exec s).1 :: after)
  | .ret _, _ => .refl
  | .act action next, s =>
      .head (.act s before after action next)
        (interleaves_exec before after (next (action s).1) (action s).2)

/-- A thread takes some actions while the others wait. -/
theorem interleaves_advance (before after : List (Prog σ α)) : ∀ (n : Nat) (p : Prog σ α) (s : σ),
    Interleaves (s, before ++ p :: after) ((p.advance n s).2, before ++ (p.advance n s).1 :: after)
  | 0, _, _ => .refl
  | _ + 1, .ret _, _ => .refl
  | n + 1, .act action next, s =>
      .head (.act s before after action next)
        (interleaves_advance before after n (next (action s).1) (action s).2)

/-- A thread that has finished took its first step at some point of the run. -/
theorem Interleaves.first_step {β : Type} {action : σ → β × σ} {next : β → Prog σ α} {s s' : σ}
    {ps ps' : List (Prog σ α)} {a : α}
    (run : Interleaves (s, .act action next :: ps) (s', .ret a :: ps')) :
    ∃ s₁ ps₁, Interleaves (s, ps) (s₁, ps₁) ∧
      Interleaves ((action s₁).2, next (action s₁).1 :: ps₁) (s', .ret a :: ps') := by
  suffices ∀ c, Interleaves c (s', .ret a :: ps') → ∀ s ps, c = (s, .act action next :: ps) →
      ∃ s₁ ps₁, Interleaves (s, ps) (s₁, ps₁) ∧
        Interleaves ((action s₁).2, next (action s₁).1 :: ps₁) (s', .ret a :: ps') from
    this _ run s ps rfl
  intro c run
  induction run using Relation.ReflTransGen.head_induction_on with
  | refl => rintro s ps ⟨⟩
  | head step rest ih =>
      rintro s ps rfl
      generalize start : (s, Prog.act action next :: ps) = c at step
      cases step with
      | act s before after action' next' =>
          cases before with
          | nil =>
              cases start
              exact ⟨s, ps, .refl, rest⟩
          | cons p before =>
              cases start
              obtain ⟨s₁, ps₁, others, later⟩ := ih _ _ rfl
              exact ⟨s₁, ps₁, .head (.act s before after action' next') others, later⟩

/-- A thread that has finished stays as it is. -/
theorem Interleaves.of_ret {s s' : σ} {ps ps' : List (Prog σ α)} {a : α} {p : Prog σ α}
    (run : Interleaves (s, .ret a :: ps) (s', p :: ps')) :
    p = .ret a ∧ Interleaves (s, ps) (s', ps') := by
  suffices ∀ c, Interleaves c (s', p :: ps') → ∀ s ps, c = (s, .ret a :: ps) →
      p = .ret a ∧ Interleaves (s, ps) (s', ps') from this _ run s ps rfl
  intro c run
  induction run using Relation.ReflTransGen.head_induction_on with
  | refl =>
      rintro s ps ⟨⟩
      exact ⟨rfl, .refl⟩
  | head step rest ih =>
      rintro s ps rfl
      generalize start : (s, (Prog.ret a : Prog σ α) :: ps) = c at step
      cases step with
      | act s before after action next =>
          cases before with
          | nil => cases start
          | cons q before =>
              cases start
              obtain ⟨same, others⟩ := ih _ _ rfl
              exact ⟨same, .head (.act s before after action next) others⟩

/-- Every thread has finished. -/
def Finished (ps : List (Prog σ α)) : Prop :=
  ∀ p ∈ ps, ∃ a, p = .ret a

end

/-! ### Invariants -/

section

variable {σ α β : Type} (inv : σ → Prop)

/-- Every action of the program keeps the invariant. -/
def Keeps : Prog σ α → Prop
  | .ret _ => True
  | .act action next => ∀ s, inv s → inv (action s).2 ∧ Keeps (next (action s).1)

variable {inv}

theorem Keeps.bind : ∀ {p : Prog σ α} {k : α → Prog σ β}, Keeps inv p → (∀ a, Keeps inv (k a)) →
    Keeps inv (p >>= k)
  | .ret a, _, _, rest => rest a
  | .act _ _, _, keeps, rest => fun s holds =>
      ⟨(keeps s holds).1, (keeps s holds).2.bind rest⟩

/-- A program keeps of a large state what it keeps of the part that it works on. -/
theorem Keeps.zoom {τ : Type} {get : τ → σ} {set : σ → τ → τ} {large : τ → Prop}
    (part : ∀ t, large t → inv (get t)) (whole : ∀ t s, large t → inv s → large (set s t)) :
    ∀ {p : Prog σ α}, Keeps inv p → Keeps large (p.zoom get set)
  | .ret _, _ => trivial
  | .act _ _, keeps => fun t holds =>
      ⟨whole t _ holds (keeps _ (part t holds)).1, (keeps _ (part t holds)).2.zoom part whole⟩

/-- **The invariant rule**: what every thread keeps holds at every moment of every
schedule. -/
theorem interleaves_keep {c c' : σ × List (Prog σ α)} (run : Interleaves c c') (holds : inv c.1)
    (keep : ∀ p ∈ c.2, Keeps inv p) : inv c'.1 ∧ ∀ p ∈ c'.2, Keeps inv p := by
  induction run with
  | refl => exact ⟨holds, keep⟩
  | tail _ step ih =>
      obtain ⟨holds, keep⟩ := ih
      cases step with
      | act s before after action next =>
          obtain ⟨kept, later⟩ := keep (.act action next) (by simp) s holds
          refine ⟨kept, fun p mem => ?_⟩
          rcases List.mem_append.mp mem with mem | mem
          · exact keep p (List.mem_append_left _ mem)
          · rcases List.mem_cons.mp mem with rfl | mem
            · exact later
            · exact keep p (List.mem_append_right _ (List.mem_cons_of_mem _ mem))

end

/-! ### Ledgers -/

section

variable {σ α β T G : Type} [AddCommGroup G] (fixed : σ → T) (ledger : σ → G)

/-- The thread still has to add `d` to the ledger: whatever it does to the ledger
is taken off what it owes, and it finishes with no debt. It never changes the
fixed quantity. -/
def Owes : Prog σ α → G → Prop
  | .ret _, d => d = 0
  | .act action next, d =>
    ∀ s, fixed (action s).2 = fixed s ∧
      ∃ d', ledger (action s).2 + d' = ledger s + d ∧ Owes (next (action s).1) d'

variable {fixed ledger}

theorem Owes.bind : ∀ {p : Prog σ α} {k : α → Prog σ β} {d : G},
    Owes fixed ledger p d → (∀ a, Owes fixed ledger (k a) 0) → Owes fixed ledger (p >>= k) d
  | .ret a, k, d, owes, rest => by
      obtain rfl : d = 0 := owes
      exact rest a
  | .act action next, k, d, owes, rest => by
      intro s
      obtain ⟨kept, d', moved, later⟩ := owes s
      exact ⟨kept, d', moved, later.bind rest⟩

/-- One program after the other, each with a debt of its own. -/
theorem Owes.bind_add : ∀ {p : Prog σ α} {k : α → Prog σ β} {d d' : G},
    Owes fixed ledger p d → (∀ a, Owes fixed ledger (k a) d') →
      Owes fixed ledger (p >>= k) (d + d')
  | .ret a, k, d, d', owes, rest => by
      obtain rfl : d = 0 := owes
      rw [zero_add]
      exact rest a
  | .act action next, k, d, d', owes, rest => by
      intro s
      obtain ⟨kept, left, moved, later⟩ := owes s
      exact ⟨kept, left + d', by rw [← add_assoc, moved, add_assoc], later.bind_add rest⟩

/-- An action that touches neither the fixed quantity nor the ledger. -/
theorem Owes.act_of_eq {p : α → Prog σ β} {action : σ → α × σ} {d : G}
    (kept : ∀ s, fixed (action s).2 = fixed s) (same : ∀ s, ledger (action s).2 = ledger s)
    (rest : ∀ s, Owes fixed ledger (p (action s).1) d) :
    Owes fixed ledger (Prog.act action p) d :=
  fun s => ⟨kept s, d, by rw [same s], rest s⟩

/-- One step of any thread moves between the ledger and that thread's debt. -/
theorem Step.keeps_ledger {c c' : σ × List (Prog σ α)} (step : Step c c') {debts : List G}
    (owes : List.Forall₂ (Owes fixed ledger) c.2 debts) :
    fixed c'.1 = fixed c.1 ∧ ∃ debts', List.Forall₂ (Owes fixed ledger) c'.2 debts' ∧
      ledger c'.1 + debts'.sum = ledger c.1 + debts.sum := by
  cases step with
  | act s before after action next =>
      change List.Forall₂ (Owes fixed ledger) (before ++ Prog.act action next ::
        after) debts at owes
      obtain ⟨db, da, hb, ha, rfl⟩ : ∃ db da, List.Forall₂ (Owes fixed ledger) before db ∧
          List.Forall₂ (Owes fixed ledger) (.act action next :: after) da ∧ debts = db ++ da := by
        refine ⟨debts.take before.length, debts.drop before.length, ?_, ?_,
          (List.take_append_drop _ _).symm⟩
        · simpa only [List.take_left] using List.forall₂_take before.length owes
        · simpa only [List.drop_left] using List.forall₂_drop before.length owes
      obtain ⟨d, da, hd, hrest, rfl⟩ := List.forall₂_cons_left_iff.mp ha
      obtain ⟨kept, d', moved, hd'⟩ := hd s
      refine ⟨kept, db ++ d' :: da, List.rel_append hb (.cons hd' hrest), ?_⟩
      simp only [List.sum_append, List.sum_cons]
      calc ledger (action s).2 + (db.sum + (d' + da.sum))
          = ledger (action s).2 + d' + (db.sum + da.sum) := by abel
        _ = ledger s + d + (db.sum + da.sum) := by rw [moved]
        _ = ledger s + (db.sum + (d + da.sum)) := by abel

/-- **The ledger rule**: the fixed quantity, and ledger plus debts, are the same at
every moment of every schedule. -/
theorem interleaves_keep_ledger {c c' : σ × List (Prog σ α)} (run : Interleaves c c')
    {debts : List G} (owes : List.Forall₂ (Owes fixed ledger) c.2 debts) :
    fixed c'.1 = fixed c.1 ∧ ∃ debts', List.Forall₂ (Owes fixed ledger) c'.2 debts' ∧
      ledger c'.1 + debts'.sum = ledger c.1 + debts.sum := by
  induction run with
  | refl => exact ⟨rfl, debts, owes, rfl⟩
  | tail _ step ih =>
      obtain ⟨kept₁, debts₁, owes₁, eq₁⟩ := ih
      obtain ⟨kept₂, debts₂, owes₂, eq₂⟩ := step.keeps_ledger owes₁
      exact ⟨kept₂.trans kept₁, debts₂, owes₂, eq₂.trans eq₁⟩

/-- Finished threads owe nothing. -/
theorem debts_of_finished {ps : List (Prog σ α)} {debts : List G}
    (owes : List.Forall₂ (Owes fixed ledger) ps debts) (finished : Finished ps) :
    debts.sum = 0 := by
  induction owes with
  | nil => rfl
  | @cons p d ps ds owed _ ih =>
      obtain ⟨a, rfl⟩ := finished p List.mem_cons_self
      obtain rfl : d = 0 := owed
      rw [List.sum_cons, zero_add]
      exact ih fun q hq => finished q (List.mem_cons_of_mem _ hq)

/-- Threads that owe nothing, with the list of their debts. -/
theorem forall₂_replicate_zero : ∀ {ps : List (Prog σ α)}, (∀ p ∈ ps, Owes fixed ledger p 0) →
    List.Forall₂ (Owes fixed ledger) ps (List.replicate ps.length 0)
  | [], _ => .nil
  | p :: _, owe => .cons (owe p List.mem_cons_self)
      (forall₂_replicate_zero fun q hq => owe q (List.mem_cons_of_mem _ hq))

/-- **Conservation**: threads that started without debt never change the fixed
quantity, and leave the ledger as it was once all have finished. -/
theorem interleaves_conserve {s s' : σ} {ps ps' : List (Prog σ α)}
    (run : Interleaves (s, ps) (s', ps')) (owe : ∀ p ∈ ps, Owes fixed ledger p 0) :
    fixed s' = fixed s ∧ (Finished ps' → ledger s' = ledger s) := by
  obtain ⟨kept, debts, owes, eq⟩ := interleaves_keep_ledger run (forall₂_replicate_zero owe)
  refine ⟨kept, fun finished => ?_⟩
  have none := debts_of_finished owes finished
  rw [none, List.sum_replicate, nsmul_zero, add_zero, add_zero] at eq
  exact eq

end

end StockMarket.Atomic
