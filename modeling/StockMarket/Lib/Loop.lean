import Mathlib.Data.List.Forall2
import Mathlib.Data.List.Infix

/-!
Loops that report what they do.

A body takes a state to a new state and a list of events. `run step n` repeats a
partial step at most `n` times and collects one event a round; `chain body as`
runs a body once for every element of a list.

`Keeps` is what both preserve (`keeps_run`, `keeps_chain`): under an invariant,
every event satisfies a property, and a quantity is unchanged if all events are
fair. `Logged` is the same for a log that the state has and the bodies append to: some entries
for each event (`logged_run`, `logged_chain`). A loop that follows another one round by round
reports what the other does (`run_simulates`). `halted_run` says that a step with a decreasing
variant has halted when the run ends.
-/

namespace StockMarket.Loop

variable {σ ε α M : Type}

/-- At most `n` rounds of a step that returns nothing when the loop is left. -/
def run (step : σ → Option (σ × ε)) : ℕ → σ → σ × List ε
  | 0, s => (s, [])
  | n + 1, s =>
    match step s with
    | none => (s, [])
    | some (s', e) => ((run step n s').1, e :: (run step n s').2)

/-- A body for each element of a list, in order. -/
def chain (body : α → σ → σ × List ε) : List α → σ → σ × List ε
  | [], s => (s, [])
  | a :: as, s => ((chain body as (body a s).1).1, (body a s).2 ++ (chain body as (body a s).1).2)

/-- What a body from `s` to `out` keeps: the invariant holds after it, every event
satisfies `P`, and the quantity `m` is unchanged when every event is fair. -/
structure Kept (Inv : σ → Prop) (P Fair : ε → Prop) (m : σ → M) (s : σ) (out : σ × List ε) :
    Prop where
  inv : Inv out.1
  events : ∀ e ∈ out.2, P e
  quantity : (∀ e ∈ out.2, Fair e) → m out.1 = m s

/-- The body keeps these from every state with the invariant. -/
def Keeps (Inv : σ → Prop) (P Fair : ε → Prop) (m : σ → M) (body : σ → σ × List ε) : Prop :=
  ∀ s, Inv s → Kept Inv P Fair m s (body s)

variable {Inv : σ → Prop} {P Fair : ε → Prop} {m : σ → M} {step : σ → Option (σ × ε)}

/-- A body that does nothing keeps everything. -/
theorem Kept.idle {s : σ} (h : Inv s) : Kept Inv P Fair m s (s, []) :=
  ⟨h, fun _ mem => absurd mem List.not_mem_nil, fun _ => rfl⟩

/-- One body after the other. -/
theorem Kept.trans {s s' s'' : σ} {es es' : List ε} (first : Kept Inv P Fair m s (s', es))
    (later : Kept Inv P Fair m s' (s'', es')) : Kept Inv P Fair m s (s'', es ++ es') where
  inv := later.inv
  events := List.forall_mem_append.mpr ⟨first.events, later.events⟩
  quantity fair := by
    have ⟨fair, fair'⟩ := List.forall_mem_append.mp fair
    exact (later.quantity fair').trans (first.quantity fair)

theorem run_of_halted {s : σ} (halted : step s = none) : ∀ n, run step n s = (s, [])
  | 0 => rfl
  | n + 1 => by simp [run, halted]

theorem run_of_step {s s' : σ} {e : ε} (next : step s = some (s', e)) (n : ℕ) :
    run step (n + 1) s = ((run step n s').1, e :: (run step n s').2) := by
  simp [run, next]

/-- A run keeps what every round keeps. -/
theorem keeps_run
    (round : ∀ s s' e, Inv s → step s = some (s', e) → Kept Inv P Fair m s (s', [e])) :
    ∀ n, Keeps Inv P Fair m (run step n)
  | 0, _, h => .idle h
  | n + 1, s, h => by
      cases next : step s with
      | none =>
          rw [run_of_halted next]
          exact .idle h
      | some pair =>
          have first := round s pair.1 pair.2 h next
          rw [run_of_step next]
          exact first.trans (keeps_run round n pair.1 first.inv)

/-- A chain keeps what every body of it keeps. -/
theorem keeps_chain_of_mem {body : α → σ → σ × List ε} :
    ∀ as, (∀ a ∈ as, Keeps Inv P Fair m (body a)) → Keeps Inv P Fair m (chain body as)
  | [], _, _, h => .idle h
  | a :: as, each, s, h => by
      have first := each a List.mem_cons_self s h
      have later : ∀ a ∈ as, Keeps Inv P Fair m (body a) :=
        fun a mem => each a (List.mem_cons_of_mem _ mem)
      exact first.trans (keeps_chain_of_mem as later _ first.inv)

/-- A chain keeps what every body keeps. -/
theorem keeps_chain {body : α → σ → σ × List ε} (each : ∀ a, Keeps Inv P Fair m (body a))
    (as : List α) : Keeps Inv P Fair m (chain body as) :=
  keeps_chain_of_mem as fun a _ => each a

/-! ### Logs -/

section

variable {β : Type} {log : σ → List β} {E : ε → List β → Prop}

/-- A body from `s` to `out` keeps the invariant, and appends to the log the entries of every
event. -/
structure Logged (Inv : σ → Prop) (log : σ → List β) (E : ε → List β → Prop) (s : σ)
    (out : σ × List ε) : Prop where
  inv : Inv out.1
  entries : ∃ bs, List.Forall₂ E out.2 bs ∧ log out.1 = log s ++ bs.flatten

/-- A body that does nothing logs nothing. -/
theorem Logged.idle {s : σ} (h : Inv s) : Logged Inv log E s (s, []) :=
  ⟨h, [], .nil, (List.append_nil _).symm⟩

/-- One body after the other. -/
theorem Logged.trans {s s' s'' : σ} {es es' : List ε} (first : Logged Inv log E s (s', es))
    (later : Logged Inv log E s' (s'', es')) : Logged Inv log E s (s'', es ++ es') := by
  obtain ⟨bs, events, logged⟩ := first.entries
  obtain ⟨bs', events', logged'⟩ := later.entries
  refine ⟨later.inv, bs ++ bs', List.rel_append events events', ?_⟩
  rw [logged', logged, List.flatten_append, List.append_assoc]

/-- A run logs what every round logs. -/
theorem logged_run
    (round : ∀ s s' e, Inv s → step s = some (s', e) → Logged Inv log E s (s', [e])) :
    ∀ (n : ℕ) (s : σ), Inv s → Logged Inv log E s (run step n s)
  | 0, _, h => .idle h
  | n + 1, s, h => by
      cases next : step s with
      | none =>
          rw [run_of_halted next]
          exact .idle h
      | some pair =>
          have first := round s pair.1 pair.2 h next
          rw [run_of_step next]
          exact first.trans (logged_run round n pair.1 first.inv)

/-- A chain logs what every body logs. -/
theorem logged_chain {body : α → σ → σ × List ε}
    (each : ∀ a s, Inv s → Logged Inv log E s (body a s)) :
    ∀ (as : List α) (s : σ), Inv s → Logged Inv log E s (chain body as s)
  | [], _, h => .idle h
  | a :: as, s, h => by
      have first := each a s h
      exact first.trans (logged_chain each as _ first.inv)

end

theorem chain_append (body : α → σ → σ × List ε) : ∀ (as as' : List α) (s : σ),
    chain body (as ++ as') s
      = ((chain body as' (chain body as s).1).1,
        (chain body as s).2 ++ (chain body as' (chain body as s).1).2)
  | [], _, _ => rfl
  | a :: as, as', s => by
      rw [List.cons_append, chain, chain, chain_append body as as']
      simp

/-- **Simulation.** If the rounds of one loop follow those of another, round by round, and the
first loop only halts when the second does, then their events correspond. -/
theorem run_simulates {τ δ : Type} {R : σ → τ → Prop} {E : ε → δ → Prop}
    {step' : τ → Option (τ × δ)}
    (round : ∀ s t s' e, R s t → step s = some (s', e) →
      ∃ t' d, step' t = some (t', d) ∧ R s' t' ∧ E e d)
    (halt : ∀ s t, R s t → step s = none → step' t = none) :
    ∀ (n : ℕ) (s : σ) (t : τ), R s t → List.Forall₂ E (run step n s).2 (run step' n t).2
  | 0, _, _, _ => .nil
  | n + 1, s, t, related => by
      cases next : step s with
      | none =>
          rw [run_of_halted next, run_of_halted (halt s t related next)]
          exact .nil
      | some pair =>
          obtain ⟨t', d, next', related', alike⟩ := round s t pair.1 pair.2 related next
          rw [run_of_step next, run_of_step next']
          exact .cons alike (run_simulates round halt n pair.1 t' related')

/-- A step that decreases a variant has halted after as many rounds. -/
theorem halted_run {v : σ → ℕ} (decreases : ∀ s s' e, step s = some (s', e) → v s' < v s) :
    ∀ (n : ℕ) (s : σ), v s ≤ n → step (run step n s).1 = none
  | 0, s, bound => by
      cases next : step s with
      | none => exact next
      | some pair =>
          have := decreases s pair.1 pair.2 next
          omega
  | n + 1, s, bound => by
      cases next : step s with
      | none => rwa [run_of_halted next]
      | some pair =>
          have := decreases s pair.1 pair.2 next
          rw [run_of_step next]
          exact halted_run decreases n pair.1 (by omega)

end StockMarket.Loop
