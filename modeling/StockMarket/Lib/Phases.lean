import StockMarket.Lib.Atomic

/-!
Threads in phases.

What a thread is in the middle of cannot be read off its program, so each thread of
a pool is given a phase. `move φ s φ' s'` says that a thread in phase `φ` may take
the shared state from `s` to `s'` and is then in phase `φ'`; a program `Follows` the
moves if each of its actions is one of them, whatever the state it meets. Then every
run of the pool is a run of threads in phases (`Interleaves.phased`), and an
invariant may speak of the state and of all the phases (`PhasedRun.keep`).

The steps of a phased run may be restricted further by a condition on the state, the
phase of the thread that moves and the phases of the others. `Visits` also lists the
instants of a run.
-/

namespace StockMarket.Atomic

section

variable {σ Φ α β : Type} (move : Φ → σ → Φ → σ → Prop)

/-- From the phase on, every action of the program is a move, and at its end the result
and the phase are as `ends` says. -/
def Follows (ends : α → Φ → Prop) : Prog σ α → Φ → Prop
  | .ret a, φ => ends a φ
  | .act action next, φ =>
    ∀ s, ∃ φ', move φ s φ' (action s).2 ∧ Follows ends (next (action s).1) φ'

variable {move}

theorem Follows.bind {ends : α → Φ → Prop} {ends' : β → Φ → Prop} {k : α → Prog σ β} :
    ∀ {p : Prog σ α} {φ : Φ}, Follows move ends p φ →
      (∀ a φ', ends a φ' → Follows move ends' (k a) φ') → Follows move ends' (p >>= k) φ
  | .ret a, φ, follows, rest => rest a φ follows
  | .act _ _, _, follows, rest => fun s => by
      obtain ⟨φ', moved, later⟩ := follows s
      exact ⟨φ', moved, later.bind rest⟩

/-- A single action. -/
theorem Follows.step {ends : α → Φ → Prop} {action : σ → α × σ} {φ : Φ}
    (moves : ∀ s, ∃ φ', move φ s φ' (action s).2 ∧ ends (action s).1 φ') :
    Follows move ends (.step action) φ :=
  moves

/-! ### Runs -/

variable (move) (ends : α → Φ → Prop) (allowed : σ → List Φ → Φ → Φ → σ → Prop)

/-- The state and the threads with their phases. -/
abbrev Phased (σ Φ α : Type) := σ × List (Prog σ α × Φ)

/-- The phases of all threads. -/
def phases (threads : List (Prog σ α × Φ)) : List Φ :=
  threads.map Prod.snd

theorem phases_around (before after : List (Prog σ α × Φ)) (t : Prog σ α × Φ) :
    (phases (before ++ t :: after)).Perm (t.2 :: phases (before ++ after)) := by
  unfold phases
  rw [← List.map_cons (f := Prod.snd)]
  exact List.perm_middle.map _

/-- Some thread takes its next action, by a move that the condition allows, and goes on
following the moves. -/
inductive PhasedStep : Phased σ Φ α → Phased σ Φ α → Prop where
  | act {γ : Type} (s : σ) (before after : List (Prog σ α × Φ)) (action : σ → γ × σ)
      (next : γ → Prog σ α) (φ φ' : Φ) :
      move φ s φ' (action s).2 → allowed s (phases (before ++ after)) φ φ' (action s).2 →
      Follows move ends (next (action s).1) φ' →
      PhasedStep (s, before ++ (.act action next, φ) :: after)
        ((action s).2, before ++ (next (action s).1, φ') :: after)

/-- The threads get from one state to the other under some schedule. -/
abbrev PhasedRun : Phased σ Φ α → Phased σ Φ α → Prop :=
  Relation.ReflTransGen (PhasedStep move ends allowed)

/-- Every thread follows the moves from its phase on. -/
def Following (threads : List (Prog σ α × Φ)) : Prop :=
  ∀ t ∈ threads, Follows move ends t.1 t.2

variable {move ends allowed}

/-- Whether there is an action left. -/
def Prog.acts : Prog σ α → Bool
  | .ret _ => false
  | .act _ _ => true

/-- The first action of a thread that has not finished. -/
theorem PhasedStep.advance {s s' : σ} {p p' : Prog σ α} {φ φ' : Φ}
    (before after : List (Prog σ α × Φ)) (goes : p.advance 1 s = (p', s'))
    (acts : p.acts = true) (moved : move φ s φ' s')
    (ok : allowed s (phases (before ++ after)) φ φ' s') (follows : Follows move ends p' φ') :
    PhasedStep move ends allowed (s, before ++ (p, φ) :: after)
      (s', before ++ (p', φ') :: after) := by
  cases p with
  | ret a => exact absurd acts Bool.false_ne_true
  | act action next =>
      obtain ⟨rfl, rfl⟩ := Prod.mk.inj goes
      exact .act s before after action next φ φ' moved ok follows

/-- Without the phases, a phased run is a run of the pool. -/
theorem PhasedRun.interleaves {c c' : Phased σ Φ α} (run : PhasedRun move ends allowed c c') :
    Interleaves (c.1, c.2.map Prod.fst) (c'.1, c'.2.map Prod.fst) := by
  induction run with
  | refl => exact .refl
  | tail _ step ih =>
      refine ih.tail ?_
      cases step with
      | act s before after action next φ φ' moved ok follows =>
          simp only [List.map_append, List.map_cons]
          exact .act s (before.map Prod.fst) (after.map Prod.fst) action next

/-- **Every run is a phased run**: threads that follow the moves have phases throughout. -/
theorem Interleaves.phased {c c' : σ × List (Prog σ α)} (run : Interleaves c c')
    {threads : List (Prog σ α × Φ)} (programs : threads.map Prod.fst = c.2)
    (following : Following move ends threads) :
    ∃ threads', threads'.map Prod.fst = c'.2 ∧ Following move ends threads' ∧
      PhasedRun move ends (fun _ _ _ _ _ => True) (c.1, threads) (c'.1, threads') := by
  induction run with
  | refl => exact ⟨threads, programs, following, .refl⟩
  | tail _ step ih =>
      obtain ⟨threads', programs', following', run⟩ := ih
      cases step with
      | act s before after action next =>
          obtain ⟨front, rest, rfl, rfl, cut⟩ := List.map_eq_append_iff.mp programs'
          obtain ⟨⟨p, φ⟩, back, rfl, rfl, rfl⟩ := List.map_eq_cons_iff.mp cut
          obtain ⟨φ', moved, follows⟩ := following' (.act action next, φ) (by simp) s
          refine ⟨front ++ (next (action s).1, φ') :: back, by simp, ?_,
            run.tail (.act s front back action next φ φ' moved trivial follows)⟩
          intro t mem
          rcases List.mem_append.mp mem with mem | mem
          · exact following' t (List.mem_append_left _ mem)
          · rcases List.mem_cons.mp mem with rfl | mem
            · exact follows
            · exact following' t (List.mem_append_right _ (List.mem_cons_of_mem _ mem))

theorem PhasedStep.following {c c' : Phased σ Φ α} (step : PhasedStep move ends allowed c c')
    (following : Following move ends c.2) : Following move ends c'.2 := by
  cases step with
  | act s before after action next φ φ' moved ok follows =>
      intro t mem
      rcases List.mem_append.mp mem with mem | mem
      · exact following t (List.mem_append_left _ mem)
      · rcases List.mem_cons.mp mem with rfl | mem
        · exact follows
        · exact following t (List.mem_append_right _ (List.mem_cons_of_mem _ mem))

/-- **The invariant rule for phases.** An invariant of the state and the phases that every
allowed move keeps, in whatever order the phases are listed, holds throughout. -/
theorem PhasedRun.keep {inv : σ → List Φ → Prop}
    (perm : ∀ s {φs φs' : List Φ}, φs.Perm φs' → inv s φs → inv s φs')
    (keep : ∀ s φs φ φ' s', move φ s φ' s' → allowed s φs φ φ' s' → inv s (φ :: φs) →
      inv s' (φ' :: φs))
    {c c' : Phased σ Φ α} (run : PhasedRun move ends allowed c c') (holds : inv c.1 (phases c.2)) :
    inv c'.1 (phases c'.2) := by
  induction run with
  | refl => exact holds
  | tail _ step ih =>
      cases step with
      | act s before after action next φ φ' moved ok follows =>
          have start := perm s (phases_around before after (.act action next, φ)) ih
          have after' := keep s _ φ φ' _ moved ok start
          exact perm _ (phases_around before after (next (action s).1, φ')).symm after'

/-- One possible schedule: a thread runs to its end while the others wait, if an invariant
of the state and its own phase allows its moves. -/
theorem Follows.run_among {inv : σ → Φ → Prop} (before after : List (Prog σ α × Φ))
    (keep : ∀ s φ φ' s', move φ s φ' s' → inv s φ →
      allowed s (phases (before ++ after)) φ φ' s' ∧ inv s' φ') :
    ∀ {p : Prog σ α} {φ : Φ} {s : σ}, Follows move ends p φ → inv s φ →
      ∃ φ', ends (p.exec s).1 φ' ∧ PhasedRun move ends allowed (s, before ++ (p, φ) :: after)
        ((p.exec s).2, before ++ (.ret (p.exec s).1, φ') :: after)
  | .ret a, φ, s, follows, holds => ⟨φ, follows, .refl⟩
  | .act action next, φ, s, follows, holds => by
      obtain ⟨φ', moved, later⟩ := follows s
      obtain ⟨ok, holds'⟩ := keep s φ φ' _ moved holds
      obtain ⟨φ'', ended, run⟩ := later.run_among before after keep holds'
      exact ⟨φ'', ended, .head (.act s before after action next φ φ' moved ok later) run⟩

theorem PhasedRun.following {c c' : Phased σ Φ α} (run : PhasedRun move ends allowed c c')
    (following : Following move ends c.2) : Following move ends c'.2 := by
  induction run with
  | refl => exact following
  | tail _ step ih => exact step.following ih

/-- **The invariant rule for one thread among others**, the first of the pool: its own moves
and those of the others keep the invariant, in whatever order the others are listed. -/
theorem PhasedRun.keep_first {inv : σ → Φ → List Φ → Prop}
    (perm : ∀ s φ {φs φs' : List Φ}, φs.Perm φs' → inv s φ φs → inv s φ φs')
    (own : ∀ s φs φ φ' s', move φ s φ' s' → allowed s φs φ φ' s' → inv s φ φs → inv s' φ' φs)
    (other : ∀ s φ φs ψ ψ' s', move ψ s ψ' s' → allowed s (φ :: φs) ψ ψ' s' →
      inv s φ (ψ :: φs) → inv s' φ (ψ' :: φs))
    {s : σ} {p : Prog σ α} {φ : Φ} {rest : List (Prog σ α × Φ)} {c' : Phased σ Φ α}
    (run : PhasedRun move ends allowed (s, (p, φ) :: rest) c') (holds : inv s φ (phases rest)) :
    ∃ s' p' φ' rest', c' = (s', (p', φ') :: rest') ∧ inv s' φ' (phases rest') := by
  induction run with
  | refl => exact ⟨s, p, φ, rest, rfl, holds⟩
  | tail _ step ih =>
      obtain ⟨s₁, p₁, φ₁, rest₁, rfl, holds⟩ := ih
      generalize start : (s₁, (p₁, φ₁) :: rest₁) = c at step
      cases step with
      | act s before after action next ψ ψ' moved ok follows =>
          cases before with
          | nil =>
              cases start
              exact ⟨_, _, _, _, rfl, own _ _ _ _ _ moved ok holds⟩
          | cons t before =>
              cases start
              refine ⟨_, _, _, _, rfl, perm _ _ (phases_around before after _).symm ?_⟩
              exact other _ _ _ _ _ _ moved ok (perm _ _ (phases_around before after _) holds)

/-! ### Instants -/

/-- A run through the given configurations, the last of which is its end. -/
def Visits {C : Type 1} (step : C → C → Prop) : C → List C → C → Prop
  | c, [], c' => c = c'
  | c, d :: ds, c' => step c d ∧ Visits step d ds c'

/-- Every run has its instants. -/
theorem Visits.of_run {C : Type 1} {step : C → C → Prop} {c c' : C}
    (run : Relation.ReflTransGen step c c') : ∃ ds, Visits step c ds c' := by
  induction run using Relation.ReflTransGen.head_induction_on with
  | refl => exact ⟨[], rfl⟩
  | head step _ ih =>
      obtain ⟨ds, later⟩ := ih
      exact ⟨_ :: ds, step, later⟩

/-- If something holds at each instant of a run, it may be taken as a condition on its moves. -/
theorem Visits.run {holds : σ → List Φ → Prop}
    (perm : ∀ s {φs φs' : List Φ}, φs.Perm φs' → holds s φs → holds s φs') :
    ∀ {c c' : Phased σ Φ α} {ds : List (Phased σ Φ α)},
      Visits (PhasedStep move ends allowed) c ds c' → (∀ d ∈ ds, holds d.1 (phases d.2)) →
      PhasedRun move ends (fun s φs φ φ' s' => allowed s φs φ φ' s' ∧ holds s' (φ' :: φs)) c c'
  | _, _, [], same, _ => same ▸ .refl
  | c, _, d :: ds, ⟨step, later⟩, always => by
      have run := Visits.run perm later fun d mem => always d (List.mem_cons_of_mem _ mem)
      have now := always d List.mem_cons_self
      refine .head ?_ run
      cases step with
      | act s before after action next φ φ' moved ok follows =>
          refine .act s before after action next φ φ' moved ⟨ok, ?_⟩ follows
          exact perm _ (phases_around before after (next (action s).1, φ')) now

end

end StockMarket.Atomic
