import StockMarket.Lib.Atomic

/-!
Threads that decide by what they see, and threads with a script.

The shared state offers some calls. A program is `Scripted` if it uses the state through reads
and through these calls only, whatever it learns from them; what it does next may depend on all
that it has learnt. A thread that runs a list of calls, its `script`, decides nothing. Under
any schedule the deciding threads get the state nowhere where threads with scripts would not get
it, each making the calls that its program may make (`Interleaves.scripts`): in each run a
thread has made some calls, and that list is a script for it.

So what holds of all scripts holds of all programs that decide.
-/

namespace StockMarket.Atomic

variable {σ α β C : Type}

theorem Prog.bind_assoc {γ : Type} (k : α → Prog σ β) (l : β → Prog σ γ) :
    ∀ p : Prog σ α, p >>= k >>= l = p >>= fun a => k a >>= l
  | .ret _ => rfl
  | .act action next => by
      change Prog.act action (fun b => next b >>= k >>= l)
        = Prog.act action fun b => next b >>= fun a => k a >>= l
      congr 1
      funext b
      exact bind_assoc k l (next b)

theorem Prog.bind_ret : ∀ p : Prog σ α, p >>= Prog.ret = p
  | .ret _ => rfl
  | .act action next => by
      change Prog.act action (fun b => next b >>= Prog.ret) = Prog.act action next
      congr 1
      funext b
      exact bind_ret (next b)

/-- The program, its result dropped. -/
def Prog.dropped (p : Prog σ α) : Prog σ Unit := do
  let _ ← p
  return ()

/-! ### Scripts -/

section

variable (program : C → Prog σ Unit)

/-- A thread that makes one call after the other. -/
def script : List C → Prog σ Unit
  | [] => return ()
  | c :: cs => do
    program c
    script cs

/-- The program only reads and makes calls of the given kind, and its result is as `ends`
says. -/
inductive Scripted (ok : C → Prop) (ends : α → Prop) : Prog σ α → Prop where
  | ret {a : α} (ended : ends a) : Scripted ok ends (.ret a)
  | look {β : Type} (f : σ → β) (k : β → Prog σ α) (rest : ∀ b, Scripted ok ends (k b)) :
      Scripted ok ends (.read f >>= k)
  | call {β : Type} (c : C) {p : Prog σ β} (k : β → Prog σ α) (same : p.dropped = program c)
      (allowed : ok c) (rest : ∀ b, Scripted ok ends (k b)) : Scripted ok ends (p >>= k)

variable {program} {ok : C → Prop}

theorem Scripted.bind {ends : α → Prop} {ends' : β → Prop} {p : Prog σ α} {k : α → Prog σ β}
    (first : Scripted program ok ends p) (rest : ∀ a, ends a → Scripted program ok ends' (k a)) :
    Scripted program ok ends' (p >>= k) := by
  induction first with
  | ret ended => exact rest _ ended
  | look f l _ ih =>
      rw [Prog.bind_assoc]
      exact .look f _ ih
  | call c l same allowed _ ih =>
      rw [Prog.bind_assoc]
      exact .call c _ same allowed ih

/-- A thread with a script decides nothing. -/
theorem Scripted.script : ∀ {cs : List C}, (∀ c ∈ cs, ok c) →
    Scripted program ok (fun _ => True) (script program cs)
  | [], _ => .ret trivial
  | c :: cs, allowed => by
      refine .call c _ (program c).bind_ret (allowed c List.mem_cons_self) fun _ => ?_
      exact Scripted.script fun d mem => allowed d (List.mem_cons_of_mem _ mem)

/-! ### Runs -/

/-- A step of a pool is one of the given thread, or it is one of the others, for which it makes
no difference what the given thread is. -/
theorem Step.at_or_elsewhere {s : σ} {before after : List (Prog σ α)} {p : Prog σ α}
    {d : σ × List (Prog σ α)} (step : Step (s, before ++ p :: after) d) :
    (∃ (γ : Type) (action : σ → γ × σ) (next : γ → Prog σ α), p = .act action next ∧
      d = ((action s).2, before ++ next (action s).1 :: after)) ∨
    ∃ s' before' after', d = (s', before' ++ p :: after') ∧
      ∀ q, Step (s, before ++ q :: after) (s', before' ++ q :: after') := by
  generalize start : (s, before ++ p :: after) = c at step
  cases step with
  | act s front back action next =>
      obtain ⟨rfl, pool⟩ := Prod.mk.inj start
      rcases List.append_eq_append_iff.mp pool with ⟨mid, rfl, cut⟩ | ⟨mid, rfl, cut⟩
      · cases mid with
        | nil =>
            obtain ⟨rfl, rfl⟩ := List.cons.inj cut
            exact .inl ⟨_, action, next, rfl, by rw [List.append_nil]⟩
        | cons q mid =>
            obtain ⟨rfl, rfl⟩ := List.cons.inj cut
            refine .inr ⟨(action s).2, before, mid ++ next (action s).1 :: back,
              by simp, fun q => ?_⟩
            have moved := Step.act s (before ++ q :: mid) back action next
            simpa using moved
      · cases mid with
        | nil =>
            obtain ⟨rfl, rfl⟩ := List.cons.inj cut
            exact .inl ⟨_, action, next, rfl, by rw [List.append_nil]⟩
        | cons q mid =>
            obtain ⟨rfl, rfl⟩ := List.cons.inj cut
            refine .inr ⟨(action s).2, front ++ next (action s).1 :: mid, after,
              by simp, fun q => ?_⟩
            have moved := Step.act s front (mid ++ q :: after) action next
            simpa using moved

/-- The order in which the threads are listed does not matter. -/
theorem Interleaves.perm {s s' : σ} {ps ps' qs : List (Prog σ α)}
    (run : Interleaves (s, ps) (s', ps')) (same : ps.Perm qs) :
    ∃ qs', ps'.Perm qs' ∧ Interleaves (s, qs) (s', qs') := by
  suffices ∀ d, Interleaves (s, ps) d → ∃ qs', d.2.Perm qs' ∧ Interleaves (s, qs) (d.1, qs') from
    this _ run
  intro d run
  induction run with
  | refl => exact ⟨qs, same, .refl⟩
  | tail _ step ih =>
      obtain ⟨qs', same', run⟩ := ih
      cases step with
      | act s before after action next =>
          obtain ⟨front, back, rfl⟩ :=
            List.append_of_mem (same'.subset (List.mem_append_right _ List.mem_cons_self))
          refine ⟨front ++ next (action s).1 :: back, ?_, run.tail (.act s front back action next)⟩
          have others := (List.perm_middle.symm.trans (same'.trans List.perm_middle)).cons_inv
          exact List.perm_middle.trans ((others.cons _).trans List.perm_middle.symm)

theorem Finished.replace {before after : List (Prog σ α)} {p q : Prog σ α}
    (finished : Finished (before ++ p :: after)) (done : (∃ a, p = .ret a) → ∃ a, q = .ret a) :
    Finished (before ++ q :: after) := by
  intro r mem
  rcases List.mem_append.mp mem with mem | mem
  · exact finished r (List.mem_append_left _ mem)
  · rcases List.mem_cons.mp mem with rfl | mem
    · exact done (finished p (by simp))
    · exact finished r (List.mem_append_right _ (List.mem_cons_of_mem _ mem))

/-- What one thread decides in a run can be written down for it beforehand. The induction is on
the run, from its end, since later calls depend on what earlier ones answer; `q` is what is left
of the thread's present call. -/
theorem Interleaves.script_one {c d : σ × List (Prog σ Unit)} (run : Interleaves c d)
    {s : σ} {before after : List (Prog σ Unit)} {q : Prog σ β} {k : β → Prog σ Unit}
    {ends : Unit → Prop} (start : c = (s, before ++ (q >>= k) :: after))
    (scripted : ∀ b, Scripted program ok ends (k b)) :
    ∃ cs, (∀ c ∈ cs, ok c) ∧ ∃ qs,
      Interleaves (s, before ++ (q >>= fun _ => script program cs) :: after) (d.1, qs) ∧
      (Finished d.2 → Finished qs) := by
  induction run using Relation.ReflTransGen.head_induction_on generalizing s before after β with
  | refl =>
      subst start
      refine ⟨[], by simp, _, .refl, fun finished => finished.replace ?_⟩
      rintro ⟨a, ended⟩
      cases q with
      | ret b => exact ⟨(), rfl⟩
      | act action next => cases ended
  | head step rest ih =>
      subst start
      rcases step.at_or_elsewhere with ⟨γ, action, next, first, rfl⟩ | ⟨s', _, _, rfl, elsewhere⟩
      · cases q with
        | act action' next' =>
            cases first
            obtain ⟨cs, allowed, qs, later, done⟩ := ih rfl scripted
            refine ⟨cs, allowed, qs, .head ?_ later, done⟩
            exact .act s before after action fun b => next' b >>= fun _ => script program cs
        | ret b =>
            -- the last call is over, and the next action is the program's own choice
            change k b = .act action next at first
            have here := scripted b
            generalize k b = p at first here
            clear scripted
            induction here with
            | ret ended => cases first
            | look f l more _ =>
                cases first
                exact ih (q := .ret (f s)) rfl more
            | @call γ' c p l same fits more again =>
                cases p with
                | ret b' => exact again b' first
                | act action' next' =>
                    cases first
                    obtain ⟨cs, allowed, qs, later, done⟩ := ih rfl more
                    refine ⟨c :: cs, List.forall_mem_cons.mpr ⟨fits, allowed⟩, qs, ?_, done⟩
                    change Interleaves (s, before ++ (program c >>= fun _ => script program cs)
                      :: after) _
                    rw [← same, Prog.dropped, Prog.bind_assoc]
                    exact .head (.act s before after action fun b =>
                      next' b >>= fun _ => script program cs) later
      · obtain ⟨cs, allowed, qs, later, done⟩ := ih rfl scripted
        exact ⟨cs, allowed, qs, .head (elsewhere _) later, done⟩

/-- **Deciding threads get no further than scripts.** Where threads that decide have taken the
state, together with any other threads, there threads with scripts take it, each with calls of
the kind that the program makes; and if all have finished, so have these. -/
theorem Interleaves.scripts {front ps : List (Prog σ Unit)} {kinds : List (C → Prop)}
    (scripted : List.Forall₂ (fun p kind => Scripted program kind (fun _ => True) p)
      ps kinds) {s s' : σ}
    {ps' : List (Prog σ Unit)} (run : Interleaves (s, front ++ ps) (s', ps')) :
    ∃ css, List.Forall₂ (fun cs kind => ∀ c ∈ cs, kind c) css kinds ∧ ∃ qs,
      Interleaves (s, front ++ css.map (script program)) (s', qs) ∧
      (Finished ps' → Finished qs) := by
  induction scripted generalizing front ps' with
  | nil => exact ⟨[], .nil, ps', run, id⟩
  | @cons p kind ps kinds one _ ih =>
      obtain ⟨cs, allowed, qs, first, done⟩ :=
        run.script_one (q := .ret ()) (k := fun _ => p) rfl fun _ => one
      rw [List.append_cons] at first
      obtain ⟨css, all, qs', rest, done'⟩ := ih first
      refine ⟨cs :: css, .cons allowed all, qs', ?_, fun finished => done' (done finished)⟩
      rw [List.map_cons, List.append_cons]
      exact rest

end

end StockMarket.Atomic
