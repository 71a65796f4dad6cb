import StockMarket.Lib.Rely

/-!
Threads that work on a part of the state, and threads that watch it.

`Guarantees rel p` says that each action of a program changes the state as `rel` allows. A thread
that guarantees to leave a part of the state alone only watches that part. In a pool of threads
that work on the part and threads that watch it, the part goes through a run of the working
threads alone (`Interleaves.part`): what is proved about them without any watcher holds with any
number of watchers around.
-/

namespace StockMarket.Atomic

section

variable {σ τ α β : Type}

/-- Each action of the program changes the state as the relation allows. -/
def Guarantees (rel : σ → σ → Prop) : Prog σ α → Prop
  | .ret _ => True
  | .act action next => ∀ s, rel s (action s).2 ∧ Guarantees rel (next (action s).1)

/-- The program leaves a part of the state alone. -/
abbrev Watches (get : τ → σ) : Prog τ α → Prop :=
  Guarantees fun t t' => get t' = get t

variable {rel : σ → σ → Prop}

theorem Guarantees.bind {k : α → Prog σ β} : ∀ {p : Prog σ α}, Guarantees rel p →
    (∀ a, Guarantees rel (k a)) → Guarantees rel (p >>= k)
  | .ret a, _, rest => rest a
  | .act _ _, guarantees, rest => fun s => ⟨(guarantees s).1, (guarantees s).2.bind rest⟩

theorem Guarantees.step {action : σ → α × σ} (allowed : ∀ s, rel s (action s).2) :
    Guarantees rel (.step action) :=
  fun s => ⟨allowed s, trivial⟩

/-- What is guaranteed of the part, on the whole state. -/
theorem Guarantees.zoom {get : τ → σ} {set : σ → τ → τ} {whole : τ → τ → Prop}
    (lift : ∀ t s, rel (get t) s → whole t (set s t)) :
    ∀ {p : Prog σ α}, Guarantees rel p → Guarantees whole (p.zoom get set)
  | .ret _, _ => trivial
  | .act _ _, guarantees => fun t =>
      ⟨lift t _ (guarantees (get t)).1, (guarantees (get t)).2.zoom lift⟩

/-- What the relation keeps, the program keeps. -/
theorem Guarantees.respects {K : Type} {good : σ → Prop} {fact : K → σ → Prop}
    (keeps : ∀ k s s', good s → rel s s' → fact k s → fact k s') :
    ∀ {p : Prog σ α}, Guarantees rel p → Respects good fact (fun _ => True) p
  | .ret _, _ => trivial
  | .act _ _, guarantees => fun s ok _ =>
      ⟨fun k => keeps k s _ ok (guarantees s).1, (guarantees s).2.respects keeps⟩

/-- **Watching changes nothing.** The part of the state that some threads work on and all others
only watch goes through a run of the working threads alone. -/
theorem Interleaves.part {get : τ → σ} {set : σ → τ → τ} (get_set : ∀ s t, get (set s t) = s)
    {t t' : τ} {ps : List (Prog σ α)} {ws qs : List (Prog τ α)} (watch : ∀ w ∈ ws, Watches get w)
    (run : Interleaves (t, ps.map (Prog.zoom get set) ++ ws) (t', qs)) :
    ∃ ps' ws', qs = ps'.map (Prog.zoom get set) ++ ws' ∧
      Interleaves (get t, ps) (get t', ps') ∧ ∀ w ∈ ws', Watches get w := by
  suffices ∀ d, Interleaves (t, ps.map (Prog.zoom get set) ++ ws) d → ∃ ps' ws',
      d.2 = ps'.map (Prog.zoom get set) ++ ws' ∧ Interleaves (get t, ps) (get d.1, ps') ∧
        ∀ w ∈ ws', Watches get w from this _ run
  intro d run
  induction run with
  | refl => exact ⟨ps, ws, rfl, .refl, watch⟩
  | tail _ step ih =>
      obtain ⟨ps', ws', same, part, watch'⟩ := ih
      cases step with
      | act s before after action next =>
          change before ++ .act action next :: after = ps'.map (Prog.zoom get set) ++ ws' at same
          rcases List.append_eq_append_iff.mp same with ⟨mid, cut, rest⟩ | ⟨mid, rfl, rest⟩
          · cases mid with
            | nil =>
                -- the first of the watchers moves
                rw [List.append_nil] at cut
                change Prog.act action next :: after = ws' at rest
                subst rest
                obtain ⟨kept, later⟩ := watch' (.act action next) List.mem_cons_self s
                refine ⟨ps', next (action s).1 :: after, by rw [cut], ?_, ?_⟩
                · rw [kept]
                  exact part
                · exact List.forall_mem_cons.mpr
                    ⟨later, fun w mem => watch' w (List.mem_cons_of_mem _ mem)⟩
            | cons q mid =>
                -- one of the working threads moves
                obtain ⟨first, rfl⟩ := List.cons.inj rest
                obtain ⟨front, back, rfl, rfl, zoomed⟩ := List.map_eq_append_iff.mp cut
                obtain ⟨p, back, rfl, here, rfl⟩ := List.map_eq_cons_iff.mp zoomed
                rw [← first] at here
                cases p with
                | ret a => cases here
                | act action' next' =>
                    cases here
                    refine ⟨front ++ next' (action' (get s)).1 :: back, ws', by simp, ?_, watch'⟩
                    rw [get_set]
                    exact part.tail (.act (get s) front back action' next')
          · -- another of the watchers moves
            subst rest
            obtain ⟨kept, later⟩ := watch' (.act action next) (by simp) s
            refine ⟨ps', mid ++ next (action s).1 :: after, by simp, ?_, fun w mem => ?_⟩
            · rw [kept]
              exact part
            · rcases List.mem_append.mp mem with mem | mem
              · exact watch' w (List.mem_append_left _ mem)
              · rcases List.mem_cons.mp mem with rfl | mem
                · exact later
                · exact watch' w (List.mem_append_right _ (List.mem_cons_of_mem _ mem))

/-- A finished thread on the part, seen on the whole state. -/
theorem Finished.of_zoom {get : τ → σ} {set : σ → τ → τ} {ps : List (Prog σ α)}
    {ws : List (Prog τ α)} (finished : Finished (ps.map (Prog.zoom get set) ++ ws)) :
    Finished ps := by
  intro p mem
  obtain ⟨a, ended⟩ := finished (p.zoom get set) (List.mem_append_left _ (List.mem_map_of_mem mem))
  cases p with
  | ret b => exact ⟨b, rfl⟩
  | act action next => cases ended

/-! ### One thread after the other -/

/-- The state after the programs ran one after the other. -/
def execAll : List (Prog σ α) → σ → σ
  | [], s => s
  | p :: ps, s => execAll ps (p.exec s).2

/-- A pool may run its threads one after the other. -/
theorem interleaves_execAll : ∀ (ps : List (Prog σ α)) (s : σ),
    ∃ ps', Interleaves (s, ps) (execAll ps s, ps') ∧ Finished ps' := by
  have behind : ∀ (ps before : List (Prog σ α)) (s : σ), Finished before →
      ∃ ps', Interleaves (s, before ++ ps) (execAll ps s, ps') ∧ Finished ps' := by
    intro ps
    induction ps with
    | nil => exact fun before s done => ⟨_, .refl, by rwa [List.append_nil]⟩
    | cons p ps ih =>
        intro before s done
        have more : Finished (before ++ [.ret (p.exec s).1]) := by
          intro q mem
          rcases List.mem_append.mp mem with old | new
          · exact done q old
          · exact ⟨_, List.mem_singleton.mp new⟩
        obtain ⟨ps', rest, finished⟩ := ih _ (p.exec s).2 more
        rw [← List.append_cons] at rest
        exact ⟨ps', (interleaves_exec before ps p s).trans rest, finished⟩
  intro ps s
  exact behind ps [] s fun p mem => absurd mem List.not_mem_nil

/-! ### Reading one thing after the other -/

/-- Read something for each item, one read after the other. -/
def Prog.readEach (f : α → σ → β) : List α → Prog σ (List β)
  | [] => return []
  | a :: as => do
    let b ← .read (f a)
    let bs ← Prog.readEach f as
    return b :: bs

@[simp] theorem Prog.exec_read (f : σ → α) (s : σ) : (Prog.read f).exec s = (f s, s) := rfl

@[simp] theorem Prog.exec_readEach (f : α → σ → β) (s : σ) : ∀ as : List α,
    (Prog.readEach f as).exec s = (as.map fun a => f a s, s)
  | [] => rfl
  | a :: as => by
      have rest := Prog.exec_readEach f s as
      rw [Prog.readEach, Prog.exec_read_bind, Prog.exec_bind, rest]
      rfl

theorem Watches.readEach (get : σ → τ) (f : α → σ → β) : ∀ as : List α,
    Watches get (Prog.readEach f as)
  | [] => trivial
  | a :: as => by
      have one : Watches get (Prog.read (f a)) := Guarantees.step fun _ => rfl
      exact one.bind fun _ => (Watches.readEach get f as).bind fun _ => trivial

/-- What is true of each thing read, at whatever moment, is true of all. -/
theorem Respects.readEach {K : Type} {good : σ → Prop} {fact : K → σ → Prop} {f : α → σ → β}
    (told : α → β → Prop) (each : ∀ a s, good s → told a (f a s)) : ∀ as : List α,
    Respects good fact (List.Forall₂ told as) (Prog.readEach f as)
  | [] => .nil
  | a :: as => by
      have one : Respects good fact (told a) (Prog.read (f a)) :=
        Respects.step fun s _ ok holds => ⟨holds, each a s ok⟩
      refine one.bind fun b known => ?_
      refine (Respects.readEach told each as).bind fun bs rest => ?_
      exact List.Forall₂.cons known rest

end

end StockMarket.Atomic
