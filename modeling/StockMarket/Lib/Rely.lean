import StockMarket.Lib.Phases

/-!
What one thread knows while others interfere.

One thread of a pool keeps account of the shared state: `fact k s` says that what it has
noted down, `k`, is true of the state. Its own actions may make it note something else
(`Knows`); the actions of the other threads leave true whatever it may have noted
(`Respects`). Both may take for granted what is `good` about every state that the pool can
reach. Then at every moment of every schedule the thread's notes are true
(`interleaves_knows`).

Where the notes are about what the others are in the middle of, the others are threads in
phases, whose moves leave the notes true (`interleaves_knows_among`).
-/

namespace StockMarket.Atomic

section

variable {σ K α β : Type} (good : σ → Prop) (fact : K → σ → Prop)

/-- After each action of the program something is known again, and at its end the result and
what is known are as `ends` says. -/
def Knows (ends : α → K → Prop) : Prog σ α → K → Prop
  | .ret a, k => ends a k
  | .act action next, k => ∀ s, good s → fact k s →
      ∃ k', fact k' (action s).2 ∧ Knows ends (next (action s).1) k'

/-- No action of the program makes anything false that is known, and its result is as `ends`
says. -/
def Respects (ends : α → Prop) : Prog σ α → Prop
  | .ret a => ends a
  | .act action next => ∀ s, good s → (∃ k, fact k s) →
      (∀ k, fact k s → fact k (action s).2) ∧ Respects ends (next (action s).1)

variable {good fact}

theorem Knows.bind {ends : α → K → Prop} {ends' : β → K → Prop} {f : α → Prog σ β} :
    ∀ {p : Prog σ α} {k : K}, Knows good fact ends p k →
      (∀ a k', ends a k' → Knows good fact ends' (f a) k') → Knows good fact ends' (p >>= f) k
  | .ret a, k, knows, rest => rest a k knows
  | .act _ _, _, knows, rest => fun s ok holds => by
      obtain ⟨k', known, later⟩ := knows s ok holds
      exact ⟨k', known, later.bind rest⟩

theorem Knows.mono {ends ends' : α → K → Prop} (weaker : ∀ a k, ends a k → ends' a k) :
    ∀ {p : Prog σ α} {k : K}, Knows good fact ends p k → Knows good fact ends' p k
  | .ret a, k, knows => weaker a k knows
  | .act _ _, _, knows => fun s ok holds => by
      obtain ⟨k', known, later⟩ := knows s ok holds
      exact ⟨k', known, later.mono weaker⟩

/-- A single action. -/
theorem Knows.step {ends : α → K → Prop} {action : σ → α × σ} {k : K}
    (knows : ∀ s, good s → fact k s → ∃ k', fact k' (action s).2 ∧ ends (action s).1 k') :
    Knows good fact ends (.step action) k :=
  knows

/-- An action after which the same is known. -/
theorem Knows.act {action : σ → α × σ} {k : K}
    (same : ∀ s, good s → fact k s → fact k (action s).2) :
    Knows good fact (fun _ k' => k' = k) (.step action) k :=
  fun s ok holds => ⟨k, same s ok holds, rfl⟩

theorem Respects.bind {ends : α → Prop} {ends' : β → Prop} {f : α → Prog σ β} :
    ∀ {p : Prog σ α}, Respects good fact ends p →
      (∀ a, ends a → Respects good fact ends' (f a)) → Respects good fact ends' (p >>= f)
  | .ret a, respects, rest => rest a respects
  | .act _ _, respects, rest => fun s ok holds =>
      ⟨(respects s ok holds).1, (respects s ok holds).2.bind rest⟩

/-- A single action. -/
theorem Respects.step {ends : α → Prop} {action : σ → α × σ}
    (respects : ∀ s k, good s → fact k s → fact k (action s).2 ∧ ends (action s).1) :
    Respects good fact ends (.step action) :=
  fun s ok ⟨k, holds⟩ =>
    ⟨fun k' holds' => (respects s k' ok holds').1, (respects s k ok holds).2⟩

/-- **The rule of interference**: what the first thread of a pool has noted is true at every
moment of every schedule. -/
theorem interleaves_knows {ends : α → K → Prop} {s : σ} {p : Prog σ α} {ps : List (Prog σ α)}
    {k : K} (always : ∀ c, Interleaves (s, p :: ps) c → good c.1) (holds : fact k s)
    (knows : Knows good fact ends p k) (respects : ∀ q ∈ ps, Respects good fact (fun _ => True) q)
    {c' : σ × List (Prog σ α)} (run : Interleaves (s, p :: ps) c') :
    ∃ s' p' ps' k', c' = (s', p' :: ps') ∧ fact k' s' ∧ Knows good fact ends p' k' ∧
      ∀ q ∈ ps', Respects good fact (fun _ => True) q := by
  induction run with
  | refl => exact ⟨s, p, ps, k, rfl, holds, knows, respects⟩
  | tail reached step ih =>
      obtain ⟨s₁, p₁, ps₁, k₁, rfl, holds₁, knows₁, respects₁⟩ := ih
      have ok : good s₁ := always _ reached
      generalize start : (s₁, p₁ :: ps₁) = c at step
      cases step with
      | act s before after action next =>
          cases before with
          | nil =>
              cases start
              obtain ⟨k', known, later⟩ := knows₁ s₁ ok holds₁
              exact ⟨_, _, _, k', rfl, known, later, respects₁⟩
          | cons q before =>
              cases start
              obtain ⟨kept, later⟩ := respects₁ (.act action next) (by simp) s₁ ok ⟨k₁, holds₁⟩
              refine ⟨_, _, _, k₁, rfl, kept k₁ holds₁, knows₁, fun r mem => ?_⟩
              rcases List.mem_append.mp mem with mem | mem
              · exact respects₁ r (List.mem_append_left _ mem)
              · rcases List.mem_cons.mp mem with rfl | mem
                · exact later
                · exact respects₁ r (List.mem_append_right _ (List.mem_cons_of_mem _ mem))

/-- What all threads of a pool leave true stays true at every moment of every schedule. -/
theorem interleaves_respects {ends : α → Prop} {s : σ} {ps : List (Prog σ α)} {k : K}
    (always : ∀ c, Interleaves (s, ps) c → good c.1) (holds : fact k s)
    (respects : ∀ p ∈ ps, Respects good fact ends p) {c : σ × List (Prog σ α)}
    (run : Interleaves (s, ps) c) : fact k c.1 ∧ ∀ p ∈ c.2, Respects good fact ends p := by
  induction run with
  | refl => exact ⟨holds, respects⟩
  | tail reached step ih =>
      obtain ⟨holds, respects⟩ := ih
      cases step with
      | act s before after action next =>
          obtain ⟨kept, later⟩ :=
            respects (.act action next) (by simp) s (always _ reached) ⟨k, holds⟩
          refine ⟨kept k holds, fun q mem => ?_⟩
          rcases List.mem_append.mp mem with mem | mem
          · exact respects q (List.mem_append_left _ mem)
          · rcases List.mem_cons.mp mem with rfl | mem
            · exact later
            · exact respects q (List.mem_append_right _ (List.mem_cons_of_mem _ mem))

end

/-! ### Others in phases -/

section

variable {σ Φ K α β : Type} (good : σ → Prop) (fact : K → σ → List Φ → Prop)

/-- As `Knows`, with notes about the phases of the other threads too. -/
def KnowsAmong (ends : α → K → Prop) : Prog σ α → K → Prop
  | .ret a, k => ends a k
  | .act action next, k => ∀ s φs, good s → fact k s φs →
      ∃ k', fact k' (action s).2 φs ∧ KnowsAmong ends (next (action s).1) k'

variable {good fact}

theorem KnowsAmong.bind {ends : α → K → Prop} {ends' : β → K → Prop} {f : α → Prog σ β} :
    ∀ {p : Prog σ α} {k : K}, KnowsAmong good fact ends p k →
      (∀ a k', ends a k' → KnowsAmong good fact ends' (f a) k') →
      KnowsAmong good fact ends' (p >>= f) k
  | .ret a, k, knows, rest => rest a k knows
  | .act _ _, _, knows, rest => fun s φs ok holds => by
      obtain ⟨k', known, later⟩ := knows s φs ok holds
      exact ⟨k', known, later.bind rest⟩

theorem KnowsAmong.mono {ends ends' : α → K → Prop} (weaker : ∀ a k, ends a k → ends' a k) :
    ∀ {p : Prog σ α} {k : K}, KnowsAmong good fact ends p k → KnowsAmong good fact ends' p k
  | .ret a, k, knows => weaker a k knows
  | .act _ _, _, knows => fun s φs ok holds => by
      obtain ⟨k', known, later⟩ := knows s φs ok holds
      exact ⟨k', known, later.mono weaker⟩

/-- A single action. -/
theorem KnowsAmong.step {ends : α → K → Prop} {action : σ → α × σ} {k : K}
    (knows : ∀ s φs, good s → fact k s φs → ∃ k', fact k' (action s).2 φs ∧ ends (action s).1 k') :
    KnowsAmong good fact ends (.step action) k :=
  knows

/-- **The rule of interference, among threads in phases**: the others follow their moves, these
leave true what the first thread has noted, and so it is true at every moment of every
schedule. -/
theorem interleaves_knows_among {move : Φ → σ → Φ → σ → Prop} {ends' : α → Φ → Prop}
    {ends : α → K → Prop} {s : σ} {p : Prog σ α} {threads : List (Prog σ α × Φ)} {k : K}
    (always : ∀ c, Interleaves (s, p :: threads.map Prod.fst) c → good c.1)
    (following : Following move ends' threads)
    (perm : ∀ k s {φs φs' : List Φ}, φs.Perm φs' → fact k s φs → fact k s φs')
    (others : ∀ k s φs φ φ' s', good s → move φ s φ' s' → fact k s (φ :: φs) →
      fact k s' (φ' :: φs))
    (holds : fact k s (phases threads)) (knows : KnowsAmong good fact ends p k)
    {c : σ × List (Prog σ α)} (run : Interleaves (s, p :: threads.map Prod.fst) c) :
    ∃ s' p' threads' k', c = (s', p' :: threads'.map Prod.fst) ∧
      Following move ends' threads' ∧ fact k' s' (phases threads') ∧
      KnowsAmong good fact ends p' k' := by
  induction run with
  | refl => exact ⟨s, p, threads, k, rfl, following, holds, knows⟩
  | tail reached step ih =>
      obtain ⟨s₁, p₁, threads₁, k₁, rfl, following, holds, knows⟩ := ih
      have ok : good s₁ := always _ reached
      generalize start : (s₁, p₁ :: threads₁.map Prod.fst) = c at step
      cases step with
      | act s before after action next =>
          cases before with
          | nil =>
              cases start
              obtain ⟨k', known, later⟩ := knows s₁ _ ok holds
              exact ⟨_, _, threads₁, k', rfl, following, known, later⟩
          | cons q before =>
              obtain ⟨rfl, pool⟩ := Prod.mk.inj start
              obtain ⟨rfl, rest⟩ := List.cons.inj pool
              change threads₁.map Prod.fst = before ++ .act action next :: after at rest
              obtain ⟨front, back, rfl, rfl, cut⟩ := List.map_eq_append_iff.mp rest
              obtain ⟨⟨q, φ⟩, back, rfl, rfl, rfl⟩ := List.map_eq_cons_iff.mp cut
              obtain ⟨φ', moved, follows⟩ := following (.act action next, φ) (by simp) s₁
              refine ⟨(action s₁).2, p₁, front ++ (next (action s₁).1, φ') :: back, k₁,
                by simp, ?_, ?_,
                knows⟩
              · intro t mem
                rcases List.mem_append.mp mem with mem | mem
                · exact following t (List.mem_append_left _ mem)
                · rcases List.mem_cons.mp mem with rfl | mem
                  · exact follows
                  · exact following t (List.mem_append_right _ (List.mem_cons_of_mem _ mem))
              · refine perm _ _ (phases_around front back (next (action s₁).1, φ')).symm ?_
                refine others _ _ _ _ _ _ ok moved (perm _ _ ?_ holds)
                exact phases_around front back (.act action next, φ)

end

end StockMarket.Atomic
