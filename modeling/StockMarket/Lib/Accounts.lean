import StockMarket.Lib.Phases

/-!
Accounts of threads.

A ledger is a quantity of the shared state, in some commutative group. Each thread has an
account with what its actions have added to the ledger so far. A move is `Booked` if the
account and the ledger change by the same amount; it need only be so while an invariant of the
state and the phases holds. If every thread can tell its account from its result at the end,
then whatever the schedule the ledger has changed by the sum over the results
(`interleaves_booked`).
-/

namespace StockMarket.Atomic

section

variable {σ Φ α β G : Type} [AddCommGroup G] (move : Φ → σ → Φ → σ → Prop)
  (inv : σ → List Φ → Prop) (ledger : σ → G)

/-- A move that adds the same to the ledger and to the account of its thread. -/
def Booked (x : Φ × G) (s : σ) (x' : Φ × G) (s' : σ) : Prop :=
  move x.1 s x'.1 s' ∧ ∀ φs, inv s (x.1 :: φs) → ledger s' + x.2 = ledger s + x'.2

/-- The program goes from the phase to one that its result tells, and adds to the ledger
what its result tells. -/
def Books (p : Prog σ α) (φ : Φ) (next : α → Φ) (due : α → G) : Prop :=
  ∀ g, Follows (Booked move inv ledger) (fun a x => x = (next a, g + due a)) p (φ, g)

variable {move inv ledger} {φ : Φ} {next : α → Φ} {due : α → G}

/-- A result that nothing was added for. -/
theorem Books.ret {a : α} (phase : φ = next a) (none : due a = 0) :
    Books move inv ledger (pure a) φ next due := by
  intro g
  change (φ, g) = (next a, g + due a)
  rw [phase, none, add_zero]

/-- A single action. -/
theorem Books.step {action : σ → α × σ} (moves : ∀ s, move φ s (next (action s).1) (action s).2)
    (adds : ∀ s φs, inv s (φ :: φs) → ledger (action s).2 = ledger s + due (action s).1) :
    Books move inv ledger (.step action) φ next due := by
  intro g s
  refine ⟨_, ⟨moves s, fun φs holds => ?_⟩, rfl⟩
  rw [adds s φs holds, add_assoc, add_comm (due _) g]

/-- One program after the other. -/
theorem Books.bind {p : Prog σ α} {k : α → Prog σ β} {next' : β → Φ} {due' : β → G}
    (first : Books move inv ledger p φ next due)
    (rest : ∀ a, Books move inv ledger (k a) (next a) next' fun b => due' b - due a) :
    Books move inv ledger (p >>= k) φ next' due' := by
  intro g
  refine Follows.bind (first g) ?_
  rintro a x rfl
  have later := rest a (g + due a)
  simpa only [add_add_sub_cancel, add_assoc, add_sub_cancel] using later

/-- The same program, its result told in another way. -/
theorem Books.congr {p : Prog σ α} {next' : α → Φ} {due' : α → G}
    (books : Books move inv ledger p φ next due) (phase : ∀ a, next' a = next a)
    (same : ∀ a, due' a = due a) : Books move inv ledger p φ next' due' := by
  obtain rfl := funext phase
  obtain rfl := funext same
  exact books

variable (inv ledger) in
/-- The invariant holds, and the ledger has grown by the accounts of all threads. -/
def Balanced (start : G) (s : σ) (xs : List (Φ × G)) : Prop :=
  inv s (xs.map Prod.fst) ∧ ledger s = start + (xs.map Prod.snd).sum

/-- A booked move keeps the balance. -/
theorem Balanced.booked {start : G} {s s' : σ} {x x' : Φ × G} {xs : List (Φ × G)}
    (keep : ∀ s φs φ φ' s', move φ s φ' s' → inv s (φ :: φs) → inv s' (φ' :: φs))
    (balanced : Balanced inv ledger start s (x :: xs)) (booked : Booked move inv ledger x s x' s') :
    Balanced inv ledger start s' (x' :: xs) := by
  obtain ⟨holds, before⟩ := balanced
  refine ⟨keep s _ _ _ s' booked.1 holds, ?_⟩
  have added := booked.2 _ holds
  rw [before] at added
  simp only [List.map_cons, List.sum_cons] at added ⊢
  refine add_right_cancel (b := x.2) (added.trans ?_)
  abel

/-- Threads that have finished have their results booked. -/
theorem accounts_of_finished {results : List α} : ∀ {threads : List (Prog σ α × Φ × G)},
    threads.map Prod.fst = results.map Prog.ret →
    Following (Booked move inv ledger) (fun a x => x = (next a, 0 + due a)) threads →
      (phases threads).map Prod.snd = results.map due := by
  induction results with
  | nil =>
      intro threads programs _
      rw [List.map_eq_nil_iff.mp programs]
      rfl
  | cons a results ih =>
      intro threads programs following
      obtain ⟨⟨p, x⟩, rest, rfl, rfl, others⟩ := List.map_eq_cons_iff.mp programs
      have ended : x = (next a, 0 + due a) := following (.ret a, x) List.mem_cons_self
      have later := ih others fun t mem => following t (List.mem_cons_of_mem _ mem)
      rw [phases, List.map_cons, List.map_cons, List.map_cons, ← phases, later, ended, zero_add]

/-- **The accounting rule**: once every thread has finished, the ledger has changed by what
the results tell, whatever the schedule, and the invariant holds. -/
theorem interleaves_booked {s s' : σ} {ps : List (Prog σ α)} {results : List α}
    (run : Interleaves (s, ps) (s', results.map Prog.ret))
    (perm : ∀ s {φs φs' : List Φ}, φs.Perm φs' → inv s φs → inv s φs')
    (keep : ∀ s φs φ φ' s', move φ s φ' s' → inv s (φ :: φs) → inv s' (φ' :: φs))
    (start : inv s (ps.map fun _ => φ)) (books : ∀ p ∈ ps, Books move inv ledger p φ next due) :
    (∃ φs, inv s' φs) ∧ ledger s' = ledger s + (results.map due).sum := by
  set started : List (Prog σ α × Φ × G) := ps.map fun p => (p, φ, 0)
  have listed : started.map Prod.fst = ps := by simp [started, Function.comp_def]
  have follow : Following (Booked move inv ledger) (fun a x => x = (next a, 0 + due a)) started := by
    intro t mem
    obtain ⟨p, known, rfl⟩ := List.mem_map.mp mem
    exact books p known 0
  obtain ⟨threads, programs, following, phased⟩ := run.phased listed follow
  have balanced : Balanced inv ledger (ledger s) s (phases started) := by
    constructor
    · simpa [started, phases, Function.comp_def] using start
    · simp [started, phases, Function.comp_def]
  obtain ⟨holds, booked⟩ := phased.keep
    (fun t _ _ same b => ⟨perm t (same.map _) b.1, b.2.trans (congrArg _ (same.map _).sum_eq)⟩)
    (fun _ _ _ _ _ booked _ b => Balanced.booked keep b booked) balanced
  exact ⟨⟨_, holds⟩, by rw [booked, accounts_of_finished programs following]⟩

end

end StockMarket.Atomic
