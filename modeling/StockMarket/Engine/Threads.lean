import StockMarket.Engine.Phases

/-!
The invariant of an engine that several threads use at once.

`EngineInvariant` has the orders that are on their way between registry and books;
under any schedule these are the orders that the threads are in the middle of. With the
orders that have an id but did not pass the checks yet, no order id is in two places
(`ThreadsInvariant`). A move takes one new id at most and lets orders leave or go from
one place to another (`ThreadsInvariant.passage`); so the invariant holds throughout
every run of threads that use the engine (`ThreadsInvariant.run`).
-/

namespace StockMarket

open Atomic MatchingEngine

variable {P : Type}

namespace MatchingEngine

/-- The orders with an id that threads and engine have between them. -/
def claimed (e : MatchingEngine P) (φs : List (Phase P)) : List (Order P) :=
  φs.flatMap Phase.drafts ++ e.openOrders (φs.flatMap Phase.underway)

end MatchingEngine

/-- The engine's invariant, with all orders that the threads have. -/
structure ThreadsInvariant [LT P] (e : MatchingEngine P) (φs : List (Phase P)) : Prop where
  engine : EngineInvariant e (φs.flatMap Phase.underway)
  distinct : ((e.claimed φs).map Order.id).Nodup
  given : ∀ id ∈ (e.claimed φs).map Order.id, id < e.nextOrderId

/-- An engine and its threads after some orders left or went from one place to another, and
at most one id was taken. -/
structure Passage [LT P] (e : MatchingEngine P) (φs : List (Phase P)) (e' : MatchingEngine P)
    (φs' : List (Phase P)) : Prop where
  engine : EngineInvariant e' (φs'.flatMap Phase.underway)
  ids : ∃ taken : List Nat,
    (taken = [] ∧ e'.nextOrderId = e.nextOrderId ∨
      taken = [e.nextOrderId] ∧ e'.nextOrderId = e.nextOrderId + 1) ∧
    ((e'.claimed φs').map Order.id).Subperm (taken ++ (e.claimed φs).map Order.id)

namespace Passage

variable [LT P] {e e' : MatchingEngine P} {φs φs' : List (Phase P)}

theorem next (passage : Passage e φs e' φs') : e.nextOrderId ≤ e'.nextOrderId := by
  obtain ⟨-, ⟨-, next⟩ | ⟨-, next⟩, -⟩ := passage.ids <;> omega

/-- An id that nobody has was not given out yet, or nobody gets it any more. -/
theorem absent (passage : Passage e φs e' φs') {id : Nat} (given : id < e.nextOrderId)
    (absent : id ∉ (e.claimed φs).map Order.id) : id ∉ (e'.claimed φs').map Order.id := by
  intro mem
  obtain ⟨taken, cases', ids⟩ := passage.ids
  rcases List.mem_append.mp (ids.subset mem) with new | old
  · rcases cases' with ⟨rfl, -⟩ | ⟨rfl, -⟩
    · cases new
    · have same := List.mem_singleton.mp new
      omega
  · exact absent old

/-- Ids stay distinct and given out. -/
theorem invariant (passage : Passage e φs e' φs') (inv : ThreadsInvariant e φs) :
    ThreadsInvariant e' φs' := by
  obtain ⟨taken, cases', kept, perm, sub⟩ := passage.ids
  have all : (taken ++ (e.claimed φs).map Order.id).Nodup ∧
      ∀ id ∈ taken ++ (e.claimed φs).map Order.id, id < e'.nextOrderId := by
    rcases cases' with ⟨rfl, next⟩ | ⟨rfl, next⟩
    · exact ⟨inv.distinct, fun id mem => next ▸ inv.given id mem⟩
    · refine ⟨List.nodup_cons.mpr ⟨fun mem => ?_, inv.distinct⟩, fun id mem => ?_⟩
      · exact absurd (inv.given _ mem) (lt_irrefl _)
      · rcases List.mem_cons.mp mem with rfl | mem
        · omega
        · have before := inv.given id mem
          omega
  refine ⟨passage.engine, perm.nodup_iff.mp (all.1.sublist sub), fun id mem => ?_⟩
  exact all.2 id (sub.subset (perm.mem_iff.mpr mem))

/-- Orders leave, or go from one place to another. -/
theorem moved (engine : EngineInvariant e' (φs'.flatMap Phase.underway))
    (ids : ((e'.claimed φs').map Order.id).Subperm ((e.claimed φs).map Order.id))
    (next : e'.nextOrderId = e.nextOrderId) : Passage e φs e' φs' :=
  ⟨engine, [], .inl ⟨rfl, next⟩, ids⟩

/-- The threads keep what they have, and the engine loses some orders at most. -/
theorem lost {gone : List (Order P)}
    (same : φs'.flatMap Phase.underway = φs.flatMap Phase.underway)
    (drafts : φs'.flatMap Phase.drafts = φs.flatMap Phase.drafts)
    (engine : EngineInvariant e' (φs.flatMap Phase.underway))
    (split : (e.openOrders (φs.flatMap Phase.underway)).Perm
      (gone ++ e'.openOrders (φs.flatMap Phase.underway)))
    (next : e'.nextOrderId = e.nextOrderId) : Passage e φs e' φs' := by
  refine .moved (same ▸ engine) ?_ next
  unfold claimed
  rw [same, drafts, List.map_append, List.map_append]
  have left := (split.map Order.id).symm
  rw [List.map_append] at left
  exact (List.Subperm.refl _).append ((List.sublist_append_right _ _).subperm.trans left.subperm)

end Passage

/-! ### Steps of the engine's invariant -/

namespace EngineInvariant

variable [LT P] {e : MatchingEngine P} {pending : List (Order P)}

/-- **A cancellation in a book** takes away one order if it says so, else none. -/
theorem bookCancelled [DecidableLT P] [IsStrictOrder P (· < ·)] (inv : EngineInvariant e pending)
    (c : BookCancel P) (s : Symbol) :
    let e' := e.withBook s (c.apply (e.bookFor s)).2
    EngineInvariant e' pending ∧ ∃ gone,
    (e.openOrders pending).Perm (gone ++ e'.openOrders pending) ∧
      ((c.apply (e.bookFor s)).1 = true → ∃ r, gone = [r] ∧ r.id = c.orderId) := by
  intro e'
  rcases c.one (inv.book s) with none | ⟨side, ls', removed, found⟩
  · have out : e' = e.withBook s (e.bookFor s) :=
      congrArg (fun o : Bool × OrderBook P => e.withBook s o.2) none
    have all : (e.bookFor s).restingOrders.Perm ([] ++ (e.bookFor s).restingOrders) := .refl _
    obtain ⟨kept, split⟩ := inv.withBook (inv.book s) all
    refine ⟨out ▸ kept, [], out ▸ split, fun hit => ?_⟩
    rw [none] at hit
    cases hit
  · have out : e' = e.withBook s ((e.bookFor s).setLevels side ls') :=
      congrArg (fun o : Bool × OrderBook P => e.withBook s o.2) found
    obtain ⟨r, same, -, split⟩ := removed.restingOrders
    rw [← List.singleton_append] at split
    obtain ⟨kept, split⟩ := inv.withBook ((inv.book s).removed removed) split
    exact ⟨out ▸ kept, [r], out ▸ split, fun _ => ⟨r, rfl, same⟩⟩

/-- **A cancellation in the registry** takes away one order if it says so, else none. -/
theorem waitingCancelled (inv : EngineInvariant e pending) (orderId : Nat) :
    EngineInvariant (e.withoutWaiting orderId) pending ∧ ∃ gone,
      (e.openOrders pending).Perm (gone ++ (e.withoutWaiting orderId).openOrders pending) ∧
      ((e.registry.cancel orderId).1 = true → ∃ r, gone = [r] ∧ r.id = orderId) := by
  obtain ⟨kept, split⟩ := inv.cancelledWaiting orderId
  refine ⟨kept, _, split, fun hit => ?_⟩
  rw [if_pos hit]
  have known : orderId ∈ e.registry.orderSymbolIndex := by
    by_contra absent
    rw [cancel_of_absent (AList.lookup_eq_none.mpr absent)] at hit
    cases hit
  obtain ⟨r, waits, same⟩ := inv.registry.mem_index.mp known
  subst same
  exact ⟨r, filter_id_eq (inv.registry.allWaiting_cancel waits) inv.registry.nodup_allWaiting, rfl⟩

end EngineInvariant

/-! ### One move -/

namespace ThreadsInvariant

section

variable [LT P] {e e' : MatchingEngine P} {φs φs' : List (Phase P)}

theorem perm (inv : ThreadsInvariant e φs) (same : φs.Perm φs') : ThreadsInvariant e φs' := by
  have underway := same.flatMap_right Phase.underway
  have claimed : (e.claimed φs').Perm (e.claimed φs) :=
    (same.flatMap_right Phase.drafts).symm.append (underway.symm.append_right _)
  refine ⟨inv.engine.perm underway, (claimed.map Order.id).nodup_iff.mpr inv.distinct, ?_⟩
  exact fun id mem => inv.given id ((claimed.map Order.id).mem_iff.mp mem)

/-- Books and registry are as before, and so are the threads' orders. -/
theorem congr (inv : ThreadsInvariant e φs)
    (underway : φs'.flatMap Phase.underway = φs.flatMap Phase.underway)
    (drafts : φs'.flatMap Phase.drafts = φs.flatMap Phase.drafts)
    (books : e'.books = e.books) (registry : e'.registry = e.registry)
    (next : e'.nextOrderId = e.nextOrderId) : Passage e φs e' φs' := by
  have opened : e'.openOrders (φs.flatMap Phase.underway)
      = e.openOrders (φs.flatMap Phase.underway) := by
    unfold openOrders allResting waitingOrders
    rw [books, registry]
  have split : (e.openOrders (φs.flatMap Phase.underway)).Perm
      ([] ++ e'.openOrders (φs.flatMap Phase.underway)) := List.Perm.of_eq opened.symm
  exact .lost underway drafts (inv.engine.congr books registry next) split next

/-- Idle threads and an engine whose invariant holds. -/
theorem of_idle {e : MatchingEngine P} {φs : List (Phase P)} (inv : EngineInvariant e [])
    (idle : ∀ φ ∈ φs, φ = .idle) : ThreadsInvariant e φs := by
  have underway : φs.flatMap Phase.underway = [] := by
    refine List.flatMap_eq_nil_iff.mpr fun φ mem => ?_
    rw [idle φ mem]
    rfl
  have drafts : φs.flatMap Phase.drafts = [] := by
    refine List.flatMap_eq_nil_iff.mpr fun φ mem => ?_
    rw [idle φ mem]
    rfl
  have claimed : e.claimed φs = e.openOrders [] := by
    rw [claimed, underway, drafts, List.nil_append]
  exact ⟨underway ▸ inv, claimed ▸ inv.once, claimed ▸ inv.given⟩

end

variable [Zero P] [Add P] [Sub P] [Mul P] [IntCast P] [LT P] [DecidableLT P] [LE P] [DecidableLE P]
  [IsStrictOrder P (· < ·)]

omit [LE P] [DecidableLE P] in
/-- A match of an order that the thread had. -/
theorem booked {e : MatchingEngine P} {φ φ' : Phase P} {φs : List (Phase P)} {o : Order P}
    (inv : ThreadsInvariant e (φ :: φs)) (clock : Nat → Int)
    (underway : φ.underway = o :: φ'.underway) (drafts : φ'.drafts = φ.drafts) :
    Passage e (φ :: φs) (matchBook clock o e).2 (φ' :: φs) := by
  have engine := inv.engine
  have before : (φ :: φs).flatMap Phase.underway = o :: (φ' :: φs).flatMap Phase.underway := by
    rw [List.flatMap_cons, List.flatMap_cons, underway, List.cons_append]
  rw [before] at engine
  have open' := map_openOrders_matched Order.id (fun _ _ => rfl) clock e
    ((φ' :: φs).flatMap Phase.underway) o
  rw [← openOrders_matchBook] at open'
  refine .moved (engine.booked clock) ?_ rfl
  have same : (φ' :: φs).flatMap Phase.drafts = (φ :: φs).flatMap Phase.drafts := by
    rw [List.flatMap_cons, List.flatMap_cons, drafts]
  rw [claimed, claimed, before, same, List.map_append, List.map_append]
  exact (List.Subperm.refl _).append open'

/-- **What a move does to the orders that threads and engine have.** -/
theorem passage {e e' : MatchingEngine P} {φ φ' : Phase P} {φs : List (Phase P)}
    (inv : ThreadsInvariant e (φ :: φs)) (moves : Move φ e φ' e') :
    Passage e (φ :: φs) e' (φ' :: φs) := by
  cases moves with
  | quiet φ same => exact inv.congr rfl rfl same.books same.registry same.nextOrderId
  | @draft _ o fresh =>
      have opened : (e.withId.claimed (.submitting o :: φs)).map Order.id
          = [o.id] ++ (e.claimed (.idle :: φs)).map Order.id := rfl
      refine ⟨inv.engine.skip, [e.nextOrderId], .inr ⟨rfl, rfl⟩, ?_⟩
      rw [opened, fresh]
  | reject o =>
      refine .moved inv.engine ?_ rfl
      exact (List.sublist_cons_self o.id _).subperm
  | @check _ o pos known =>
      have before : e.claimed (.submitting o :: φs) = o :: e.claimed (.idle :: φs) := rfl
      have distinct := inv.distinct
      rw [before, List.map_cons, List.nodup_cons] at distinct
      refine .moved (inv.engine.accepted (fun mem => distinct.1 ?_) ?_ pos known) ?_ rfl
      · rw [claimed, List.map_append]
        exact List.mem_append_right _ mem
      · exact inv.given o.id List.mem_cons_self
      · exact ((List.perm_middle (a := o)).map Order.id).subperm
  | refuse o =>
      refine .moved inv.engine.drop ?_ rfl
      exact (((List.sublist_cons_self o _).append_left _).map Order.id).subperm
  | hold waits => exact inv.congr rfl rfl rfl rfl rfl
  | queue o =>
      refine .moved inv.engine.enqueue ?_ rfl
      exact ((inv.engine.openOrders_enqueue.append_left _).map Order.id).subperm
  | matchNew clock o => exact inv.booked clock rfl rfl
  | matchReleased clock o later => exact inv.booked clock rfl rfl
  | price t released ts => exact inv.congr rfl rfl rfl rfl rfl
  | mark s released ts => exact inv.congr rfl rfl rfl rfl rfl
  | list symbols => exact inv.congr rfl rfl rfl rfl rfl
  | drain order => exact inv.congr rfl rfl rfl rfl rfl
  | scan order now s symbols result =>
      obtain ⟨engine, gone, split⟩ := inv.engine.scanStep order now s
      refine .moved engine ?_ rfl
      have left := (split.map Order.id).symm
      rw [List.map_append] at left
      unfold claimed
      rw [List.map_append, List.map_append]
      exact (List.Subperm.refl _).append
        ((List.sublist_append_right _ _).subperm.trans left.subperm)
  | cancelBook φ c s =>
      obtain ⟨engine, gone, split, -⟩ := inv.engine.bookCancelled c s
      exact .lost rfl rfl engine split rfl
  | cancelWaiting φ orderId =>
      obtain ⟨engine, gone, split, -⟩ := inv.engine.waitingCancelled orderId
      exact .lost rfl rfl engine split rfl
  | probeUnknown orderId unknown => exact inv.congr rfl rfl rfl rfl rfl
  | @probe _ orderId s _ | @probeFound _ orderId s _ =>
      obtain ⟨engine, gone, split, -⟩ := inv.engine.bookCancelled (.byId orderId) s
      exact .lost rfl rfl engine split rfl
  | @miss _ orderId _ _ | @found _ orderId _ _ =>
      obtain ⟨engine, gone, split, -⟩ := inv.engine.waitingCancelled orderId
      exact .lost rfl rfl engine split rfl

/-- **Every move keeps the invariant.** -/
theorem move {e e' : MatchingEngine P} {φ φ' : Phase P} {φs : List (Phase P)}
    (inv : ThreadsInvariant e (φ :: φs)) (moves : Move φ e φ' e') :
    ThreadsInvariant e' (φ' :: φs) :=
  (inv.passage moves).invariant inv

/-- **Every run keeps the invariant.** -/
theorem run {α : Type} {ends : α → Phase P → Prop}
    {allowed : MatchingEngine P → List (Phase P) → Phase P → Phase P → MatchingEngine P → Prop}
    {c c' : Phased (MatchingEngine P) (Phase P) α} (run : PhasedRun Move ends allowed c c')
    (inv : ThreadsInvariant c.1 (phases c.2)) : ThreadsInvariant c'.1 (phases c'.2) :=
  run.keep (fun _ _ _ same inv => inv.perm same) (fun _ _ _ _ _ moves _ inv => inv.move moves) inv

end ThreadsInvariant

/-- Between any two actions of some threads the orders that the engine has are in order. -/
theorem EngineInvariant.of_interleaves [Zero P] [Add P] [Sub P] [Mul P] [IntCast P] [LT P]
    [DecidableLT P] [LE P] [DecidableLE P] [IsStrictOrder P (· < ·)] [OfScientific P]
    {setup : List (SetupCall P)} {threads : List (List (EngineCall P))} {e : MatchingEngine P}
    {ps : List (Prog (MatchingEngine P) Unit)}
    (run : Interleaves (setUp setup, threads.map threadProgram) (e, ps)) :
    EngineInvariant e [] := by
  obtain ⟨threads', -, moves⟩ := interleaves_iff_engineRun.mp run
  have start : ThreadsInvariant (setUp setup) (phases (startThreads threads)) :=
    .of_idle (idle_setUp setup).invariant phases_startThreads
  have inv : EngineInvariant e ((phases threads').flatMap Phase.underway) :=
    (ThreadsInvariant.run moves start).engine
  generalize (phases threads').flatMap Phase.underway = pending at inv
  induction pending with
  | nil => exact inv
  | cons o pending ih => exact ih inv.drop

end StockMarket
