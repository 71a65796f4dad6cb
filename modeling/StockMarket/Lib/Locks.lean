import Mathlib.Data.Set.Finite.Lemmas
import Mathlib.Data.Prod.Lex
import Mathlib.Logic.Relation

/-!
Threads that take locks.

A program is written with its critical sections (`Code.hold`), the loop of a consumer
(`Code.serve`), and the threads that it starts and waits for. What it computes is left out, apart
from some data that conditions may depend on: a branch and the number of rounds of a loop are free.
Locks are exclusive or shared, and no lock is recursive.

If every thread takes its locks in ascending order, and waits for conditions and for threads of a
higher level only while it holds none, then no thread waits for ever for another: whom a thread
waits for, and so on, ends at a thread that can move or at one whose condition is not met
(`Pool.Ordered.reaches`). This holds whether or not a waiting writer keeps readers out.

`Code.Every` follows a property of all code through a run, and `Code.Owes` what a thread has still
to add to a number.
-/

namespace StockMarket.Locks

variable {N M σ : Type}

/-! ### Programs -/

/-- How a lock is taken. -/
inductive Mode where
  | exclusive
  | shared
  deriving DecidableEq

/-- A program. `N` names threads and `M` locks. -/
inductive Code (N M σ : Type) where
  | skip
  | act (f : σ → σ)
  | seq (first second : Code N M σ)
  | either (left right : Code N M σ)
  /-- Any number of rounds. -/
  | loop (body : Code N M σ)
  /-- A critical section. -/
  | hold (m : M) (mode : Mode) (body : Code N M σ)
  /-- In each round, take the lock once the condition is met, change the data and give the lock
  back; then either end or do the body. -/
  | serve (m : M) (ready : σ → Bool) (take : σ → Bool × σ) (body : Code N M σ)
  | fork (name : N) (body : Code N M σ)
  /-- Wait until all threads of a name have finished. -/
  | join (name : N)

namespace Code

/-- One after the other. -/
def block (codes : List (Code N M σ)) : Code N M σ :=
  codes.foldr seq skip

/-- Wait for a condition. -/
def await (m : M) (ready : σ → Bool) : Code N M σ :=
  serve m ready (fun s => (false, s)) skip

end Code

/-- What a thread has still to do: run some code, or give a lock back. -/
inductive Frame (N M σ : Type) where
  | run (code : Code N M σ)
  | release (m : M) (mode : Mode)

structure Thread (N M σ : Type) where
  name : N
  stack : List (Frame N M σ)

structure Pool (N M σ : Type) where
  data : σ
  threads : List (Thread N M σ)

/-- The thread has the lock. -/
def Thread.Holds (t : Thread N M σ) (m : M) (mode : Mode) : Prop :=
  .release m mode ∈ t.stack

namespace Pool

/-- The lock can be had. -/
def Free (p : Pool N M σ) (m : M) : Mode → Prop
  | .exclusive => ∀ t ∈ p.threads, ∀ mode, ¬t.Holds m mode
  | .shared => ∀ t ∈ p.threads, ¬t.Holds m .exclusive

/-- All threads of the name have finished. -/
def Ended (p : Pool N M σ) (name : N) : Prop :=
  ∀ t ∈ p.threads, t.name = name → t.stack = []

/-- Some thread waits for the lock to itself. -/
def WriterWaits (p : Pool N M σ) (m : M) : Prop :=
  ∃ t ∈ p.threads, ∃ body rest, t.stack = .run (.hold m .exclusive body) :: rest

end Pool

/-! ### Steps -/

/-- What a frame may do: the new data, what takes its place and the threads it starts. -/
inductive Frame.Steps (p : Pool N M σ) :
    Frame N M σ → σ → List (Frame N M σ) → List (Thread N M σ) → Prop where
  | skip : Steps p (.run .skip) p.data [] []
  | act (f : σ → σ) : Steps p (.run (.act f)) (f p.data) [] []
  | seq (c d : Code N M σ) : Steps p (.run (.seq c d)) p.data [.run c, .run d] []
  | left (c d : Code N M σ) : Steps p (.run (.either c d)) p.data [.run c] []
  | right (c d : Code N M σ) : Steps p (.run (.either c d)) p.data [.run d] []
  | again (c : Code N M σ) : Steps p (.run (.loop c)) p.data [.run c, .run (.loop c)] []
  | leave (c : Code N M σ) : Steps p (.run (.loop c)) p.data [] []
  | lock {m : M} {mode : Mode} (c : Code N M σ) (free : p.Free m mode) :
      Steps p (.run (.hold m mode c)) p.data [.run c, .release m mode] []
  | release (m : M) (mode : Mode) : Steps p (.release m mode) p.data [] []
  | take {m : M} {ready : σ → Bool} {take : σ → Bool × σ} (c : Code N M σ)
      (free : p.Free m .exclusive) (met : ready p.data = true) :
      Steps p (.run (.serve m ready take c)) (take p.data).2
        (.release m .exclusive ::
          if (take p.data).1 then [.run c, .run (.serve m ready take c)] else []) []
  | fork (name : N) (c : Code N M σ) :
      Steps p (.run (.fork name c)) p.data [] [⟨name, [.run c]⟩]
  | join {name : N} (ended : p.Ended name) : Steps p (.run (.join name)) p.data [] []

/-- One thread moves. -/
inductive Step : Pool N M σ → Pool N M σ → Prop where
  | move {data data' : σ} {before after forked : List (Thread N M σ)} {name : N}
      {frame : Frame N M σ} {rest new : List (Frame N M σ)}
      (steps : frame.Steps ⟨data, before ++ ⟨name, frame :: rest⟩ :: after⟩ data' new forked) :
      Step ⟨data, before ++ ⟨name, frame :: rest⟩ :: after⟩
        ⟨data', before ++ ⟨name, new ++ rest⟩ :: after ++ forked⟩

/-- The first thread moves. -/
theorem Step.first {data data' : σ} {after forked : List (Thread N M σ)} {name : N}
    {frame : Frame N M σ} {rest new : List (Frame N M σ)}
    (steps : frame.Steps ⟨data, ⟨name, frame :: rest⟩ :: after⟩ data' new forked) :
    Step ⟨data, ⟨name, frame :: rest⟩ :: after⟩
      ⟨data', ⟨name, new ++ rest⟩ :: after ++ forked⟩ :=
  @Step.move _ _ _ _ _ [] _ _ _ _ _ _ steps

/-- Any number of steps. -/
abbrev Run (p p' : Pool N M σ) : Prop :=
  Relation.ReflTransGen Step p p'

/-- The frame may move, even if a waiting writer keeps readers out. -/
def Frame.CanMove (p : Pool N M σ) : Frame N M σ → Prop
  | .run (.hold m mode _) => p.Free m mode ∧ (mode = .shared → ¬p.WriterWaits m)
  | .run (.serve m ready _ _) => p.Free m .exclusive ∧ ready p.data = true
  | .run (.join name) => p.Ended name
  | _ => True

/-- The thread can move. -/
def Thread.CanMove (p : Pool N M σ) (t : Thread N M σ) : Prop :=
  ∃ frame rest, t.stack = frame :: rest ∧ frame.CanMove p

/-- Some thread can move. -/
def Pool.Moving (p : Pool N M σ) : Prop :=
  ∃ t ∈ p.threads, t.CanMove p

/-- Every thread has finished. -/
def Pool.Finished (p : Pool N M σ) : Prop :=
  ∀ t ∈ p.threads, t.stack = []

theorem Frame.CanMove.steps {p : Pool N M σ} : ∀ {frame : Frame N M σ}, frame.CanMove p →
    ∃ data new forked, frame.Steps p data new forked
  | .run .skip, _ => ⟨_, _, _, .skip⟩
  | .run (.act f), _ => ⟨_, _, _, .act f⟩
  | .run (.seq c d), _ => ⟨_, _, _, .seq c d⟩
  | .run (.either c d), _ => ⟨_, _, _, .left c d⟩
  | .run (.loop c), _ => ⟨_, _, _, .leave c⟩
  | .run (.hold _ _ c), can => ⟨_, _, _, .lock c can.1⟩
  | .run (.serve _ _ _ c), can => ⟨_, _, _, .take c can.1 can.2⟩
  | .run (.fork name c), _ => ⟨_, _, _, .fork name c⟩
  | .run (.join _), can => ⟨_, _, _, .join can⟩
  | .release m mode, _ => ⟨_, _, _, .release m mode⟩

/-- A pool with a thread that can move makes a step. -/
theorem Pool.Moving.step {p : Pool N M σ} (moving : p.Moving) : ∃ p', Step p p' := by
  obtain ⟨⟨name, _⟩, mem, frame, rest, rfl, can⟩ := moving
  obtain ⟨before, after, split⟩ := List.append_of_mem mem
  obtain ⟨data, threads⟩ := p
  obtain rfl : threads = _ := split
  obtain ⟨data', new, forked, steps⟩ := can.steps
  exact ⟨_, .move steps⟩

/-! ### Ascending order -/

section

variable (rank : M → Nat) (level : N → Nat)

/-- A thread of level `own` that needs no lock below `bound` may run the code: locks are taken in
ascending order, and a thread waits only for threads of higher levels and while it holds no lock. -/
def Code.Ordered : Code N M σ → Nat → Nat → Prop
  | .skip, _, _ | .act _, _, _ => True
  | .seq c d, own, bound | .either c d, own, bound => c.Ordered own bound ∧ d.Ordered own bound
  | .loop c, own, bound => c.Ordered own bound
  | .hold m _ c, own, bound => bound ≤ rank m ∧ c.Ordered own (rank m + 1)
  | .serve _ _ _ c, own, bound => bound = 0 ∧ c.Ordered own 0
  | .fork name c, _, _ => c.Ordered (level name) 0
  | .join name, own, bound => bound = 0 ∧ own < level name

/-- What the locks in a stack leave to be taken. -/
def bound : List (Frame N M σ) → Nat
  | [] => 0
  | .run _ :: rest => bound rest
  | .release m _ :: _ => rank m + 1

/-- Every frame may run when its turn comes. -/
def Orderly (own : Nat) : List (Frame N M σ) → Prop
  | [] => True
  | .run c :: rest => c.Ordered rank level own (bound rank rest) ∧ Orderly own rest
  | .release m _ :: rest => bound rank rest ≤ rank m ∧ Orderly own rest

/-- Every thread of the pool keeps to the order. -/
def Pool.Ordered (p : Pool N M σ) : Prop :=
  ∀ t ∈ p.threads, Orderly rank level (level t.name) t.stack

end

section

variable {rank : M → Nat} {level : N → Nat}

/-- A lock in a stack is below the bound. -/
theorem Orderly.rank_lt {own : Nat} {m : M} {mode : Mode} :
    ∀ {stack : List (Frame N M σ)}, Orderly rank level own stack → .release m mode ∈ stack →
      rank m < bound rank stack
  | .run _ :: _, orderly, mem => by
      rcases List.mem_cons.mp mem with here | later
      · cases here
      · exact orderly.2.rank_lt later
  | .release _ _ :: _, orderly, mem => by
      rcases List.mem_cons.mp mem with here | later
      · obtain ⟨rfl, rfl⟩ := Frame.release.inj here
        exact Nat.lt_succ_self _
      · exact (orderly.2.rank_lt later).trans_le (orderly.1.trans (Nat.le_succ _))

/-- A step keeps the order. -/
theorem Frame.Steps.orderly {p : Pool N M σ} {frame : Frame N M σ} {data : σ}
    {new : List (Frame N M σ)} {forked : List (Thread N M σ)} {own : Nat}
    (steps : frame.Steps p data new forked) {rest : List (Frame N M σ)}
    (orderly : Orderly rank level own (frame :: rest)) : Orderly rank level own (new ++ rest) ∧
      ∀ t ∈ forked, Orderly rank level (level t.name) t.stack := by
  cases steps with
  | skip | act | release | leave | join => exact ⟨orderly.2, List.forall_mem_nil _⟩
  | seq c d => exact ⟨⟨orderly.1.1, orderly.1.2, orderly.2⟩, List.forall_mem_nil _⟩
  | left c d => exact ⟨⟨orderly.1.1, orderly.2⟩, List.forall_mem_nil _⟩
  | right c d => exact ⟨⟨orderly.1.2, orderly.2⟩, List.forall_mem_nil _⟩
  | again c => exact ⟨⟨orderly.1, orderly.1, orderly.2⟩, List.forall_mem_nil _⟩
  | lock c free => exact ⟨⟨orderly.1.2, orderly.1.1, orderly.2⟩, List.forall_mem_nil _⟩
  | take c free met =>
      obtain ⟨⟨none, body⟩, kept⟩ := orderly
      refine ⟨?_, List.forall_mem_nil _⟩
      split
      · refine ⟨?_, ?_, ⟨none, body⟩, kept⟩
        · exact none ▸ Nat.zero_le _
        · exact none ▸ body
      · exact ⟨none ▸ Nat.zero_le _, kept⟩
  | fork name c =>
      exact ⟨orderly.2, List.forall_mem_singleton.mpr ⟨orderly.1, trivial⟩⟩

/-- Every pool that is reached keeps to the order. -/
theorem Run.ordered {p p' : Pool N M σ} (run : Run p p') (ordered : p.Ordered rank level) :
    p'.Ordered rank level := by
  induction run with
  | refl => exact ordered
  | tail _ step ih =>
      cases step with
      | @move _ _ before after _ name _ rest _ steps =>
          obtain ⟨kept, started⟩ := steps.orderly
            (ih ⟨name, _⟩ (List.mem_append_right _ List.mem_cons_self))
          intro t mem
          rcases List.mem_append.mp mem with old | new
          · rcases List.mem_append.mp old with first | later
            · exact ih t (List.mem_append_left _ first)
            · rcases List.mem_cons.mp later with rfl | last
              · exact kept
              · exact ih t (List.mem_append_right _ (List.mem_cons_of_mem _ last))
          · exact started t new

/-! ### Whom a thread waits for -/

/-- The first thread cannot move before the second has done something. -/
inductive Pool.WaitsFor (p : Pool N M σ) : Thread N M σ → Thread N M σ → Prop where
  | lock {own : N} {m : M} {mode mode' : Mode} {body : Code N M σ} {rest : List (Frame N M σ)}
      {t : Thread N M σ} (mem : t ∈ p.threads) (holds : t.Holds m mode')
        (conflict : mode = .shared → mode' ≠ .shared) :
      p.WaitsFor ⟨own, .run (.hold m mode body) :: rest⟩ t
  /-- A writer that waits may keep readers out. -/
  | writer {own : N} {m : M} {body body' : Code N M σ} {rest rest' : List (Frame N M σ)}
      {t : Thread N M σ} (mem : t ∈ p.threads)
      (waits : t.stack = .run (.hold m .exclusive body') :: rest') :
      p.WaitsFor ⟨own, .run (.hold m .shared body) :: rest⟩ t
  | data {own : N} {m : M} {mode : Mode} {ready : σ → Bool} {take : σ → Bool × σ}
      {body : Code N M σ} {rest : List (Frame N M σ)} {t : Thread N M σ} (mem : t ∈ p.threads)
      (holds : t.Holds m mode) : p.WaitsFor ⟨own, .run (.serve m ready take body) :: rest⟩ t
  | join {own : N} {rest : List (Frame N M σ)} {t : Thread N M σ} (mem : t ∈ p.threads)
      (unfinished : t.stack ≠ []) : p.WaitsFor ⟨own, .run (.join t.name) :: rest⟩ t

/-- The thread stands at a condition that is not met. -/
def Thread.Unmet (p : Pool N M σ) (t : Thread N M σ) : Prop :=
  ∃ m ready take body rest, t.stack = .run (.serve m ready take body) :: rest ∧
    ready p.data = false

/-- Where a thread stands among those that wait for each other: before a thread it joins, before
its condition, or at a lock. -/
def Thread.standing (rank : M → Nat) (level : N → Nat) (t : Thread N M σ) : Nat ×ₗ Nat :=
  match t.stack with
  | .run (.join _) :: _ => toLex (0, level t.name)
  | .run (.serve ..) :: _ => toLex (1, 0)
  | .run (.hold m .shared _) :: _ => toLex (2, 2 * rank m)
  | .run (.hold m .exclusive _) :: _ => toLex (2, 2 * rank m + 1)
  | stack => toLex (2, 2 * bound rank stack)

/-- A thread that cannot move waits for another or for its condition. -/
theorem Pool.exists_waitsFor {p : Pool N M σ} {t : Thread N M σ} (unfinished : t.stack ≠ []) :
    t.CanMove p ∨ t.Unmet p ∨ ∃ t', p.WaitsFor t t' := by
  obtain ⟨own, _ | ⟨frame, rest⟩⟩ := t
  · exact absurd rfl unfinished
  · by_cases can : frame.CanMove p
    · exact .inl ⟨frame, rest, rfl, can⟩
    · refine .inr ?_
      have exclusive {m : M} (held : ¬p.Free m .exclusive) :
          ∃ t ∈ p.threads, ∃ mode, t.Holds m mode := by
        by_contra none
        exact held fun t mem mode holds => none ⟨t, mem, mode, holds⟩
      cases frame with
      | release m mode => exact absurd trivial can
      | run c =>
          cases c with
          | hold m mode body =>
              refine .inr ?_
              by_cases free : p.Free m mode
              · have kept : mode = .shared ∧ p.WriterWaits m := by
                  by_contra none
                  exact can ⟨free, fun shared writer => none ⟨shared, writer⟩⟩
                obtain ⟨rfl, t, mem, body', rest', waits⟩ := kept
                exact ⟨t, .writer mem waits⟩
              · cases mode with
                | exclusive =>
                    obtain ⟨t, mem, mode, holds⟩ := exclusive free
                    exact ⟨t, .lock mem holds fun shared => Mode.noConfusion shared⟩
                | shared =>
                    by_contra none
                    refine free fun t mem holds => none ⟨t, .lock mem holds fun _ => ?_⟩
                    exact fun shared => Mode.noConfusion shared
          | serve m ready take body =>
              cases met : ready p.data with
              | false => exact .inl ⟨m, ready, take, body, rest, rfl, met⟩
              | true =>
                  obtain ⟨t, mem, mode, holds⟩ := exclusive fun free => can ⟨free, met⟩
                  exact .inr ⟨t, .data mem holds⟩
          | join name =>
              by_contra none
              refine can fun t mem named => ?_
              by_contra left
              subst named
              exact none (.inr ⟨t, .join mem left⟩)
          | _ => exact absurd trivial can

theorem Pool.WaitsFor.unfinished {p : Pool N M σ} {t t' : Thread N M σ} (waits : p.WaitsFor t t') :
    t'.stack ≠ [] := by
  cases waits with
  | lock _ holds _ | data _ holds => exact List.ne_nil_of_mem holds
  | writer _ waits => exact waits ▸ List.cons_ne_nil _ _
  | join _ unfinished => exact unfinished

theorem Pool.WaitsFor.mem {p : Pool N M σ} {t t' : Thread N M σ} (waits : p.WaitsFor t t') :
    t' ∈ p.threads := by
  cases waits <;> assumption

theorem Pool.mem_of_chain {p : Pool N M σ} {t t' : Thread N M σ} (mem : t ∈ p.threads)
    (chain : Relation.ReflTransGen p.WaitsFor t t') : t' ∈ p.threads := by
  rcases chain.cases_tail with rfl | ⟨_, -, last⟩
  · exact mem
  · exact last.mem

/-- A thread with a lock stands behind those that wait for the lock. -/
theorem Orderly.standing_of_holds {t : Thread N M σ} {m : M} {mode : Mode}
    (orderly : Orderly rank level (level t.name) t.stack) (holds : t.Holds m mode) :
    toLex (2, 2 * rank m + 1) < t.standing rank level := by
  have below := orderly.rank_lt holds
  have behind {n : Nat} (le : rank m + 1 ≤ n) :
      toLex (2, 2 * rank m + 1) < toLex (2, 2 * n) :=
    Prod.Lex.toLex_lt_toLex.mpr (.inr ⟨rfl, by change 2 * rank m + 1 < 2 * n; omega⟩)
  obtain ⟨own, stack⟩ := t
  cases stack with
  | nil => cases holds
  | cons frame rest =>
      cases frame with
      | release m' mode' => exact behind below
      | run c =>
          cases c with
          | hold m' mode' body =>
              have further : rank m + 1 ≤ rank m' := below.trans_le orderly.1.1
              cases mode' with
              | shared => exact behind further
              | exclusive =>
                  refine (behind further).trans (Prod.Lex.toLex_lt_toLex.mpr (.inr ⟨rfl, ?_⟩))
                  exact Nat.lt_succ_self _
          | serve | join =>
              -- it would have no lock
              have none : bound rank rest = 0 := orderly.1.1
              change rank m < bound rank rest at below
              exact absurd (none ▸ below) (Nat.not_lt_zero _)
          | _ => exact behind below

/-- Threads that wait for each other stand in ascending order. -/
theorem Pool.Ordered.ascends {p : Pool N M σ} (ordered : p.Ordered rank level)
    {t t' : Thread N M σ} (mem : t ∈ p.threads) (waits : p.WaitsFor t t') :
    t.standing rank level < t'.standing rank level := by
  cases waits with
  | @lock own m mode mode' body rest t mem' holds conflict =>
      refine lt_of_le_of_lt ?_ ((ordered _ mem').standing_of_holds holds)
      cases mode with
      | exclusive => exact le_refl _
      | shared => exact Prod.Lex.toLex_le_toLex.mpr (.inr ⟨rfl, Nat.le_succ _⟩)
  | writer _ waits =>
      obtain ⟨own', stack⟩ := t'
      obtain rfl : stack = _ := waits
      exact Prod.Lex.toLex_lt_toLex.mpr (.inr ⟨rfl, Nat.lt_succ_self _⟩)
  | data mem' holds =>
      refine lt_trans ?_ ((ordered _ mem').standing_of_holds holds)
      exact Prod.Lex.toLex_lt_toLex.mpr (.inl Nat.one_lt_two)
  | @join own rest t mem' unfinished =>
      have higher : level own < level t'.name := (ordered _ mem).1.2
      have first {n : Nat} : toLex (0, level own) < toLex (2, n) :=
        Prod.Lex.toLex_lt_toLex.mpr (.inl Nat.two_pos)
      obtain ⟨own', stack⟩ := t'
      cases stack with
      | nil => exact absurd rfl unfinished
      | cons frame rest' =>
          cases frame with
          | release => exact first
          | run c =>
              cases c with
              | join => exact Prod.Lex.toLex_lt_toLex.mpr (.inr ⟨rfl, higher⟩)
              | serve => exact Prod.Lex.toLex_lt_toLex.mpr (.inl Nat.one_pos)
              | hold m mode => cases mode <;> exact first
              | _ => exact first

/-- **No thread waits in vain.** From a thread that has not finished, one comes, by whom each
thread waits for, to one that can move or whose condition is not met. -/
theorem Pool.Ordered.reaches {p : Pool N M σ} (ordered : p.Ordered rank level)
    {t : Thread N M σ} (mem : t ∈ p.threads) (unfinished : t.stack ≠ []) :
    ∃ t', Relation.ReflTransGen p.WaitsFor t t' ∧ (t'.CanMove p ∨ t'.Unmet p) := by
  let chain := {t' | t'.stack ≠ [] ∧ Relation.ReflTransGen p.WaitsFor t t'}
  have finite : chain.Finite :=
    p.threads.finite_toSet.subset fun t' member => Pool.mem_of_chain mem member.2
  obtain ⟨last, ⟨left, path⟩, highest⟩ := Set.exists_max_image chain
    (Thread.standing rank level) finite ⟨t, unfinished, .refl⟩
  rcases p.exists_waitsFor left with can | unmet | ⟨next, waits⟩
  · exact ⟨last, path, .inl can⟩
  · exact ⟨last, path, .inr unmet⟩
  · have higher := highest next ⟨waits.unfinished, path.tail waits⟩
    exact absurd (ordered.ascends (Pool.mem_of_chain mem path) waits) (not_lt.mpr higher)

/-- A thread at its condition has no lock, so that only a thread that joins it can wait for it. -/
theorem Pool.Ordered.joins_of_unmet {p : Pool N M σ} (ordered : p.Ordered rank level)
    {t t' : Thread N M σ} (waits : p.WaitsFor t t') (unmet : t'.Unmet p) :
    ∃ rest, t.stack = .run (.join t'.name) :: rest := by
  obtain ⟨m, ready, take, body, rest, top, -⟩ := unmet
  have unheld {m : M} {mode : Mode} (mem : t' ∈ p.threads) : ¬t'.Holds m mode := by
    intro holds
    have behind := (ordered t' mem).standing_of_holds holds
    rw [Thread.standing, top] at behind
    rcases Prod.Lex.toLex_lt_toLex.mp behind with less | ⟨same, -⟩
    · exact absurd less (Nat.not_lt.mpr (Nat.le_succ 1))
    · exact absurd same (Nat.succ_ne_self 1)
  cases waits with
  | lock mem holds _ | data mem holds => exact absurd holds (unheld mem)
  | writer _ waits =>
      rw [top] at waits
      cases waits
  | join => exact ⟨_, rfl⟩

end

/-! ### What holds of all code -/

/-- The property holds of what the code does itself, and of its waits and the threads it starts,
for the thread that runs it. -/
def Code.Every (P : N → Code N M σ → Prop) : Code N M σ → N → Prop
  | .skip, _ => True
  | .act f, own => P own (.act f)
  | .seq c d, own | .either c d, own => c.Every P own ∧ d.Every P own
  | .loop c, own | .hold _ _ c, own => c.Every P own
  | .serve m ready take c, own => P own (.serve m ready take c) ∧ c.Every P own
  | .fork name c, own => P own (.fork name c) ∧ c.Every P name
  | .join name, own => P own (.join name)

/-- The property holds of all code that a thread has still to run. -/
def Thread.Every (P : N → Code N M σ → Prop) (t : Thread N M σ) : Prop :=
  ∀ c, .run c ∈ t.stack → c.Every P t.name

/-- What a frame leaves behind has the property, and so have the threads it starts. -/
theorem Frame.Steps.every {P : N → Code N M σ → Prop} {p : Pool N M σ} {frame : Frame N M σ}
    {data : σ} {new : List (Frame N M σ)} {forked : List (Thread N M σ)} {own : N}
    (steps : frame.Steps p data new forked) (every : ∀ c, frame = .run c → c.Every P own) :
    (∀ c, .run c ∈ new → c.Every P own) ∧ ∀ t ∈ forked, t.Every P := by
  have one {c d : Code N M σ} (holds : c.Every P own) (mem : Frame.run d ∈ [Frame.run c]) :
      d.Every P own := by
    obtain rfl := Frame.run.inj (List.mem_singleton.mp mem)
    exact holds
  have two {c d e : Code N M σ} (first : c.Every P own) (second : d.Every P own)
      (mem : Frame.run e ∈ [Frame.run c, Frame.run d]) : e.Every P own := by
    rcases List.mem_cons.mp mem with here | later
    · obtain rfl := Frame.run.inj here
      exact first
    · exact one second later
  cases steps with
  | skip | act | release | leave | join =>
      exact ⟨fun c mem => absurd mem List.not_mem_nil, List.forall_mem_nil _⟩
  | seq c d =>
      obtain ⟨first, second⟩ := every _ rfl
      exact ⟨fun e => two first second, List.forall_mem_nil _⟩
  | left c d => exact ⟨fun e => one (every _ rfl).1, List.forall_mem_nil _⟩
  | right c d => exact ⟨fun e => one (every _ rfl).2, List.forall_mem_nil _⟩
  | again c =>
      have body : c.Every P own := every (.loop c) rfl
      exact ⟨fun e => two body (every _ rfl), List.forall_mem_nil _⟩
  | @lock m mode c free =>
      refine ⟨fun e mem => ?_, List.forall_mem_nil _⟩
      rcases List.mem_cons.mp mem with here | later
      · obtain rfl := Frame.run.inj here
        exact every (.hold m mode e) rfl
      · cases List.mem_singleton.mp later
  | take c free met =>
      refine ⟨fun e mem => ?_, List.forall_mem_nil _⟩
      rcases List.mem_cons.mp mem with here | later
      · cases here
      · split at later
        · exact two (every _ rfl).2 (every _ rfl) later
        · cases later
  | fork name c =>
      refine ⟨fun e mem => absurd mem List.not_mem_nil, List.forall_mem_singleton.mpr ?_⟩
      intro e mem
      obtain rfl := Frame.run.inj (List.mem_singleton.mp mem)
      exact (every _ rfl).2

/-- Code that is started has the property if all code before has it. -/
theorem Run.every {P : N → Code N M σ → Prop} {p p' : Pool N M σ} (run : Run p p')
    (every : ∀ t ∈ p.threads, t.Every P) : ∀ t ∈ p'.threads, t.Every P := by
  induction run with
  | refl => exact every
  | tail _ step ih =>
      cases step with
      | @move _ _ before after _ name _ rest _ steps =>
          obtain ⟨earlier, others⟩ := List.forall_mem_append.mp ih
          obtain ⟨here, later⟩ := List.forall_mem_cons.mp others
          obtain ⟨left, started⟩ := steps.every fun c top => here c (top ▸ List.mem_cons_self)
          have moved : Thread.Every P ⟨name, _ ++ rest⟩ := fun c mem =>
            (List.mem_append.mp mem).elim (left c) fun old => here c (List.mem_cons_of_mem _ old)
          refine List.forall_mem_append.mpr ⟨List.forall_mem_append.mpr ⟨earlier, ?_⟩, started⟩
          exact List.forall_mem_cons.mpr ⟨moved, later⟩

/-- The code waits for no condition. -/
def Code.Unconditional : Code N M σ → Prop
  | .serve _ _ _ _ => False
  | _ => True

/-- Without conditions, one always comes to a thread that can move. -/
theorem Pool.Ordered.reaches_moving {rank : M → Nat} {level : N → Nat} {p : Pool N M σ}
    (ordered : p.Ordered rank level)
    (every : ∀ t ∈ p.threads, t.Every fun _ => Code.Unconditional) {t : Thread N M σ}
    (mem : t ∈ p.threads) (unfinished : t.stack ≠ []) :
    ∃ t' ∈ p.threads, Relation.ReflTransGen p.WaitsFor t t' ∧ t'.CanMove p := by
  obtain ⟨t', chain, can | ⟨_, _, _, _, _, top, -⟩⟩ := ordered.reaches mem unfinished
  · exact ⟨t', Pool.mem_of_chain mem chain, chain, can⟩
  · have here := every t' (Pool.mem_of_chain mem chain) _ (top ▸ List.mem_cons_self)
    exact here.1.elim

/-! ### What a function is shown to keep to -/

/-- A thread that needs no lock below `b` may run the code, which has the property. -/
def Code.Safe (rank : M → Nat) (level : N → Nat) (P : N → Code N M σ → Prop) (own : N) (b : Nat)
    (c : Code N M σ) : Prop :=
  c.Ordered rank level (level own) b ∧ c.Every P own

namespace Code

variable {rank : M → Nat} {level : N → Nat} {P : N → Code N M σ → Prop} {own name : N} {b : Nat}
  {c d : Code N M σ} {m : M} {mode : Mode}

@[simp] theorem safe_skip : Safe rank level P own b .skip := ⟨trivial, trivial⟩

@[simp] theorem safe_act {f : σ → σ} : Safe rank level P own b (.act f) ↔ P own (.act f) :=
  and_iff_right trivial

@[simp] theorem safe_seq :
    Safe rank level P own b (.seq c d) ↔ Safe rank level P own b c ∧ Safe rank level P own b d :=
  and_and_and_comm

@[simp] theorem safe_either :
    Safe rank level P own b (.either c d) ↔ Safe rank level P own b c ∧ Safe rank level P own b d :=
  and_and_and_comm

@[simp] theorem safe_loop : Safe rank level P own b (.loop c) ↔ Safe rank level P own b c := Iff.rfl

@[simp] theorem safe_hold :
    Safe rank level P own b (.hold m mode c) ↔ b ≤ rank m ∧ Safe rank level P own (rank m + 1) c :=
  and_assoc

@[simp] theorem safe_fork :
    Safe rank level P own b (.fork name c) ↔ P own (.fork name c) ∧ Safe rank level P name 0 c :=
  and_left_comm

@[simp] theorem safe_join : Safe rank level P own b (.join name) ↔
    (b = 0 ∧ level own < level name) ∧ P own (.join name) := Iff.rfl

@[simp] theorem safe_block {codes : List (Code N M σ)} :
    Safe rank level P own b (block codes) ↔ ∀ c ∈ codes, Safe rank level P own b c := by
  induction codes with
  | nil => exact ⟨fun _ => List.forall_mem_nil _, fun _ => safe_skip⟩
  | cons c codes ih => rw [List.forall_mem_cons, ← ih]; exact safe_seq

end Code

/-! ### Code that runs through -/

/-- The code only takes locks. -/
def Code.Local : Code N M σ → Prop
  | .skip | .act _ | .loop _ => True
  | .seq c d | .either c d => c.Local ∧ d.Local
  | .hold _ _ c => c.Local
  | .serve _ _ _ _ | .fork _ _ | .join _ => False

@[simp] theorem Code.local_block {codes : List (Code N M σ)} :
    (block codes).Local ↔ ∀ c ∈ codes, c.Local := by
  induction codes with
  | nil => exact ⟨fun _ => List.forall_mem_nil _, fun _ => trivial⟩
  | cons c codes ih => rw [List.forall_mem_cons, ← ih]; exact Iff.rfl

/-- What a thread has still to run is no lock. -/
@[simp] theorem Thread.holds_run {name : N} {c : Code N M σ} {rest : List (Frame N M σ)} {m : M}
    {mode : Mode} : Thread.Holds ⟨name, .run c :: rest⟩ m mode ↔ Thread.Holds ⟨name, rest⟩ m mode :=
  List.mem_cons.trans (or_iff_right fun same => by cases same)

/-- A lock that nobody has can be had in either way. -/
theorem Pool.Free.any {p : Pool N M σ} {m : M} {mode : Mode} (free : p.Free m .exclusive) :
    p.Free m mode := by
  cases mode with
  | exclusive => exact free
  | shared => exact fun t mem => free t mem .exclusive

/-- Nobody has a lock of this rank or a higher one. -/
def UnheldFrom (rank : M → Nat) (b : Nat) (threads : List (Thread N M σ)) : Prop :=
  ∀ m, b ≤ rank m → ∀ t ∈ threads, ∀ mode, ¬t.Holds m mode

section

variable {rank : M → Nat} {level : N → Nat} {b : Nat} {before after : List (Thread N M σ)}
  {name : N} {rest : List (Frame N M σ)}

@[simp] theorem unheldFrom_run {c : Code N M σ} :
    UnheldFrom rank b (before ++ ⟨name, .run c :: rest⟩ :: after) ↔
      UnheldFrom rank b (before ++ ⟨name, rest⟩ :: after) := by
  simp [UnheldFrom, or_imp, forall_and]

/-- Above a lock that a thread takes, all is as it was. -/
theorem UnheldFrom.release {m : M} {mode : Mode}
    (unheld : UnheldFrom rank b (before ++ ⟨name, rest⟩ :: after)) (le : b ≤ rank m) :
    UnheldFrom rank (rank m + 1) (before ++ ⟨name, .release m mode :: rest⟩ :: after) := by
  intro m' above t mem mode' holds
  have others := unheld m' (le.trans (Nat.le_of_succ_le above))
  rcases List.mem_append.mp mem with first | later
  · exact others t (List.mem_append_left _ first) mode' holds
  · rcases List.mem_cons.mp later with rfl | last
    · rcases List.mem_cons.mp holds with same | old
      · obtain ⟨rfl, -⟩ := Frame.release.inj same
        exact absurd above (Nat.not_succ_le_self _)
      · exact others ⟨name, rest⟩ (List.mem_append_right _ List.mem_cons_self) mode' old
    · exact others t (List.mem_append_right _ (List.mem_cons_of_mem _ last)) mode' holds

/-- A step that starts no thread, and what follows it. -/
theorem Frame.Steps.then {data data' : σ} {frame : Frame N M σ} {new : List (Frame N M σ)}
    {p : Pool N M σ}
    (steps : frame.Steps ⟨data, before ++ ⟨name, frame :: rest⟩ :: after⟩ data' new [])
    (run : Run ⟨data', before ++ ⟨name, new ++ rest⟩ :: after⟩ p) :
    Run ⟨data, before ++ ⟨name, frame :: rest⟩ :: after⟩ p := by
  refine .head ?_ run
  have moved := Step.move steps
  rwa [List.append_nil] at moved

/-- A thread comes to the end of such code if nobody has a lock that it may take. -/
theorem Code.Ordered.run_through {c : Code N M σ} {own : Nat} (ordered : c.Ordered rank level own b)
    (only : c.Local) (unheld : UnheldFrom rank b (before ++ ⟨name, rest⟩ :: after)) (data : σ) :
    ∃ data', Run ⟨data, before ++ ⟨name, .run c :: rest⟩ :: after⟩
      ⟨data', before ++ ⟨name, rest⟩ :: after⟩ := by
  induction c generalizing rest data b with
  | skip => exact ⟨_, Frame.Steps.skip.then .refl⟩
  | act f => exact ⟨_, (Frame.Steps.act f).then .refl⟩
  | loop c => exact ⟨_, (Frame.Steps.leave c).then .refl⟩
  | seq c d ihc ihd =>
      obtain ⟨between, first⟩ := ihc ordered.1 only.1 (unheldFrom_run.mpr unheld) data
      obtain ⟨data', second⟩ := ihd ordered.2 only.2 unheld between
      exact ⟨data', (Frame.Steps.seq c d).then (first.trans second)⟩
  | either c d ih =>
      obtain ⟨data', run⟩ := ih ordered.1 only.1 unheld data
      exact ⟨data', (Frame.Steps.left c d).then run⟩
  | hold m mode c ih =>
      obtain ⟨data', run⟩ := ih ordered.2 only (unheld.release ordered.1) data
      have free : Pool.Free ⟨data, before ++ ⟨name, .run (.hold m mode c) :: rest⟩ :: after⟩ m
          .exclusive := unheldFrom_run.mpr unheld m ordered.1
      have last : Run ⟨data', before ++ ⟨name, .release m mode :: rest⟩ :: after⟩
          ⟨data', before ++ ⟨name, rest⟩ :: after⟩ := (Frame.Steps.release m mode).then .refl
      exact ⟨data', (Frame.Steps.lock c free.any).then (run.trans last)⟩
  | serve | fork | join => exact only.elim

end

/-! ### What a thread owes -/

/-- The code adds so much to the number, whatever way it takes. -/
def Code.Owes (measure : σ → Int) : Code N M σ → Int → Prop
  | .act f, d => ∀ s, measure (f s) = measure s + d
  | .seq c e, d => ∃ d₁ d₂, c.Owes measure d₁ ∧ e.Owes measure d₂ ∧ d₁ + d₂ = d
  | .either c e, d => c.Owes measure d ∧ e.Owes measure d
  | .loop c, d => d = 0 ∧ c.Owes measure 0
  | .hold _ _ c, d => c.Owes measure d
  | .serve _ _ take c, d => d = 0 ∧ ∃ d', c.Owes measure d' ∧
      ∀ s, measure (take s).2 + (if (take s).1 then d' else 0) = measure s
  | .skip, d | .fork _ _, d | .join _, d => d = 0

/-- The same of all frames of a stack together. -/
def OwesAll (measure : σ → Int) : List (Frame N M σ) → Int → Prop
  | [], d => d = 0
  | .run c :: rest, d => ∃ d₁ d₂, c.Owes measure d₁ ∧ OwesAll measure rest d₂ ∧ d₁ + d₂ = d
  | .release _ _ :: rest, d => OwesAll measure rest d

/-- **A step pays what it no longer owes.** -/
theorem Frame.Steps.owes {measure : σ → Int} {p : Pool N M σ} {frame : Frame N M σ} {data : σ}
    {new rest : List (Frame N M σ)} {forked : List (Thread N M σ)} {d : Int}
    (steps : frame.Steps p data new forked) (owes : OwesAll measure (frame :: rest) d) :
    ∃ d', OwesAll measure (new ++ rest) d' ∧ measure data + d' = measure p.data + d := by
  cases steps with
  | release m mode => exact ⟨d, owes, rfl⟩
  | skip | leave | join | fork =>
      obtain ⟨d₁, d₂, none, others, rfl⟩ := owes
      refine ⟨d₂, others, ?_⟩
      first | obtain rfl : d₁ = 0 := none | obtain rfl : d₁ = 0 := none.1
      omega
  | act f =>
      obtain ⟨d₁, d₂, adds, others, rfl⟩ := owes
      exact ⟨d₂, others, by rw [adds p.data, Int.add_assoc]⟩
  | seq c e =>
      obtain ⟨-, d₃, ⟨d₁, d₂, first, second, rfl⟩, others, rfl⟩ := owes
      exact ⟨_, ⟨d₁, _, first, ⟨d₂, d₃, second, others, rfl⟩, rfl⟩, by omega⟩
  | left c e =>
      obtain ⟨d₁, d₂, both, others, rfl⟩ := owes
      exact ⟨_, ⟨d₁, d₂, both.1, others, rfl⟩, rfl⟩
  | right c e =>
      obtain ⟨d₁, d₂, both, others, rfl⟩ := owes
      exact ⟨_, ⟨d₁, d₂, both.2, others, rfl⟩, rfl⟩
  | again c =>
      obtain ⟨-, d₂, ⟨rfl, body⟩, others, rfl⟩ := owes
      exact ⟨_, ⟨0, _, body, ⟨0, d₂, ⟨rfl, body⟩, others, rfl⟩, rfl⟩, by omega⟩
  | lock c free =>
      obtain ⟨d₁, d₂, body, others, rfl⟩ := owes
      exact ⟨_, ⟨d₁, d₂, body, others, rfl⟩, rfl⟩
  | @take m ready take c free met =>
      obtain ⟨-, d₂, ⟨rfl, d', body, pays⟩, others, rfl⟩ := owes
      have paid := pays p.data
      by_cases more : (take p.data).1
      · rw [if_pos more] at paid ⊢
        exact ⟨d' + (0 + d₂), ⟨d', _, body, ⟨0, d₂, ⟨rfl, d', body, pays⟩, others, rfl⟩, rfl⟩,
          by omega⟩
      · rw [if_neg more] at paid ⊢
        exact ⟨d₂, others, by omega⟩

end StockMarket.Locks
