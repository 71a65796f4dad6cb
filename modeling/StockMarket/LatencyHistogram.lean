import Mathlib.Algebra.Group.Pi.Basic
import Mathlib.Algebra.Order.BigOperators.Group.Finset
import Mathlib.Algebra.Order.Ring.Int
import Mathlib.Data.Fin.VecNotation
import Mathlib.Data.Fintype.BigOperators
import StockMarket.Lib.Pool

/-!
The latency histogram (`LatencyHistogram` of `include/metrics.hpp`).

All threads of a server record their latencies in one histogram, without a lock: its
counters are atomics, and the maximum is raised by a compare-and-exchange loop whose
exchange may also fail for no reason. A call of `record` is therefore a `Recording` that
stands at a stage, and `RecordStep` is one action of it.

However the calls interleave, the histogram is in the end that of a single thread
(`record_exact`): no count is lost, and the loop leaves the largest latency. An exchange that
fails for no reason changes nothing at all; there is a bound on all the other actions.
-/

namespace StockMarket

/-- `kBucketBoundsUs`: the upper bounds of the buckets, in microseconds. -/
def bucketBoundsUs : Fin 7 → Int :=
  ![10, 50, 100, 500, 1000, 5000, 50000]

structure LatencyHistogram where
  count : Nat := 0
  sumUs : Int := 0
  maxUs : Int := 0
  buckets : Fin 7 → Nat := fun _ => 0
  overflowBucket : Nat := 0

namespace LatencyHistogram

/-- The first bucket whose bound is above the latency, if there is one. -/
def bucketOf (us : Int) : Option (Fin 7) :=
  (List.finRange 7).find? fun i => us < bucketBoundsUs i

/-- The last action of `record`: the bucket, or the overflow bucket, gets one more. -/
def addToBucket (us : Int) (h : LatencyHistogram) : LatencyHistogram :=
  match bucketOf us with
  | some i => { h with buckets := Function.update h.buckets i (h.buckets i + 1) }
  | none => { h with overflowBucket := h.overflowBucket + 1 }

/-- Where a call of `record` stands: what it has done last, and in the loop the value
`prev_max` that it compares with. -/
inductive Stage where
  | begun
  | counted
  | summed
  | comparing (prevMax : Int)
  | compared
  | recorded
  deriving DecidableEq

/-- A call of `record`. -/
structure Recording where
  us : Int
  stage : Stage := .begun
  deriving DecidableEq

/-- The next action of a call. -/
inductive RecordStep : LatencyHistogram → Recording → LatencyHistogram → Recording → Prop where
  | count (h : LatencyHistogram) (us : Int) :
      RecordStep h ⟨us, .begun⟩ { h with count := h.count + 1 } ⟨us, .counted⟩
  | sum (h : LatencyHistogram) (us : Int) :
      RecordStep h ⟨us, .counted⟩ { h with sumUs := h.sumUs + us } ⟨us, .summed⟩
  | loadMax (h : LatencyHistogram) (us : Int) :
      RecordStep h ⟨us, .summed⟩ h ⟨us, .comparing h.maxUs⟩
  | notLarger (h : LatencyHistogram) (us prevMax : Int) : ¬prevMax < us →
      RecordStep h ⟨us, .comparing prevMax⟩ h ⟨us, .compared⟩
  | exchanged (h : LatencyHistogram) (us prevMax : Int) : prevMax < us → h.maxUs = prevMax →
      RecordStep h ⟨us, .comparing prevMax⟩ { h with maxUs := us } ⟨us, .compared⟩
  -- A weak exchange may fail although the values agree. It loads the value in any case.
  | failed (h : LatencyHistogram) (us prevMax : Int) : prevMax < us →
      RecordStep h ⟨us, .comparing prevMax⟩ h ⟨us, .comparing h.maxUs⟩
  | bucket (h : LatencyHistogram) (us : Int) :
      RecordStep h ⟨us, .compared⟩ (h.addToBucket us) ⟨us, .recorded⟩

/-- An action that gets the call on: all but an exchange that failed for no reason. -/
def GetsOn (h : LatencyHistogram) (r : Recording) (h' : LatencyHistogram) (r' : Recording) : Prop :=
  RecordStep h r h' r' ∧ r' ≠ r

/-- Every call has returned. -/
def AllRecorded (calls : List Recording) : Prop :=
  ∀ r ∈ calls, r.stage = .recorded

instance (calls : List Recording) : Decidable (AllRecorded calls) := by
  unfold AllRecorded
  infer_instance

/-- What the histogram of some latencies should be: a bucket has those below its bound that
are in no bucket before it. -/
def ofLatencies (latencies : List Int) : LatencyHistogram where
  count := latencies.length
  sumUs := latencies.sum
  maxUs := latencies.foldl max 0
  buckets := fun i =>
    latencies.countP fun us => us < bucketBoundsUs i ∧ ∀ j < i, bucketBoundsUs j ≤ us
  overflowBucket := latencies.countP fun us => ∀ i, bucketBoundsUs i ≤ us

/-! ### Buckets -/

theorem bucketOf_eq_some_iff {us : Int} {i : Fin 7} : bucketOf us = some i ↔
    us < bucketBoundsUs i ∧ ∀ j < i, bucketBoundsUs j ≤ us := by
  rw [bucketOf, List.find?_eq_some_iff_getElem]
  simp only [decide_eq_true_eq, List.getElem_finRange, List.length_finRange, Bool.not_eq_true',
    decide_eq_false_iff_not, not_lt]
  refine and_congr_right fun _ => ⟨?_, fun before => ?_⟩
  · rintro ⟨k, h, rfl, before⟩ j le
    exact before j le
  · exact ⟨i, i.isLt, rfl, fun j le => before ⟨j, _⟩ le⟩

theorem bucketOf_eq_none_iff {us : Int} : bucketOf us = none ↔ ∀ i, bucketBoundsUs i ≤ us := by
  simp [bucketOf]

/-! ### The counters -/

/-- All counters but the maximum. -/
abbrev Counters := ℕ × ℤ × (Fin 7 → ℕ) × ℕ

def counters (h : LatencyHistogram) : Counters :=
  (h.count, h.sumUs, h.buckets, h.overflowBucket)

/-- What a latency adds to the buckets. -/
def bucketShare (us : Int) : Counters :=
  match bucketOf us with
  | some i => (0, 0, Pi.single i 1, 0)
  | none => (0, 0, 0, 1)

/-- What a call has added to the counters so far. -/
def Recording.share (r : Recording) : Counters :=
  match r.stage with
  | .begun => 0
  | .counted => (1, 0, 0, 0)
  | .summed | .comparing _ | .compared => (1, r.us, 0, 0)
  | .recorded => (1, r.us, 0, 0) + bucketShare r.us

theorem counters_addToBucket (us : Int) (h : LatencyHistogram) :
    (h.addToBucket us).counters = h.counters + bucketShare us := by
  unfold addToBucket bucketShare counters
  cases bucketOf us with
  | none => simp
  | some i =>
      have more : Function.update h.buckets i (h.buckets i + 1) = h.buckets + Pi.single i 1 := by
        funext j
        by_cases same : j = i
        · subst same
          simp
        · simp [same]
      simp [more]

/-- Each action adds to the counters what the call has done more. -/
theorem RecordStep.adds {h h' : LatencyHistogram} {r r' : Recording} (step : RecordStep h r h' r') :
    h'.counters + r.share = h.counters + r'.share := by
  cases step with
  | count us => simp [counters, Recording.share]
  | sum us => simp [counters, Recording.share]
  | loadMax us => rfl
  | notLarger us prevMax small => rfl
  | exchanged us prevMax larger same => rfl
  | failed us prevMax larger => rfl
  | bucket us =>
      rw [counters_addToBucket]
      simp only [Recording.share]
      abel

/-- The latency of a call is never changed. -/
theorem RecordStep.us_eq {h h' : LatencyHistogram} {r r' : Recording}
    (step : RecordStep h r h' r') : r'.us = r.us := by
  cases step <;> rfl

/-! ### The maximum -/

/-- What a call knows of the maximum. -/
def Recording.Knows (h : LatencyHistogram) (r : Recording) : Prop :=
  match r.stage with
  | .begun | .counted | .summed => True
  | .comparing prevMax => prevMax ≤ h.maxUs
  | .compared | .recorded => r.us ≤ h.maxUs

/-- No action lowers the maximum. -/
theorem RecordStep.maxUs_le {h h' : LatencyHistogram} {r r' : Recording}
    (step : RecordStep h r h' r') : h.maxUs ≤ h'.maxUs := by
  cases step with
  | exchanged us prevMax larger same => exact same.trans_le larger.le
  | bucket us =>
      unfold addToBucket
      split <;> exact le_rfl
  | _ => exact le_rfl

theorem maxUs_addToBucket (us : Int) (h : LatencyHistogram) :
    (h.addToBucket us).maxUs = h.maxUs := by
  unfold addToBucket
  split <;> rfl

theorem Recording.Knows.mono {h h' : LatencyHistogram} {r : Recording} (knows : r.Knows h)
    (grows : h.maxUs ≤ h'.maxUs) : r.Knows h' := by
  unfold Recording.Knows at knows ⊢
  split
  · trivial
  · trivial
  · trivial
  · exact le_trans (by simpa only [*] using knows) grows
  · exact le_trans (by simpa only [*] using knows) grows
  · exact le_trans (by simpa only [*] using knows) grows

/-! ### All calls -/

theorem foldl_max_le_iff {latencies : List Int} {start bound : Int} :
    latencies.foldl max start ≤ bound ↔ start ≤ bound ∧ ∀ us ∈ latencies, us ≤ bound := by
  induction latencies generalizing start with
  | nil => simp
  | cons us latencies ih => simp [ih, and_assoc]

/-- The maximum is not above that of all latencies, and no latency is. -/
def Bounded (bound : Int) (h : LatencyHistogram) : Prop :=
  0 ≤ h.maxUs ∧ h.maxUs ≤ bound

def Recording.KnowsBounded (bound : Int) (h : LatencyHistogram) (r : Recording) : Prop :=
  r.us ≤ bound ∧ r.Knows h

section

variable {bound : Int} {h h' : LatencyHistogram} {r r' u : Recording}

theorem RecordStep.own (good : Bounded bound h) (knows : r.KnowsBounded bound h)
    (step : RecordStep h r h' r') : Bounded bound h' ∧ r'.KnowsBounded bound h' := by
  obtain ⟨pos, below⟩ := good
  obtain ⟨mine, known⟩ := knows
  have grows := step.maxUs_le
  cases step with
  | count us => exact ⟨⟨pos, below⟩, mine, trivial⟩
  | sum us => exact ⟨⟨pos, below⟩, mine, trivial⟩
  | loadMax us => exact ⟨⟨pos, below⟩, mine, le_rfl⟩
  | notLarger us prevMax small => exact ⟨⟨pos, below⟩, mine, (not_lt.mp small).trans known⟩
  | exchanged us prevMax larger same => exact ⟨⟨pos.trans grows, mine⟩, mine, le_rfl⟩
  | failed us prevMax larger => exact ⟨⟨pos, below⟩, mine, le_rfl⟩
  | bucket us =>
      unfold Bounded Recording.KnowsBounded Recording.Knows
      rw [maxUs_addToBucket]
      exact ⟨⟨pos, below⟩, mine, known⟩

theorem RecordStep.other (knows : u.KnowsBounded bound h) (step : RecordStep h r h' r') :
    u.KnowsBounded bound h' :=
  ⟨knows.1, knows.2.mono step.maxUs_le⟩

/-- How many actions a call may still need: the value that it compares with grows whenever
an exchange fails for a reason. -/
def Recording.left (r : Recording) : Nat :=
  match r.stage with
  | .begun => 6 + r.us.toNat
  | .counted => 5 + r.us.toNat
  | .summed => 4 + r.us.toNat
  | .comparing prevMax => 3 + (r.us - prevMax).toNat
  | .compared => 1
  | .recorded => 0

theorem GetsOn.left_lt (good : Bounded bound h) (knows : r.KnowsBounded bound h)
    (goes : GetsOn h r h' r') : r'.left < r.left := by
  obtain ⟨step, changes⟩ := goes
  have pos := good.1
  have known := knows.2
  cases step with
  | failed us prevMax larger =>
      have other : h.maxUs ≠ prevMax := fun same => changes (by rw [same])
      have above : prevMax ≤ h.maxUs := known
      simp only [Recording.left]
      omega
  | _ =>
      simp only [Recording.left]
      omega

/-- A call that has not returned can get on. -/
theorem exists_getsOn (h : LatencyHistogram) (unfinished : r.stage ≠ .recorded) :
    ∃ h' r', GetsOn h r h' r' := by
  obtain ⟨us, stage⟩ := r
  cases stage with
  | begun => exact ⟨_, _, .count h us, by simp⟩
  | counted => exact ⟨_, _, .sum h us, by simp⟩
  | summed => exact ⟨_, _, .loadMax h us, by simp⟩
  | comparing prevMax =>
      by_cases larger : prevMax < us
      · by_cases same : h.maxUs = prevMax
        · exact ⟨_, _, .exchanged h us prevMax larger same, by simp⟩
        · exact ⟨_, _, .failed h us prevMax larger, by simpa using same⟩
      · exact ⟨_, _, .notLarger h us prevMax larger, by simp⟩
  | compared => exact ⟨_, _, .bucket h us, by simp⟩
  | recorded => exact absurd rfl unfinished

end

section

variable {latencies : List Int} {c : LatencyHistogram × List Recording}

/-- Calls of `record`, all at their beginning. -/
def calls (latencies : List Int) : List Recording :=
  latencies.map fun us => ⟨us, .begun⟩

/-- What holds at every moment. -/
theorem holds_of_run (run : Pool.Run RecordStep ({}, calls latencies) c) :
    Pool.Holds (Bounded (latencies.foldl max 0))
    (Recording.KnowsBounded (latencies.foldl max 0)) c := by
  refine run.keep (fun _ _ _ _ good knows step => step.own good knows)
    (fun _ _ _ _ _ _ _ knows step => step.other knows) ⟨⟨le_rfl, ?_⟩, ?_⟩
  · exact (foldl_max_le_iff.mp le_rfl).1
  · intro r mem
    obtain ⟨us, here, rfl⟩ := List.mem_map.mp mem
    exact ⟨(foldl_max_le_iff.mp le_rfl).2 us here, trivial⟩

theorem map_us_of_run (run : Pool.Run RecordStep ({}, calls latencies) c) :
    c.2.map Recording.us = latencies := by
  have same : c.2.map Recording.us = (calls latencies).map Recording.us :=
    Pool.Run.map_eq (fun _ _ _ _ step => step.us_eq) run
  rw [same, calls, List.map_map]
  exact List.map_id _

/-- At every moment the counters are what the calls have added. -/
theorem counters_of_run (run : Pool.Run RecordStep ({}, calls latencies) c) :
    c.1.counters = (c.2.map Recording.share).sum := by
  have moved : c.1.counters + ((calls latencies).map Recording.share).sum
      = counters {} + (c.2.map Recording.share).sum :=
    run.conserve fun _ _ _ _ step => step.adds
  have nothing : ((calls latencies).map Recording.share).sum = 0 := by
    refine List.sum_eq_zero fun x mem => ?_
    obtain ⟨r, here, rfl⟩ := List.mem_map.mp mem
    obtain ⟨us, -, rfl⟩ := List.mem_map.mp here
    rfl
  have empty : counters {} = 0 := rfl
  rwa [nothing, add_zero, empty, zero_add] at moved

/-- A latency is counted in its bucket, or among those above all bounds. -/
theorem counters_ofLatencies_cons (us : Int) (latencies : List Int) :
    (ofLatencies (us :: latencies)).counters
      = (1, us, 0, 0) + bucketShare us + (ofLatencies latencies).counters := by
  have bucket : ∀ i, (us < bucketBoundsUs i ∧ ∀ j < i, bucketBoundsUs j ≤ us) ↔
      bucketOf us = some i := fun i => bucketOf_eq_some_iff.symm
  have overflow : (∀ i, bucketBoundsUs i ≤ us) ↔ bucketOf us = none := bucketOf_eq_none_iff.symm
  simp only [counters, ofLatencies, List.length_cons, List.sum_cons, List.countP_cons, bucket,
    overflow, decide_eq_true_eq, bucketShare]
  cases bucketOf us with
  | none => simp [add_comm]
  | some k => simp [funext_iff, Pi.single_apply, add_comm, eq_comm]

/-- The counters of some latencies are what they add one by one. -/
theorem counters_ofLatencies (latencies : List Int) : (ofLatencies latencies).counters
    = (latencies.map fun us => ((1, us, 0, 0) : Counters) + bucketShare us).sum := by
  induction latencies with
  | nil => rfl
  | cons us latencies ih => rw [counters_ofLatencies_cons, ih, List.map_cons, List.sum_cons]

/-- **The histogram is that of all latencies** when every call has returned. -/
theorem eq_ofLatencies (run : Pool.Run RecordStep ({}, calls latencies) c)
    (finished : AllRecorded c.2) : c.1 = ofLatencies latencies := by
  have latenciesEq := map_us_of_run run
  have counted : c.1.counters = (ofLatencies latencies).counters := by
    have shares : c.2.map Recording.share
        = latencies.map fun us => ((1, us, 0, 0) : Counters) + bucketShare us := by
      rw [← latenciesEq, List.map_map]
      refine List.map_congr_left fun r mem => ?_
      simp only [Recording.share, finished r mem, Function.comp_apply]
    rw [counters_of_run run, shares, counters_ofLatencies]
  obtain ⟨⟨pos, below⟩, known⟩ := holds_of_run run
  have highest : latencies.foldl max 0 ≤ c.1.maxUs := by
    refine foldl_max_le_iff.mpr ⟨pos, fun us mem => ?_⟩
    rw [← latenciesEq] at mem
    obtain ⟨r, here, rfl⟩ := List.mem_map.mp mem
    have mine := (known r here).2
    rwa [Recording.Knows, finished r here] at mine
  obtain ⟨⟨count, sumUs, maxUs, buckets, overflowBucket⟩, recordings⟩ := c
  obtain rfl : maxUs = latencies.foldl max 0 := le_antisymm below highest
  simp only [counters, Prod.mk.injEq] at counted
  obtain ⟨rfl, rfl, rfl, rfl⟩ := counted
  rfl

/-- **Latencies are recorded exactly**, whatever the schedule: when all calls have returned the
histogram is that of their latencies; before, some call can get on; and they can do so only as
often as there is something left to do for them. -/
theorem record_exact (run : Pool.Run RecordStep ({}, calls latencies) c) :
    (AllRecorded c.2 → c.1 = ofLatencies latencies) ∧
      (¬AllRecorded c.2 → ∃ c', Pool.Step GetsOn c c') ∧
      ∀ cs, List.IsChain (Pool.Step GetsOn) (c :: cs) →
        cs.length ≤ Pool.work Recording.left c := by
  refine ⟨eq_ofLatencies run, fun unfinished => ?_, fun cs chain => ?_⟩
  · simp only [AllRecorded, not_forall] at unfinished
    obtain ⟨r, mem, stage⟩ := unfinished
    obtain ⟨before, after, split⟩ := List.append_of_mem mem
    obtain ⟨h', r', goes⟩ := exists_getsOn c.1 stage
    have start : c = (c.1, before ++ r :: after) := Prod.ext rfl split
    rw [start]
    exact ⟨_, .act before after goes⟩
  · exact Pool.length_le_work (fun _ _ _ _ good knows goes => goes.1.own good knows)
      (fun _ _ _ _ _ _ _ knows goes => goes.1.other knows)
      (fun _ _ _ _ good knows goes => goes.left_lt good knows) (holds_of_run run) chain

end

/-- Two calls of which both load the maximum 0: the second one raises it, and the exchange of
the first one fails. -/
theorem record_exact_race : ∃ c, Pool.Run RecordStep ({}, calls [7, 60]) c ∧ AllRecorded c.2 ∧
    c.1 = ofLatencies [7, 60] := by
  have first {h h' : LatencyHistogram} {r r' u : Recording} (goes : RecordStep h r h' r') :
      Pool.Step RecordStep (h, [r, u]) (h', [r', u]) := .act [] [u] goes
  have second {h h' : LatencyHistogram} {r r' u : Recording} (goes : RecordStep h r h' r') :
      Pool.Step RecordStep (h, [u, r]) (h', [u, r']) := .act [u] [] goes
  have run : Pool.Run RecordStep ({}, calls [7, 60])
      (_, [⟨7, .recorded⟩, ⟨60, .recorded⟩]) :=
    .head (first (.count _ 7)) <| .head (first (.sum _ 7)) <|
    .head (second (.count _ 60)) <| .head (second (.sum _ 60)) <|
    .head (first (.loadMax _ 7)) <| .head (second (.loadMax _ 60)) <|
    .head (second (.exchanged _ 60 0 (by decide) rfl)) <|
    .head (first (.failed _ 7 0 (by decide))) <|
    .head (first (.notLarger _ 7 60 (by decide))) <|
    .head (first (.bucket _ 7)) <| .head (second (.bucket _ 60)) .refl
  have finished : AllRecorded [⟨7, .recorded⟩, ⟨60, .recorded⟩] := by decide
  exact ⟨_, run, finished, (record_exact run).1 finished⟩

end LatencyHistogram

end StockMarket
