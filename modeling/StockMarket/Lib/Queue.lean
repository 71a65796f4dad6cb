import Mathlib.Data.List.Pairwise
import Mathlib.Data.Prod.Lex

/-!
Queues by rank, and by arrival among equal ranks.

An entry is a rank and the number of its arrival. A queue is `InTurn` if lower ranks come
first, and of equal ranks those that arrived first. A newcomer has the highest number. If it
is put in front of the first entry of no lower rank, as `std::lower_bound` does, the queue
stays in turn exactly if no entry has its rank (`inTurn_insert_iff`); entries that leave do
no harm (`InTurn.eraseIdx`, `InTurn.drop`).
-/

namespace StockMarket.Queue

variable {κ : Type} [LinearOrder κ]

/-- An entry of a lower rank, or of the same rank that arrived earlier. -/
def Before (x y : κ × ℕ) : Prop :=
  x.1 < y.1 ∨ x.1 = y.1 ∧ x.2 < y.2

def InTurn (entries : List (κ × ℕ)) : Prop :=
  entries.Pairwise Before

instance : DecidableRel (Before : κ × ℕ → κ × ℕ → Prop) := fun x y => by
  unfold Before
  infer_instance

instance (entries : List (κ × ℕ)) : Decidable (InTurn entries) := by
  unfold InTurn
  infer_instance

variable {entries : List (κ × ℕ)} {rank : κ} {number place : ℕ}

theorem Before.le {x y : κ × ℕ} (before : Before x y) : x.1 ≤ y.1 := by
  rcases before with lower | ⟨same, -⟩
  · exact lower.le
  · exact same.le

theorem InTurn.sublist {entries' : List (κ × ℕ)} (turn : InTurn entries)
    (sub : entries'.Sublist entries) : InTurn entries' :=
  List.Pairwise.sublist sub turn

theorem InTurn.eraseIdx (turn : InTurn entries) (place : ℕ) : InTurn (entries.eraseIdx place) :=
  turn.sublist (List.eraseIdx_sublist entries place)

theorem InTurn.drop (turn : InTurn entries) (n : ℕ) : InTurn (entries.drop n) :=
  turn.sublist (List.drop_sublist n entries)

/-- An element is put into a list: it has to agree with those before it and after it. -/
theorem pairwise_insert_iff {α : Type} {R : α → α → Prop} {xs : List α} {x : α} :
    (xs.take place ++ x :: xs.drop place).Pairwise R ↔
      xs.Pairwise R ∧ (∀ a ∈ xs.take place, R a x) ∧ ∀ b ∈ xs.drop place, R x b := by
  have split : xs.Pairwise R ↔ (xs.take place ++ xs.drop place).Pairwise R := by
    rw [List.take_append_drop]
  rw [split]
  simp only [List.pairwise_append, List.pairwise_cons, List.forall_mem_cons, forall_and]
  tauto

/-- The ranks of a queue with a newcomer are sorted if it stands at its place. -/
theorem ranked_insert {ranks : List κ} (ranked : ranks.Pairwise (· ≤ ·))
    (before : ∀ r ∈ ranks.take place, r < rank) (behind : ∀ r ∈ ranks.drop place, rank ≤ r) :
    (ranks.take place ++ rank :: ranks.drop place).Pairwise (· ≤ ·) :=
  pairwise_insert_iff.mpr ⟨ranked, fun r mem => (before r mem).le, behind⟩

/-- **A newcomer in front of its equals** leaves the queue in turn if and only if it has
none. -/
theorem inTurn_insert_iff (turn : InTurn entries)
    (before : ∀ x ∈ entries.take place, x.1 < rank) (behind : ∀ x ∈ entries.drop place, rank ≤ x.1)
    (last : ∀ x ∈ entries, x.2 < number) :
    InTurn (entries.take place ++ (rank, number) :: entries.drop place)
      ↔ ∀ x ∈ entries, x.1 ≠ rank := by
  rw [InTurn, pairwise_insert_iff]
  constructor
  · rintro ⟨-, -, later⟩ x mem same
    rw [← List.take_append_drop place entries, List.mem_append] at mem
    rcases mem with front | back
    · exact (before x front).ne same
    · -- the newcomer is in front of `x`, with a higher number
      rcases later x back with lower | ⟨-, earlier⟩
      · exact lower.ne same.symm
      · exact absurd (last x (List.mem_of_mem_drop back)) (not_lt.mpr earlier.le)
  · intro unlike
    refine ⟨turn, fun x mem => .inl (before x mem), fun x mem => ?_⟩
    have ne := unlike x (List.mem_of_mem_drop mem)
    exact .inl (lt_of_le_of_ne (behind x mem) ne.symm)

/-! ### Ranks and numbers in two lists -/

variable {α β : Type}

theorem zip_insert (as : List α) (bs : List β) (a : α) (b : β) (same : as.length = bs.length) :
    (as.take place ++ a :: as.drop place).zip (bs.take place ++ b :: bs.drop place)
      = (as.zip bs).take place ++ (a, b) :: (as.zip bs).drop place := by
  rw [List.zip_append (by simp [same]), List.zip_cons_cons]
  simp only [List.zip_eq_zipWith, List.take_zipWith, List.drop_zipWith]

theorem zip_drop (as : List α) (bs : List β) (n : ℕ) :
    (as.drop n).zip (bs.drop n) = (as.zip bs).drop n := by
  simp only [List.zip_eq_zipWith, List.drop_zipWith]

theorem zip_eraseIdx : ∀ (as : List α) (bs : List β) (place : ℕ),
    (as.eraseIdx place).zip (bs.eraseIdx place) = (as.zip bs).eraseIdx place
  | [], _, _ => by simp
  | _ :: _, [], _ => by simp
  | _ :: _, _ :: _, 0 => by simp
  | a :: as, b :: bs, place + 1 => by simp [zip_eraseIdx as bs place]

end StockMarket.Queue
