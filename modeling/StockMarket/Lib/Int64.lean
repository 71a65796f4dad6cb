import Mathlib.Algebra.BigOperators.Group.List.Basic
import Mathlib.Algebra.Order.BigOperators.Group.List
import Mathlib.Algebra.Ring.Int.Defs
import Mathlib.Algebra.Order.Ring.Int

/-!
Signed 64-bit arithmetic on integers.

`wrap64` is the two's complement value of an integer in 64 bits. A sum whose partial sums are
wrapped is the wrapped sum (`foldl_add64`), so it is exact if and only if the exact sum fits
(`foldl_add64_eq_iff`), whatever the partial sums did.
-/

namespace StockMarket

/-- The value that 64 bits keep of an integer. -/
def wrap64 (x : Int) : Int :=
  x.bmod (2 ^ 64)

/-- The integer is a value of the type. -/
def FitsInt64 (x : Int) : Prop :=
  -2 ^ 63 ≤ x ∧ x < 2 ^ 63

instance (x : Int) : Decidable (FitsInt64 x) := by
  unfold FitsInt64
  infer_instance

theorem fitsInt64_wrap64 (x : Int) : FitsInt64 (wrap64 x) :=
  ⟨Int.le_bmod (by decide), Int.bmod_lt (by decide)⟩

theorem wrap64_eq_self_iff {x : Int} : wrap64 x = x ↔ FitsInt64 x := by
  constructor
  · intro same
    rw [← same]
    exact fitsInt64_wrap64 x
  · intro ⟨low, high⟩
    exact Int.bmod_eq_of_le (by omega) (by omega)

/-- Addition in 64 bits. -/
def add64 (x y : Int) : Int :=
  wrap64 (x + y)

/-- Multiplication in 64 bits. -/
def mul64 (x y : Int) : Int :=
  wrap64 (x * y)

@[simp] theorem add64_wrap64 (x y : Int) : add64 (wrap64 x) y = add64 x y :=
  Int.bmod_add_bmod

theorem add64_wrap64_right (x y : Int) : add64 x (wrap64 y) = add64 x y :=
  Int.add_bmod_bmod

section Sum

variable {α : Type} (f : α → Int)

/-- A loop that adds up. -/
theorem foldl_add (start : Int) (xs : List α) :
    xs.foldl (fun total x => total + f x) start = start + (xs.map f).sum := by
  induction xs generalizing start with
  | nil => exact (Int.add_zero _).symm
  | cons x xs ih => rw [List.foldl_cons, ih, List.map_cons, List.sum_cons, Int.add_assoc]

/-- The same loop in 64 bits. -/
theorem foldl_add64 (start : Int) (xs : List α) :
    xs.foldl (fun total x => add64 total (f x)) (wrap64 start)
      = wrap64 (start + (xs.map f).sum) := by
  induction xs generalizing start with
  | nil => rw [List.foldl_nil, List.map_nil, List.sum_nil, Int.add_zero]
  | cons x xs ih =>
      rw [List.foldl_cons, add64_wrap64, add64, ih, List.map_cons, List.sum_cons, Int.add_assoc]

/-- **A sum in 64 bits is exact if and only if the exact sum fits.** -/
theorem foldl_add64_eq_iff (xs : List α) :
    xs.foldl (fun total x => add64 total (f x)) 0 = xs.foldl (fun total x => total + f x) 0 ↔
      FitsInt64 (xs.map f).sum := by
  have start : (0 : Int) = wrap64 0 := by decide
  conv_lhs => lhs; rw [start]
  rw [foldl_add64, foldl_add, Int.zero_add]
  exact wrap64_eq_self_iff

end Sum

end StockMarket
