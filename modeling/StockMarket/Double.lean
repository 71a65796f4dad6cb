import StockMarket.Lib.Binary64
import StockMarket.Types
import Mathlib.Algebra.Order.Ring.Cast
import Mathlib.Algebra.Order.Ring.Rat
import Mathlib.Order.RelClasses

/-!
The values of a C++ `double`: finite numbers, the two infinities and NaN.

Comparisons and arithmetic are those of IEEE 754: a result is rounded to the nearest number
that a double holds, and beyond the largest one it is an infinity (`ofRat`). Only the two
zeros are one.
-/

namespace StockMarket

inductive Double where
  | finite (q : ℚ)
  | posInf
  | negInf
  | nan
  deriving DecidableEq, Repr

namespace Double

/-- `x < y`: false if one of them is NaN. -/
def less : Double → Double → Bool
  | finite p, finite q => p < q
  | finite _, posInf => true
  | negInf, finite _ => true
  | negInf, posInf => true
  | _, _ => false

/-- `x <= y`: false if one of them is NaN. -/
def lessEq : Double → Double → Bool
  | finite p, finite q => p ≤ q
  | finite _, posInf => true
  | negInf, finite _ => true
  | negInf, posInf => true
  | posInf, posInf => true
  | negInf, negInf => true
  | _, _ => false

instance : LT Double := ⟨fun x y => x.less y = true⟩
instance : LE Double := ⟨fun x y => x.lessEq y = true⟩

instance : DecidableLT Double := fun x y => inferInstanceAs (Decidable (x.less y = true))
instance : DecidableLE Double := fun x y => inferInstanceAs (Decidable (x.lessEq y = true))

/-- The sign, zero for zero and NaN. -/
def sign : Double → Int
  | finite q => if 0 < q then 1 else if q < 0 then -1 else 0
  | posInf => 1
  | negInf => -1
  | nan => 0

def neg : Double → Double
  | finite q => finite (-q)
  | posInf => negInf
  | negInf => posInf
  | nan => nan

/-- The double nearest to a number. -/
def ofRat (q : ℚ) : Double :=
  if |q| < Binary64.overflow then finite (Binary64.round q) else if 0 < q then posInf else negInf

/-- `x + y`: opposite infinities have no sum. -/
def add : Double → Double → Double
  | finite p, finite q => ofRat (p + q)
  | finite _, y => y
  | x, finite _ => x
  | posInf, posInf => posInf
  | negInf, negInf => negInf
  | _, _ => nan

/-- `x * y`: an infinity times zero has no value. -/
def mul : Double → Double → Double
  | finite p, finite q => ofRat (p * q)
  | x, y => if 0 < x.sign * y.sign then posInf else if x.sign * y.sign < 0 then negInf else nan

instance : Zero Double := ⟨finite 0⟩
instance : Add Double := ⟨add⟩
instance : Sub Double := ⟨fun x y => x.add y.neg⟩
instance : Mul Double := ⟨mul⟩
instance : IntCast Double := ⟨fun n => ofRat n⟩
instance : OfScientific Double := ⟨fun m s e => ofRat (OfScientific.ofScientific m s e)⟩

/-- NaN is comparable to nothing, all else is ordered. -/
instance : IsStrictOrder Double (· < ·) where
  irrefl := by
    intro x h
    have less : x.less x = true := h
    cases x with
    | finite q => exact lt_irrefl q (of_decide_eq_true less)
    | posInf => cases less
    | negInf => cases less
    | nan => cases less
  trans := by
    intro x y z h h'
    have first : x.less y = true := h
    have second : y.less z = true := h'
    have both : x.less z = true := by
      cases x <;> cases y <;> cases z <;>
        first
        | rfl
        | exact absurd first Bool.false_ne_true
        | exact absurd second Bool.false_ne_true
        | exact decide_eq_true ((of_decide_eq_true first).trans (of_decide_eq_true second))
    exact both

protected theorem le_trans {x y z : Double} (le : x ≤ y) (le' : y ≤ z) : x ≤ z := by
  have first : x.lessEq y = true := le
  have second : y.lessEq z = true := le'
  have both : x.lessEq z = true := by
    cases x <;> cases y <;> cases z <;>
      first
      | rfl
      | exact absurd first Bool.false_ne_true
      | exact absurd second Bool.false_ne_true
      | exact decide_eq_true ((of_decide_eq_true first).trans (of_decide_eq_true second))
  exact both

protected theorem le_antisymm {x y : Double} (le : x ≤ y) (ge : y ≤ x) : x = y := by
  have first : x.lessEq y = true := le
  have second : y.lessEq x = true := ge
  cases x <;> cases y <;>
    first
    | rfl
    | exact absurd first Bool.false_ne_true
    | exact absurd second Bool.false_ne_true
    | exact congrArg finite
        (le_antisymm (of_decide_eq_true first) (of_decide_eq_true second))

/-- Only NaN is not equal to itself. -/
theorem le_self {x : Double} (number : x ≠ nan) : x ≤ x := by
  cases x with
  | finite q => exact decide_eq_true le_rfl
  | posInf => rfl
  | negInf => rfl
  | nan => exact absurd rfl number

/-! ### Finite values -/

/-- Neither an infinity nor NaN. -/
def IsFinite (x : Double) : Prop :=
  ∃ q, x = finite q ∧ |q| ≤ Binary64.largest

instance : DecidablePred IsFinite
  | finite q => decidable_of_iff (|q| ≤ Binary64.largest)
      ⟨fun le => ⟨q, rfl, le⟩, fun ⟨_, eq, le⟩ => by cases eq; exact le⟩
  | posInf => isFalse fun ⟨_, h, _⟩ => by cases h
  | negInf => isFalse fun ⟨_, h, _⟩ => by cases h
  | nan => isFalse fun ⟨_, h, _⟩ => by cases h

/-- Finite and greater than zero. -/
def IsPositive (x : Double) : Prop :=
  x.IsFinite ∧ 0 < x

instance : DecidablePred IsPositive := fun x => inferInstanceAs (Decidable (x.IsFinite ∧ 0 < x))

/-- The number, `0` for what is none. -/
def value : Double → ℚ
  | finite q => q
  | _ => 0

section

variable {x y : Double} {p q : ℚ}

theorem lt_iff : finite p < finite q ↔ p < q := decide_eq_true_iff

theorem le_iff : finite p ≤ finite q ↔ p ≤ q := decide_eq_true_iff

theorem add_finite (p q : ℚ) : finite p + finite q = ofRat (p + q) := rfl

theorem sub_finite (p q : ℚ) : finite p - finite q = ofRat (p - q) :=
  congrArg ofRat (sub_eq_add_neg p q).symm

theorem mul_finite (p q : ℚ) : finite p * finite q = ofRat (p * q) := rfl

theorem intCast_eq (n : Int) : (n : Double) = ofRat n := rfl

theorem ofRat_of_lt (lt : |q| < Binary64.overflow) : ofRat q = finite (Binary64.round q) :=
  if_pos lt

/-- A number that a double holds. -/
theorem ofRat_of_exact (exact : Binary64.Exact q) : ofRat q = finite q := by
  rw [ofRat_of_lt exact.1, exact.2]

/-- Once is what it is. -/
theorem one_mul_ofRat (q : ℚ) : (1 : Int) * ofRat q = ofRat q := by
  have one : ((1 : Int) : Double) = finite 1 := by decide +kernel
  rw [one]
  unfold ofRat
  split
  · rename_i lt
    have range : |Binary64.round q| < Binary64.overflow := by
      refine (Binary64.abs_round_le lt).trans_lt ?_
      decide +kernel
    rw [mul_finite, one_mul, ofRat_of_exact ⟨range, Binary64.round_round q⟩]
  · split <;> rfl

theorem isFinite_ofRat (lt : |q| < Binary64.overflow) : (ofRat q).IsFinite :=
  ⟨_, ofRat_of_lt lt, Binary64.abs_round_le lt⟩

theorem IsFinite.zero : (0 : Double).IsFinite :=
  ⟨0, rfl, by decide +kernel⟩

theorem IsFinite.eq_value (fin : x.IsFinite) : x = finite x.value := by
  obtain ⟨q, rfl, -⟩ := fin
  rfl

/-- The value of a number that is not negative. -/
theorem value_nonneg (nonneg : 0 ≤ x) : 0 ≤ x.value := by
  cases x with
  | finite q => exact le_iff.mp nonneg
  | _ => exact le_rfl

theorem IsFinite.nonneg (fin : x.IsFinite) (nonneg : 0 ≤ x.value) : 0 ≤ x := by
  obtain ⟨q, rfl, -⟩ := fin
  exact le_iff.mpr nonneg

theorem IsPositive.value_pos (pos : x.IsPositive) : 0 < x.value := by
  obtain ⟨⟨q, rfl, -⟩, pos⟩ := pos
  exact lt_iff.mp pos

theorem IsPositive.not_le (pos : x.IsPositive) : ¬x ≤ 0 := by
  obtain ⟨⟨q, rfl, -⟩, pos⟩ := pos
  exact fun le => absurd (lt_iff.mp pos) (not_lt.mpr (le_iff.mp le))

/-- The guard `price <= 0` keeps out what is not positive, if the price is finite. -/
theorem IsFinite.positive_of_not_le (hx : x.IsFinite) (h : ¬x ≤ 0) : x.IsPositive := by
  obtain ⟨p, rfl, range⟩ := hx
  exact ⟨⟨p, rfl, range⟩, lt_iff.mpr (not_le.mp fun le => h (le_iff.mpr le))⟩

/-- Finite doubles are comparable. -/
theorem IsFinite.eq_of_not_lt (hx : x.IsFinite) (hy : y.IsFinite) (lt : ¬x < y) (gt : ¬y < x) :
    x = y := by
  obtain ⟨p, rfl, -⟩ := hx
  obtain ⟨q, rfl, -⟩ := hy
  exact congrArg finite (le_antisymm (not_lt.mp (mt lt_iff.mpr gt)) (not_lt.mp (mt lt_iff.mpr lt)))

end

/-! ### Amounts -/

/-- Half the last step of the finite doubles: added to one of them, what is less makes no
infinity of it. -/
def halfLastStep : ℚ := Binary64.pow2 970

theorem largest_add_halfLastStep : Binary64.largest + halfLastStep = Binary64.overflow := by
  have twice := Binary64.pow2_971
  unfold Binary64.largest Binary64.overflow halfLastStep
  generalize Binary64.pow2 1024 = top
  linarith

/-- Less than half the last step, and not negative. -/
def IsSmall (x : Double) : Prop :=
  ∃ q, x = finite q ∧ 0 ≤ q ∧ q < halfLastStep

section

variable {x y : Double} {n m : Int} {q : ℚ}

/-- **A small amount** more or less leaves a finite balance finite. -/
theorem IsFinite.add_small (hx : x.IsFinite) (hy : y.IsSmall) :
    (x + y).IsFinite ∧ (x - y).IsFinite := by
  obtain ⟨p, rfl, range⟩ := hx
  obtain ⟨q, rfl, nonneg, less⟩ := hy
  have limit := largest_add_halfLastStep
  obtain ⟨low, high⟩ := abs_le.mp range
  rw [add_finite, sub_finite]
  exact ⟨isFinite_ofRat (abs_lt.mpr ⟨by linarith, by linarith⟩),
    isFinite_ofRat (abs_lt.mpr ⟨by linarith, by linarith⟩)⟩

theorem one_le_round {q : ℚ} (le : 1 ≤ q) : 1 ≤ Binary64.round q := by
  have one : Binary64.round 1 = 1 := by decide +kernel
  exact one.symm.trans_le (Binary64.round_mono zero_le_one le)

/-- What is rounded to less than half the last step is less. -/
theorem lt_of_round_lt (lt : Binary64.round q < halfLastStep) :
    q < halfLastStep := by
  have step : Binary64.round halfLastStep = halfLastStep := by decide +kernel
  have pos : 0 ≤ halfLastStep := (Binary64.pow2_pos 970).le
  by_contra le
  have rounded := Binary64.round_mono pos (not_lt.mp le)
  linarith

/-- A positive integer. -/
theorem intCast_cases (pos : 0 < n) : (n : Double) = posInf ∨
    (n : Double) = finite (Binary64.round n) ∧ (n : ℚ) < Binary64.overflow ∧
      1 ≤ Binary64.round n := by
  have one : (1 : ℚ) ≤ n := by exact_mod_cast pos
  have size : |(n : ℚ)| = n := abs_of_pos (zero_lt_one.trans_le one)
  rw [intCast_eq, ofRat, size]
  split
  · rename_i lt
    exact .inr ⟨rfl, lt, one_le_round one⟩
  · exact .inl (if_pos (zero_lt_one.trans_le one))

theorem posInf_mul_finite (pos : 0 < q) : posInf * finite q = posInf := by
  have sign : (finite q).sign = 1 := if_pos pos
  change (if 0 < posInf.sign * (finite q).sign then posInf else _) = posInf
  rw [sign]
  rfl

theorem finite_mul_posInf (pos : 0 < q) : finite q * posInf = posInf := by
  have sign : (finite q).sign = 1 := if_pos pos
  change (if 0 < (finite q).sign * posInf.sign then posInf else _) = posInf
  rw [sign]
  rfl

theorem finite_mul_nan : finite q * nan = nan := by
  change (if 0 < (finite q).sign * 0 then posInf
    else if (finite q).sign * 0 < 0 then negInf else nan) = nan
  rw [mul_zero]
  rfl

/-- A small product of a positive integer and a price is one of finite numbers. -/
theorem finite_of_mul_lt (pos : 0 < n) (positive : ¬x ≤ 0)
    (small : (n : Double) * x < finite halfLastStep) :
    ∃ p, x = finite p ∧ 0 < p ∧ (n : ℚ) < Binary64.overflow ∧ 1 ≤ Binary64.round n ∧
      Binary64.round n * p < halfLastStep ∧
        Binary64.round (Binary64.round n * p) < halfLastStep := by
  have infinite : ¬posInf < finite halfLastStep := Bool.false_ne_true
  have undefined : ¬nan < finite halfLastStep := Bool.false_ne_true
  cases x with
  | negInf => exact absurd rfl positive
  | nan =>
      rcases intCast_cases pos with eq | ⟨eq, -⟩
      · rw [eq] at small
        exact absurd small undefined
      · rw [eq, finite_mul_nan] at small
        exact absurd small undefined
  | posInf =>
      rcases intCast_cases pos with eq | ⟨eq, -, least⟩
      · rw [eq] at small
        exact absurd small infinite
      · rw [eq, finite_mul_posInf (zero_lt_one.trans_le least)] at small
        exact absurd small infinite
  | finite p =>
      have price : 0 < p := not_le.mp fun le => positive (le_iff.mpr le)
      rcases intCast_cases pos with eq | ⟨eq, range, least⟩
      · rw [eq, posInf_mul_finite price] at small
        exact absurd small infinite
      · have product : 0 < Binary64.round n * p := mul_pos (zero_lt_one.trans_le least) price
        rw [eq, mul_finite, ofRat, abs_of_pos product, if_pos product] at small
        split at small
        · have rounded := lt_iff.mp small
          exact ⟨p, rfl, price, range, least, lt_of_round_lt rounded, rounded⟩
        · exact absurd small infinite

/-- A price whose product with a positive integer is small. -/
theorem isPositive_of_mul_lt (pos : 0 < n) (positive : ¬x ≤ 0)
    (small : (n : Double) * x < finite halfLastStep) : x.IsPositive := by
  obtain ⟨p, rfl, price, -, least, product, -⟩ := finite_of_mul_lt pos positive small
  have below : p ≤ Binary64.round n * p := le_mul_of_one_le_left price.le least
  have range : halfLastStep ≤ Binary64.largest := by decide +kernel
  refine ⟨⟨p, rfl, ?_⟩, lt_iff.mpr price⟩
  rw [abs_of_pos price]
  linarith

/-- **Fewer units** of a small product are a small amount. -/
theorem isSmall_of_le (pos : 0 < m) (le : m ≤ n) (positive : ¬x ≤ 0)
    (small : (n : Double) * x < finite halfLastStep) : ((m : Double) * x).IsSmall := by
  obtain ⟨p, rfl, price, range, -, product, rounded⟩ :=
    finite_of_mul_lt (pos.trans_le le) positive small
  have some : (0 : ℚ) < m := by exact_mod_cast pos
  have few : (m : ℚ) ≤ n := by exact_mod_cast le
  have units := Binary64.round_mono some.le few
  have least := Binary64.round_nonneg some.le
  have amount : 0 ≤ Binary64.round m * p := mul_nonneg least price.le
  have fewer : Binary64.round m * p ≤ Binary64.round n * p :=
    mul_le_mul_of_nonneg_right units price.le
  have limit : halfLastStep ≤ Binary64.overflow := by decide +kernel
  have cast : (m : Double) = finite (Binary64.round m) :=
    ofRat_of_lt (by rw [abs_of_pos some]; exact few.trans_lt range)
  rw [cast, mul_finite, ofRat_of_lt (by rw [abs_of_nonneg amount]; linarith)]
  exact ⟨_, rfl, Binary64.round_nonneg amount,
    (Binary64.round_mono amount fewer).trans_lt rounded⟩

end

end Double

end StockMarket
