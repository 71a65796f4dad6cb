import Mathlib.Algebra.Order.Floor.Ring
import Mathlib.Algebra.Order.Ring.Abs
import Mathlib.Data.Nat.Log
import Mathlib.Data.Rat.Floor
import Mathlib.Tactic.FieldSimp
import Mathlib.Tactic.Linarith
import Mathlib.Tactic.NormNum

/-!
Rounding to the numbers of a 64-bit binary format.

A number of the format has 53 binary digits, the last of which counts at least `2 ^ -1074`.
`round q` is the one nearest to `q`, the even one of two, if there is no greatest number. There
is one (`largest`), and what lies half a step above it or more has left the range (`overflow`);
all that stays below is rounded to at most the largest number (`abs_round_le`).
-/

namespace Binary64

/-- `2 ^ k`, by powers of natural numbers. -/
def pow2 (k : ℤ) : ℚ :=
  if 0 ≤ k then ((2 ^ k.toNat : ℕ) : ℚ) else (((2 ^ (-k).toNat : ℕ) : ℚ))⁻¹

/-- The nearest integer, of two the even one. -/
def roundEven (x : ℚ) : ℤ :=
  if x - ⌊x⌋ < 1 / 2 then ⌊x⌋
  else if 1 / 2 < x - ⌊x⌋ then ⌊x⌋ + 1
  else if ⌊x⌋ % 2 = 0 then ⌊x⌋ else ⌊x⌋ + 1

/-- The exponent of the first binary digit. -/
def magnitude (q : ℚ) : ℤ :=
  let guess : ℤ := (Nat.log2 q.num.natAbs : ℤ) - Nat.log2 q.den
  if |q| < pow2 guess then guess - 1 else guess

/-- The nearest multiple of `2 ^ k`. -/
def roundTo (k : ℤ) (q : ℚ) : ℚ :=
  roundEven (q / pow2 k) * pow2 k

/-- The exponent of the last of 53 binary digits. -/
def lastDigit (q : ℚ) : ℤ :=
  magnitude q - 52

/-- The nearest number with 53 binary digits that ends no later than `2 ^ -1074`. -/
def round (q : ℚ) : ℚ :=
  roundTo (max (lastDigit q) (-1074)) q

/-- The largest number. -/
def largest : ℚ := pow2 1024 - pow2 971

/-- Half a step above the largest number. -/
def overflow : ℚ := pow2 1024 - pow2 970

/-- The number is one of the format. -/
def Exact (q : ℚ) : Prop :=
  |q| < overflow ∧ round q = q

instance (q : ℚ) : Decidable (Exact q) :=
  inferInstanceAs (Decidable (_ ∧ _))

/-! ### Powers -/

theorem pow2_eq (k : ℤ) : pow2 k = 2 ^ k := by
  unfold pow2
  split
  · rename_i nonneg
    obtain ⟨n, rfl⟩ := Int.eq_ofNat_of_zero_le nonneg
    simp
  · rename_i negative
    obtain ⟨n, eq⟩ := Int.eq_ofNat_of_zero_le (a := -k) (by omega)
    obtain rfl : k = -(n : ℤ) := by omega
    simp

theorem pow2_pos (k : ℤ) : 0 < pow2 k := by
  rw [pow2_eq]
  exact zpow_pos two_pos k

theorem pow2_add (k l : ℤ) : pow2 (k + l) = pow2 k * pow2 l := by
  rw [pow2_eq, pow2_eq, pow2_eq, zpow_add₀ two_ne_zero]

theorem pow2_le {k l : ℤ} (le : k ≤ l) : pow2 k ≤ pow2 l := by
  rw [pow2_eq, pow2_eq]
  exact zpow_le_zpow_right₀ one_le_two le

/-! ### Rounding to an integer -/

theorem roundEven_intCast (n : ℤ) : roundEven n = n := by
  unfold roundEven
  rw [Int.floor_intCast, sub_self, if_pos (by norm_num)]

/-- Rounding passes no integer. -/
theorem roundEven_le {x : ℚ} {n : ℤ} (le : x ≤ n) : roundEven x ≤ n := by
  have below : ⌊x⌋ ≤ n := Int.cast_le.mp ((Int.floor_le x).trans le)
  have next : ¬x - ⌊x⌋ < 1 / 2 → ⌊x⌋ + 1 ≤ n := by
    intro far
    have strict : (⌊x⌋ : ℚ) < n := by linarith
    exact Int.add_one_le_iff.mpr (Int.cast_lt.mp strict)
  unfold roundEven
  split
  · exact below
  · rename_i far
    split
    · exact next far
    · split
      · exact below
      · exact next far

theorem le_roundEven {x : ℚ} {n : ℤ} (le : n ≤ x) : n ≤ roundEven x := by
  have below : n ≤ ⌊x⌋ := Int.le_floor.mpr le
  unfold roundEven
  split
  · exact below
  · split
    · omega
    · split
      · exact below
      · omega

/-- From less than half a step above an integer it is rounded to that integer at most. -/
theorem roundEven_le_of_lt {x : ℚ} {n : ℤ} (lt : x < n + 1 / 2) : roundEven x ≤ n := by
  rcases le_or_gt x n with le | gt
  · exact roundEven_le le
  · have floor : ⌊x⌋ = n := Int.floor_eq_iff.mpr ⟨gt.le, by linarith⟩
    unfold roundEven
    rw [floor, if_pos (by linarith)]

theorem le_roundEven_of_lt {x : ℚ} {n : ℤ} (lt : n - 1 / 2 < x) : n ≤ roundEven x := by
  rcases le_or_gt (n : ℚ) x with le | gt
  · exact le_roundEven le
  · have floor : ⌊x⌋ = n - 1 := by
      refine Int.floor_eq_iff.mpr ⟨?_, ?_⟩ <;> push_cast <;> linarith
    have far : 1 / 2 < x - ⌊x⌋ := by
      rw [floor]
      push_cast
      linarith
    unfold roundEven
    rw [if_neg (not_lt.mpr far.le), if_pos far, floor]
    omega

theorem roundEven_mono {x y : ℚ} (le : x ≤ y) : roundEven x ≤ roundEven y := by
  have next : x ≤ ((⌊x⌋ + 1 : ℤ) : ℚ) := by
    push_cast
    exact (Int.lt_floor_add_one x).le
  rcases (Int.floor_mono le).lt_or_eq with lt | same
  · exact (roundEven_le next).trans ((Int.add_one_le_iff.mpr lt).trans
      (le_roundEven (Int.floor_le y)))
  · by_cases near : x - ⌊x⌋ < 1 / 2
    · have down : roundEven x = ⌊x⌋ := if_pos near
      rw [down, same]
      exact le_roundEven (Int.floor_le y)
    · by_cases far : 1 / 2 < y - ⌊y⌋
      · have up : roundEven y = ⌊y⌋ + 1 := by
          rw [roundEven, if_neg (not_lt.mpr far.le), if_pos far]
        rw [up, ← same]
        exact roundEven_le next
      · -- both are in the middle
        obtain rfl : x = y := by
          rw [same] at near
          linarith
        exact le_rfl

/-! ### The first digit -/

theorem magnitude_spec {q : ℚ} (ne : q ≠ 0) :
    pow2 (magnitude q) ≤ |q| ∧ |q| < pow2 (magnitude q + 1) := by
  have num : q.num.natAbs ≠ 0 := by simpa using ne
  have den : q.den ≠ 0 := q.den_ne_zero
  set a := Nat.log2 q.num.natAbs with ha
  set b := Nat.log2 q.den with hb
  have n1 : (pow2 a : ℚ) ≤ q.num.natAbs := by
    rw [pow2_eq, zpow_natCast]
    exact_mod_cast Nat.log2_self_le num
  have n2 : (q.num.natAbs : ℚ) < pow2 (a + 1) := by
    rw [pow2_eq, ← Nat.cast_succ, zpow_natCast]
    exact_mod_cast Nat.lt_log2_self (n := q.num.natAbs)
  have d1 : (pow2 b : ℚ) ≤ q.den := by
    rw [pow2_eq, zpow_natCast]
    exact_mod_cast Nat.log2_self_le den
  have d2 : (q.den : ℚ) < pow2 (b + 1) := by
    rw [pow2_eq, ← Nat.cast_succ, zpow_natCast]
    exact_mod_cast Nat.lt_log2_self (n := q.den)
  have dpos : (0 : ℚ) < q.den := by exact_mod_cast q.den_pos
  have size : |q| * q.den = q.num.natAbs := by
    rw [Nat.cast_natAbs, Int.cast_abs, ← Rat.mul_den_eq_num q, abs_mul, Nat.abs_cast]
  have upper : |q| < pow2 ((a : ℤ) - b + 1) := by
    have split : pow2 ((a : ℤ) + 1) = pow2 ((a : ℤ) - b + 1) * pow2 b := by
      rw [← pow2_add]
      congr 1
      ring
    have bound : |q| * q.den < pow2 ((a : ℤ) - b + 1) * q.den := by
      calc |q| * q.den = q.num.natAbs := size
        _ < pow2 (a + 1) := n2
        _ = pow2 ((a : ℤ) - b + 1) * pow2 b := split
        _ ≤ _ := mul_le_mul_of_nonneg_left d1 (pow2_pos _).le
    exact lt_of_mul_lt_mul_right bound dpos.le
  have lower : pow2 ((a : ℤ) - b - 1) ≤ |q| := by
    have split : pow2 ((a : ℤ) - b - 1) * pow2 (b + 1) = pow2 a := by
      rw [← pow2_add]
      congr 1
      ring
    have bound : pow2 ((a : ℤ) - b - 1) * q.den ≤ |q| * q.den := by
      calc pow2 ((a : ℤ) - b - 1) * q.den ≤ pow2 ((a : ℤ) - b - 1) * pow2 (b + 1) :=
            mul_le_mul_of_nonneg_left d2.le (pow2_pos _).le
        _ = pow2 a := split
        _ ≤ q.num.natAbs := n1
        _ = |q| * q.den := size.symm
    exact le_of_mul_le_mul_right bound dpos
  unfold magnitude
  simp only [← ha, ← hb]
  split
  · rename_i small
    rw [sub_add_cancel]
    exact ⟨lower, small⟩
  · rename_i large
    exact ⟨not_lt.mp large, upper⟩

/-! ### Rounding -/

theorem round_zero : round 0 = 0 := by
  have none : roundEven 0 = 0 := roundEven_intCast 0
  rw [round, roundTo, zero_div, none, Int.cast_zero, zero_mul]

theorem round_nonneg {q : ℚ} (nonneg : 0 ≤ q) : 0 ≤ round q := by
  refine mul_nonneg (Int.cast_nonneg (le_roundEven ?_)) (pow2_pos _).le
  rw [Int.cast_zero]
  exact div_nonneg nonneg (pow2_pos _).le

/-- Less than half a step above `n` steps it is rounded to `n` steps at most. -/
theorem abs_roundTo_le {k : ℤ} {q : ℚ} {n : ℕ} (lt : |q| < (n + 1 / 2) * pow2 k) :
    |roundTo k q| ≤ n * pow2 k := by
  have pos := pow2_pos k
  obtain ⟨below, above⟩ := abs_lt.mp lt
  have upper : roundEven (q / pow2 k) ≤ (n : ℤ) := by
    refine roundEven_le_of_lt ((div_lt_iff₀ pos).mpr ?_)
    exact_mod_cast above
  have lower : -(n : ℤ) ≤ roundEven (q / pow2 k) := by
    refine le_roundEven_of_lt ((lt_div_iff₀ pos).mpr ?_)
    push_cast
    linarith
  have size : |((roundEven (q / pow2 k) : ℤ) : ℚ)| ≤ n := by
    refine abs_le.mpr ⟨?_, ?_⟩
    · exact_mod_cast lower
    · exact_mod_cast upper
  rw [roundTo, abs_mul, abs_of_pos pos]
  exact mul_le_mul_of_nonneg_right size pos.le

theorem roundTo_mono (k : ℤ) {x y : ℚ} (le : x ≤ y) : roundTo k x ≤ roundTo k y := by
  have pos := pow2_pos k
  have scaled : x / pow2 k ≤ y / pow2 k := div_le_div_of_nonneg_right le pos.le
  exact mul_le_mul_of_nonneg_right (Int.cast_le.mpr (roundEven_mono scaled)) pos.le

/-- A power of two that ends no earlier than the last digit is not passed. -/
theorem roundTo_pow2 {k m : ℤ} (le : k ≤ m) (x : ℚ) :
    (x ≤ pow2 m → roundTo k x ≤ pow2 m) ∧ (pow2 m ≤ x → pow2 m ≤ roundTo k x) := by
  have pos := pow2_pos k
  obtain ⟨n, eq⟩ := Int.eq_ofNat_of_zero_le (sub_nonneg.mpr le)
  have steps : pow2 m = ((2 ^ n : ℤ) : ℚ) * pow2 k := by
    have split : m = n + k := by omega
    rw [split, pow2_add, pow2_eq n, zpow_natCast]
    push_cast
    rfl
  rw [steps]
  constructor
  · intro below
    exact mul_le_mul_of_nonneg_right (Int.cast_le.mpr (roundEven_le ((div_le_iff₀ pos).mpr below)))
      pos.le
  · intro above
    exact mul_le_mul_of_nonneg_right (Int.cast_le.mpr (le_roundEven ((le_div_iff₀ pos).mpr above)))
      pos.le

/-- **Rounding keeps the order.** -/
theorem round_mono {x y : ℚ} (nonneg : 0 ≤ x) (le : x ≤ y) : round x ≤ round y := by
  rcases nonneg.eq_or_lt with rfl | pos
  · rw [round_zero]
    exact round_nonneg le
  have pos' := pos.trans_le le
  obtain ⟨first, -⟩ := magnitude_spec pos.ne'
  obtain ⟨first', next'⟩ := magnitude_spec pos'.ne'
  obtain ⟨-, next⟩ := magnitude_spec pos.ne'
  rw [abs_of_pos pos] at first next
  rw [abs_of_pos pos'] at first' next'
  have magnitudes : magnitude x ≤ magnitude y := by
    by_contra above
    have far : pow2 (magnitude y + 1) ≤ pow2 (magnitude x) := pow2_le (by omega)
    linarith
  have digits : lastDigit x ≤ lastDigit y := by
    unfold lastDigit
    omega
  unfold round
  rcases (max_le_max_right (-1074) digits).lt_or_eq with earlier | same
  · -- the power of two at the first digit of `y` is between them
    have between : max (lastDigit y) (-1074) ≤ magnitude y ∧ magnitude x < magnitude y := by
      unfold lastDigit at *
      omega
    have below : x ≤ pow2 (magnitude y) := next.le.trans (pow2_le (by omega))
    exact ((roundTo_pow2 (earlier.le.trans between.1) x).1 below).trans
      ((roundTo_pow2 between.1 y).2 first')
  · rw [same]
    exact roundTo_mono _ le

/-- A multiple of a power of two that ends no earlier than the last digit is not rounded. -/
theorem round_of_multiple {q : ℚ} {k m : ℤ} (ends : max (lastDigit q) (-1074) ≤ k)
    (multiple : q = m * pow2 k) : round q = q := by
  unfold round
  set last := max (lastDigit q) (-1074)
  obtain ⟨n, eq⟩ := Int.eq_ofNat_of_zero_le (sub_nonneg.mpr ends)
  have steps : q = ((m * 2 ^ n : ℤ) : ℚ) * pow2 last := by
    have split : k = n + last := by omega
    rw [multiple, split, pow2_add, pow2_eq n, zpow_natCast]
    push_cast
    ring
  have scaled : q / pow2 last = ((m * 2 ^ n : ℤ) : ℚ) := by
    rw [div_eq_iff (pow2_pos last).ne']
    exact steps
  rw [roundTo, scaled, roundEven_intCast]
  exact steps.symm

theorem lastDigit_le {q : ℚ} {k : ℤ} (ne : q ≠ 0) (lt : |q| < pow2 (k + 53)) :
    lastDigit q ≤ k := by
  have first := (magnitude_spec ne).1
  unfold lastDigit
  by_contra above
  have far : pow2 (k + 53) ≤ pow2 (magnitude q) := pow2_le (by omega)
  linarith

theorem pow2_53 : pow2 53 = 9007199254740992 := by decide +kernel

/-- **What is rounded stays.** -/
theorem round_round (q : ℚ) : round (round q) = round q := by
  by_cases zero : q = 0
  · rw [zero, round_zero, round_zero]
  by_cases none : round q = 0
  · rw [none, round_zero]
  have last : round q = roundTo (max (lastDigit q) (-1074)) q := rfl
  set k := max (lastDigit q) (-1074) with hk
  have low : lastDigit q ≤ k := le_max_left _ _
  have size : |q| < pow2 (k + 53) := by
    refine (magnitude_spec zero).2.trans_le (pow2_le ?_)
    unfold lastDigit at low
    omega
  have bound : |round q| ≤ pow2 (k + 53) := by
    have digits : |q| < ((9007199254740992 : ℕ) + 1 / 2) * pow2 k := by
      have step := pow2_pos k
      rw [add_comm k, pow2_add, pow2_53] at size
      push_cast
      linarith
    rw [last, add_comm k, pow2_add, pow2_53]
    exact_mod_cast abs_roundTo_le digits
  have least : -1074 ≤ k := le_max_right _ _
  rcases bound.lt_or_eq with lt | eq
  · exact round_of_multiple (max_le (lastDigit_le none lt) least) last
  · -- it has reached the next power of two
    have next : |round q| < pow2 (k + 1 + 53) := by
      have twice : pow2 (k + 1 + 53) = 2 * pow2 (k + 53) := by
        have split : k + 1 + 53 = 1 + (k + 53) := by ring
        rw [split, pow2_add 1 (k + 53), pow2_eq 1, zpow_one]
      have step := pow2_pos (k + 53)
      rw [eq, twice]
      linarith
    have ends : max (lastDigit (round q)) (-1074) ≤ k + 53 := by
      have digit := lastDigit_le none next
      exact max_le (by omega) (by omega)
    rcases abs_choice (round q) with same | opposite
    · exact round_of_multiple (m := 1) ends (by rw [← eq, same]; norm_num)
    · exact round_of_multiple (m := -1) ends (by rw [← eq, opposite]; norm_num)

theorem pow2_971 : pow2 971 = 2 * pow2 970 := by
  have split := pow2_add 1 970
  norm_num at split
  rw [split]
  norm_num [pow2_eq 1]

theorem pow2_1024 : pow2 1024 = 9007199254740992 * pow2 971 := by
  rw [← pow2_53, ← pow2_add]
  norm_num

theorem largest_eq : largest = (9007199254740991 : ℕ) * pow2 971 := by
  rw [largest, pow2_1024]
  push_cast
  ring

theorem overflow_eq : overflow = ((9007199254740991 : ℕ) + 1 / 2) * pow2 971 := by
  rw [overflow, pow2_1024, pow2_971]
  push_cast
  ring

/-- **What stays below the overflow** is rounded to the largest number at most. -/
theorem abs_round_le {q : ℚ} (lt : |q| < overflow) : |round q| ≤ largest := by
  by_cases zero : q = 0
  · rw [zero, round_zero, abs_zero, largest_eq]
    exact mul_nonneg (Nat.cast_nonneg _) (pow2_pos 971).le
  obtain ⟨first, next⟩ := magnitude_spec zero
  unfold round
  set k := max (lastDigit q) (-1074) with hk
  by_cases small : k ≤ 970
  · -- below the last binade all is at most `2 ^ 1023`
    have digits : |q| < ((9007199254740992 : ℕ) + 1 / 2) * pow2 k := by
      have split : pow2 (magnitude q + 1) = 9007199254740992 * pow2 (lastDigit q) := by
        rw [← pow2_53, ← pow2_add, lastDigit]
        congr 1
        ring
      have last : pow2 (lastDigit q) ≤ pow2 k := pow2_le (le_max_left _ _)
      have step := pow2_pos k
      push_cast
      linarith
    have step : pow2 k ≤ pow2 970 := pow2_le small
    refine (abs_roundTo_le digits).trans ?_
    have low := pow2_pos 970
    rw [largest_eq, pow2_971]
    generalize pow2 970 = unit at *
    push_cast
    linarith
  · have large : magnitude q ≤ 1023 := by
      by_contra above
      have top : pow2 1024 ≤ |q| := (pow2_le (by omega)).trans first
      have low := pow2_pos 970
      have under : overflow < pow2 1024 := sub_lt_self _ low
      linarith
    have place : k = 971 := by
      unfold lastDigit at hk
      omega
    rw [overflow_eq] at lt
    rw [place, largest_eq]
    exact abs_roundTo_le lt

end Binary64
