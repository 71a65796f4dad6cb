import Mathlib.Algebra.Order.Ring.Int
import Mathlib.Data.List.TakeWhile

/-!
Numbers as `printf` writes them.

The conversion `%0wd` pads a number with zeros up to `w` characters, of which a minus is one
(`zeroPadded`). It never cuts a number off, so numbers of different lengths are told apart by
the character behind them alone: if that is no digit, the text determines the number and
where it ends (`zeroPadded_append_inj`).
-/

namespace StockMarket

/-- `%0wd`, where `w` is the width. -/
def zeroPadded (width : Nat) (n : Int) : List Char :=
  let digits := Nat.toDigits 10 n.natAbs
  if n < 0 then '-' :: digits.leftpad (width - 1) '0' else digits.leftpad width '0'

/-- `snprintf` to a buffer of `size` characters, of which one ends the text. -/
def snprintf (size : Nat) (text : List Char) : String :=
  String.ofList (text.take (size - 1))

example : zeroPadded 4 2025 = "2025".toList := by decide
example : zeroPadded 4 (-3) = "-003".toList := by decide

section

variable {width width' : Nat} {n n' : Int} {c : Char} {digits digits' rest rest' : List Char}

/-- Digits end at the first character that is none. -/
theorem digits_append_inj (all : ∀ d ∈ digits, d.isDigit) (all' : ∀ d ∈ digits', d.isDigit)
    (ends : c.isDigit = false) (same : digits ++ c :: rest = digits' ++ c :: rest') :
    digits = digits' ∧ rest = rest' := by
  have front : ∀ {ds r : List Char}, (∀ d ∈ ds, d.isDigit) →
      (ds ++ c :: r).takeWhile Char.isDigit = ds := by
    intro ds r all
    rw [List.takeWhile_append_of_pos all, List.takeWhile_cons_of_neg (by simp [ends]),
      List.append_nil]
  have equal : digits = digits' := by rw [← front all, same, front all']
  subst equal
  exact ⟨rfl, (List.cons.inj (List.append_cancel_left same)).2⟩

theorem isDigit_of_mem_leftpad {n : Nat} :
    ∀ d ∈ (Nat.toDigits 10 n).leftpad width '0', d.isDigit := by
  intro d mem
  rcases List.mem_append.mp mem with zero | digit
  · rw [List.eq_of_mem_replicate zero]
    decide
  · exact Nat.isDigit_of_mem_toDigits (by decide) (by decide) digit

/-- Leading zeros do not change a number. -/
theorem ofDigitChars_leftpad (width n : Nat) :
    Nat.ofDigitChars 10 ((Nat.toDigits 10 n).leftpad width '0') 0 = n := by
  rw [List.leftpad, Nat.ofDigitChars_append, Nat.ofDigitChars_replicate_zero, Nat.mul_zero,
    Nat.ofDigitChars_toDigits (by decide) (by decide)]

theorem leftpad_append_inj {n n' : Nat} (ends : c.isDigit = false)
    (same : (Nat.toDigits 10 n).leftpad width '0' ++ c :: rest
      = (Nat.toDigits 10 n').leftpad width' '0' ++ c :: rest') : n = n' ∧ rest = rest' := by
  obtain ⟨digits, rests⟩ :=
    digits_append_inj isDigit_of_mem_leftpad isDigit_of_mem_leftpad ends same
  refine ⟨?_, rests⟩
  rw [← ofDigitChars_leftpad width n, digits, ofDigitChars_leftpad]

/-- A minus is not how a natural number starts. -/
theorem leftpad_append_ne {n : Nat} :
    (Nat.toDigits 10 n).leftpad width '0' ++ c :: rest ≠ '-' :: rest' := by
  intro same
  cases padded : (Nat.toDigits 10 n).leftpad width '0' with
  | nil => exact Nat.toDigits_ne_nil (List.append_eq_nil_iff.mp padded).2
  | cons d ds =>
      have digit : d.isDigit := isDigit_of_mem_leftpad d (padded ▸ List.mem_cons_self)
      rw [padded, List.cons_append] at same
      rw [(List.cons.inj same).1] at digit
      exact absurd digit (by decide)

/-- **A number is read off its text**, up to a character that is no digit. -/
theorem zeroPadded_append_inj (ends : c.isDigit = false)
    (same : zeroPadded width n ++ c :: rest = zeroPadded width' n' ++ c :: rest') :
    n = n' ∧ rest = rest' := by
  unfold zeroPadded at same
  by_cases minus : n < 0 <;> by_cases minus' : n' < 0
  · simp only [minus, minus', if_true, List.cons_append, List.cons.injEq, true_and] at same
    obtain ⟨number, rests⟩ := leftpad_append_inj ends same
    exact ⟨by omega, rests⟩
  · simp only [minus, minus', if_true, if_false] at same
    exact absurd same.symm leftpad_append_ne
  · simp only [minus, minus', if_true, if_false] at same
    exact absurd same leftpad_append_ne
  · simp only [minus, minus', if_false] at same
    obtain ⟨number, rests⟩ := leftpad_append_inj ends same
    exact ⟨by omega, rests⟩

/-- A number of few digits is short. -/
theorem length_zeroPadded_le {k : Nat} (wide : width ≤ k) (pos : 0 < k)
    (few : n.natAbs < 10 ^ k) : (zeroPadded width n).length ≤ k + 1 := by
  have digits := (Nat.length_toDigits_le_iff (by decide : 1 < 10) pos).mpr few
  unfold zeroPadded
  simp only
  split <;> simp only [List.length_cons, List.length_leftpad] <;> omega

end

end StockMarket
