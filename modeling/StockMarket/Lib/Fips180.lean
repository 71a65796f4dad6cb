import Mathlib.Algebra.Order.Ring.Nat

/-!
SHA-256 as FIPS 180-4 defines it, for messages that are whole bytes.

The constants are what the standard says they are, the first bits of the fractional
parts of roots of primes (`fractionBits_spec`), the schedule is its recurrence, and a
message is padded and parsed as a whole before any block of it is compressed.

For code that takes a message in parts, `absorb_append_of_lt` and
`absorb_append_of_eq` say when a part completes a block.
-/

namespace StockMarket.Fips180

abbrev Word := BitVec 32

/-! ### Functions -/

def ch (x y z : Word) : Word := (x &&& y) ^^^ (~~~x &&& z)

def maj (x y z : Word) : Word := (x &&& y) ^^^ (x &&& z) ^^^ (y &&& z)

def bigSigma0 (x : Word) : Word := x.rotateRight 2 ^^^ x.rotateRight 13 ^^^ x.rotateRight 22

def bigSigma1 (x : Word) : Word := x.rotateRight 6 ^^^ x.rotateRight 11 ^^^ x.rotateRight 25

def smallSigma0 (x : Word) : Word := x.rotateRight 7 ^^^ x.rotateRight 18 ^^^ (x >>> 3)

def smallSigma1 (x : Word) : Word := x.rotateRight 17 ^^^ x.rotateRight 19 ^^^ (x >>> 10)

/-! ### Constants -/

/-- The first sixty-four prime numbers. -/
def primes : List Nat :=
  [2, 3, 5, 7, 11, 13, 17, 19, 23, 29, 31, 37, 41, 43, 47, 53, 59, 61, 67, 71, 73, 79, 83, 89,
    97, 101, 103, 107, 109, 113, 127, 131, 137, 139, 149, 151, 157, 163, 167, 173, 179, 181, 191,
    193, 197, 199, 211, 223, 227, 229, 233, 239, 241, 251, 257, 263, 269, 271, 277, 281, 283, 293,
    307, 311]

/-- Search for the integer part of the `k`-th root of `n`, of which `r` is what the bits
above the next ones give. -/
def rootFrom (k n : Nat) : Nat → Nat → Nat
  | 0, r => r
  | bits + 1, r =>
    if (r + 2 ^ bits) ^ k ≤ n then rootFrom k n bits (r + 2 ^ bits) else rootFrom k n bits r

/-- The first thirty-two bits of the fractional part of the `k`-th root of `p`. -/
def fractionBits (k p : Nat) : Word := BitVec.ofNat 32 (rootFrom k (p * 2 ^ (32 * k)) 40 0)

/-- `K`: of the cube roots of the primes. -/
def roundConstants : List Word := primes.map (fractionBits 3)

/-! ### The hash computation -/

/-- Eight words: a hash value, or the working variables. -/
structure HashValue where
  a : Word
  b : Word
  c : Word
  d : Word
  e : Word
  f : Word
  g : Word
  h : Word
  deriving DecidableEq, Repr

/-- `H(0)`: of the square roots of the first eight primes. -/
def initial : HashValue where
  a := fractionBits 2 2
  b := fractionBits 2 3
  c := fractionBits 2 5
  d := fractionBits 2 7
  e := fractionBits 2 11
  f := fractionBits 2 13
  g := fractionBits 2 17
  h := fractionBits 2 19

def HashValue.add (x y : HashValue) : HashValue where
  a := x.a + y.a
  b := x.b + y.b
  c := x.c + y.c
  d := x.d + y.d
  e := x.e + y.e
  f := x.f + y.f
  g := x.g + y.g
  h := x.h + y.h

/-- The `t`-th word of a block, the most significant byte first. -/
def blockWord (block : List (BitVec 8)) (t : Nat) : Word :=
  block.getD (4 * t) 0 ++ block.getD (4 * t + 1) 0 ++ block.getD (4 * t + 2) 0
    ++ block.getD (4 * t + 3) 0

/-- The message schedule. -/
def schedule (message : Nat → Word) (t : Nat) : Word :=
  if t < 16 then message t
  else
    smallSigma1 (schedule message (t - 2)) + schedule message (t - 7)
      + smallSigma0 (schedule message (t - 15)) + schedule message (t - 16)

def step (w : Nat → Word) (v : HashValue) (t : Nat) : HashValue :=
  let t₁ := v.h + bigSigma1 v.e + ch v.e v.f v.g + roundConstants.getD t 0 + w t
  let t₂ := bigSigma0 v.a + maj v.a v.b v.c
  { a := t₁ + t₂, b := v.a, c := v.b, d := v.c, e := v.d + t₁, f := v.e, g := v.f, h := v.g }

/-- The hash value after one more block. -/
def compress (value : HashValue) (block : List (BitVec 8)) : HashValue :=
  ((List.range 64).foldl (step (schedule (blockWord block))) value).add value

/-! ### Padding and parsing -/

/-- The zero bytes after the byte `0x80`: they fill up the last block but for eight bytes. -/
def zeros (length : Nat) : Nat := (119 - length % 64) % 64

/-- The length in bits of a message of fewer than `2 ^ 61` bytes, in 64 bits. -/
def lengthBytes (length : Nat) : List (BitVec 8) :=
  (List.range 8).map fun i => (BitVec.ofNat 64 (8 * length)).extractLsb' (8 * (7 - i)) 8

def pad (message : List (BitVec 8)) : List (BitVec 8) :=
  message ++ [0x80#8] ++ List.replicate (zeros message.length) 0#8 ++ lengthBytes message.length

/-- The whole blocks of a text, from the first on. -/
def blocks (text : List (BitVec 8)) : List (List (BitVec 8)) :=
  (List.range (text.length / 64)).map fun i => (text.drop (64 * i)).take 64

/-- The bytes behind the last whole block. -/
def remainder (text : List (BitVec 8)) : List (BitVec 8) := text.drop (64 * (text.length / 64))

/-- The hash value of the whole blocks of a text. -/
def absorb (text : List (BitVec 8)) : HashValue := (blocks text).foldl compress initial

def wordBytes (w : Word) : List (BitVec 8) :=
  (List.range 4).map fun i => w.extractLsb' (8 * (3 - i)) 8

def HashValue.words (x : HashValue) : List Word := [x.a, x.b, x.c, x.d, x.e, x.f, x.g, x.h]

/-- The message digest. -/
def digest (message : List (BitVec 8)) : List (BitVec 8) :=
  (absorb (pad message)).words.flatMap wordBytes

/-! ### What the constants are -/

/-- The search ends at the integer part of the root. -/
theorem rootFrom_spec {k n bits r : Nat} (low : r ^ k ≤ n) (high : n < (r + 2 ^ bits) ^ k) :
    rootFrom k n bits r ^ k ≤ n ∧ n < (rootFrom k n bits r + 1) ^ k := by
  induction bits generalizing r with
  | zero => exact ⟨low, high⟩
  | succ bits ih =>
      rw [rootFrom]
      split
      · rename_i fits
        refine ih fits ?_
        rwa [add_assoc, ← two_mul, ← pow_succ']
      · rename_i exceeds
        exact ih low (not_le.mp exceeds)

/-- The bits are those of the root, scaled by `2 ^ 32`, and the bits above are its integer
part. -/
theorem fractionBits_spec {k p : Nat} (pos : 0 < k) (small : p < 2 ^ (8 * k)) :
    ∃ r, fractionBits k p = BitVec.ofNat 32 r ∧ r ^ k ≤ p * 2 ^ (32 * k) ∧
      p * 2 ^ (32 * k) < (r + 1) ^ k := by
  refine ⟨_, rfl, rootFrom_spec ?_ ?_⟩
  · rw [zero_pow pos.ne']
    exact Nat.zero_le _
  · have wide : (0 + 2 ^ 40) ^ k = 2 ^ (8 * k) * 2 ^ (32 * k) := by
      rw [zero_add, ← pow_mul, ← pow_add]
      congr 1
      omega
    rw [wide]
    exact Nat.mul_lt_mul_of_pos_right small (Nat.two_pow_pos _)

/-! ### The recurrence -/

theorem schedule_of_lt {message : Nat → Word} {t : Nat} (first : t < 16) :
    schedule message t = message t := by
  rw [schedule, if_pos first]

theorem schedule_of_ge {message : Nat → Word} {t : Nat} (later : 16 ≤ t) :
    schedule message t = smallSigma1 (schedule message (t - 2)) + schedule message (t - 7)
      + smallSigma0 (schedule message (t - 15)) + schedule message (t - 16) := by
  rw [schedule, if_neg (not_lt.mpr later)]

/-! ### Parsing in parts -/

section

variable {text more : List (BitVec 8)}

/-- The zero bytes are the fewest that leave eight bytes of the last block. -/
theorem zeros_spec (n : Nat) : (n + 1 + zeros n) % 64 = 56 ∧ ∀ z < zeros n, (n + 1 + z) % 64 ≠ 56 := by
  unfold zeros
  constructor
  · omega
  · omega

theorem length_remainder : (remainder text).length = text.length % 64 := by
  rw [remainder, List.length_drop]
  omega

/-- What is appended does not change the blocks there are. -/
theorem blocks_append : blocks (text ++ more) = blocks text ++ blocks (remainder text ++ more) := by
  have whole : 64 * (text.length / 64) ≤ text.length := Nat.mul_div_le _ _
  have count : (text ++ more).length / 64
      = text.length / 64 + (remainder text ++ more).length / 64 := by
    rw [List.length_append, List.length_append, length_remainder]
    omega
  simp only [blocks, count, List.range_add, List.map_append, List.map_map]
  congr 1
  · refine List.map_congr_left fun i mem => ?_
    have here : 64 * i + 64 ≤ text.length := by
      have := List.mem_range.mp mem
      omega
    rw [List.drop_append_of_le_length (by omega), List.take_append_of_le_length]
    rw [List.length_drop]
    omega
  · refine List.map_congr_left fun i _ => ?_
    simp only [Function.comp_apply, Nat.mul_add, ← List.drop_drop]
    rw [List.drop_append_of_le_length whole, remainder]

theorem remainder_append : remainder (text ++ more) = remainder (remainder text ++ more) := by
  have whole : 64 * (text.length / 64) ≤ text.length := Nat.mul_div_le _ _
  have count : 64 * ((text ++ more).length / 64)
      = 64 * (text.length / 64) + 64 * ((remainder text ++ more).length / 64) := by
    rw [List.length_append, List.length_append, length_remainder]
    omega
  rw [remainder, count, ← List.drop_drop, List.drop_append_of_le_length whole]
  rfl

/-- Too few bytes to complete a block stay behind the last one. -/
theorem absorb_append_of_lt (few : text.length % 64 + more.length < 64) :
    absorb (text ++ more) = absorb text ∧ remainder (text ++ more) = remainder text ++ more := by
  have short : (remainder text ++ more).length / 64 = 0 := by
    rw [List.length_append, length_remainder]
    exact Nat.div_eq_of_lt few
  constructor
  · have none : blocks (remainder text ++ more) = [] := by rw [blocks, short]; rfl
    rw [absorb, blocks_append, none, List.append_nil]
    rfl
  · rw [remainder_append, remainder, short]
    rfl

/-- Just enough bytes complete one. -/
theorem absorb_append_of_eq (enough : text.length % 64 + more.length = 64) :
    absorb (text ++ more) = compress (absorb text) (remainder text ++ more) ∧
      remainder (text ++ more) = [] := by
  have full : (remainder text ++ more).length = 64 := by
    rw [List.length_append, length_remainder, enough]
  constructor
  · have one : blocks (remainder text ++ more) = [remainder text ++ more] := by
      simp [blocks, full, List.take_of_length_le]
    rw [absorb, blocks_append, one, List.foldl_append]
    rfl
  · rw [remainder_append, remainder, full]
    exact List.drop_of_length_le full.le

end

end StockMarket.Fips180
