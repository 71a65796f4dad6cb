import StockMarket.Lib.Fips180
import StockMarket.Net.Protocol

/-!
The hash function of the passwords (`include/net/sha256.hpp`).

A `Sha256` takes its input in parts: `update` copies bytes into a buffer of one block
and compresses the buffer whenever it is full, and `finalize` pads through `update`, a
byte at a time. What it has taken in is always the hash value of the whole blocks and,
in the buffer, the bytes behind them (`Sha256.Holds`), so the digest is the one of
FIPS 180-4 (`sha256_correct`).
-/

namespace StockMarket

open Fips180 (Word HashValue)

/-! ### One block -/

/-- The table `k` of `process_block`. -/
def sha256K : List Word :=
  [0x428a2f98, 0x71374491, 0xb5c0fbcf, 0xe9b5dba5, 0x3956c25b, 0x59f111f1, 0x923f82a4, 0xab1c5ed5,
    0xd807aa98, 0x12835b01, 0x243185be, 0x550c7dc3, 0x72be5d74, 0x80deb1fe, 0x9bdc06a7, 0xc19bf174,
    0xe49b69c1, 0xefbe4786, 0x0fc19dc6, 0x240ca1cc, 0x2de92c6f, 0x4a7484aa, 0x5cb0a9dc, 0x76f988da,
    0x983e5152, 0xa831c66d, 0xb00327c8, 0xbf597fc7, 0xc6e00bf3, 0xd5a79147, 0x06ca6351, 0x14292967,
    0x27b70a85, 0x2e1b2138, 0x4d2c6dfc, 0x53380d13, 0x650a7354, 0x766a0abb, 0x81c2c92e, 0x92722c85,
    0xa2bfe8a1, 0xa81a664b, 0xc24b8b70, 0xc76c51a3, 0xd192e819, 0xd6990624, 0xf40e3585, 0x106aa070,
    0x19a4c116, 0x1e376c08, 0x2748774c, 0x34b0bcb5, 0x391c0cb3, 0x4ed8aa4a, 0x5b9cca4f, 0x682e6ff3,
    0x748f82ee, 0x78a5636f, 0x84c87814, 0x8cc70208, 0x90befffa, 0xa4506ceb, 0xbef9a3f7, 0xc67178f2]

def rotr (x : Word) (n : Nat) : Word := (x >>> n) ||| (x <<< (32 - n))

/-- `w[i]` for the first sixteen words. -/
def loadWord (block : List Byte) (i : Nat) : Word :=
  ((block.getD (i * 4) 0).setWidth 32 <<< 24) ||| ((block.getD (i * 4 + 1) 0).setWidth 32 <<< 16)
    ||| ((block.getD (i * 4 + 2) 0).setWidth 32 <<< 8) ||| (block.getD (i * 4 + 3) 0).setWidth 32

/-- `w[i]` for the words behind them. -/
def nextWord (w : List Word) (i : Nat) : Word :=
  let s0 := rotr (w.getD (i - 15) 0) 7 ^^^ rotr (w.getD (i - 15) 0) 18
    ^^^ (w.getD (i - 15) 0 >>> 3)
  let s1 := rotr (w.getD (i - 2) 0) 17 ^^^ rotr (w.getD (i - 2) 0) 19
    ^^^ (w.getD (i - 2) 0 >>> 10)
  w.getD (i - 16) 0 + s0 + w.getD (i - 7) 0 + s1

/-- The array `w` after its two loops. -/
def loadSchedule (block : List Byte) : List Word :=
  let w := (List.range 16).foldl (fun w i => w.set i (loadWord block i)) (List.replicate 64 0)
  (List.range' 16 48).foldl (fun w i => w.set i (nextWord w i)) w

/-- The body of the last loop of `process_block`. -/
def sha256Round (w : List Word) (v : HashValue) (i : Nat) : HashValue :=
  let s1 := rotr v.e 6 ^^^ rotr v.e 11 ^^^ rotr v.e 25
  let ch := (v.e &&& v.f) ^^^ (~~~v.e &&& v.g)
  let temp1 := v.h + s1 + ch + sha256K.getD i 0 + w.getD i 0
  let s0 := rotr v.a 2 ^^^ rotr v.a 13 ^^^ rotr v.a 22
  let maj := (v.a &&& v.b) ^^^ (v.a &&& v.c) ^^^ (v.b &&& v.c)
  let temp2 := s0 + maj
  { h := v.g, g := v.f, f := v.e, e := v.d + temp1, d := v.c, c := v.b, b := v.a,
    a := temp1 + temp2 }

/-- `process_block`, for the array `h_` as eight named words. -/
def processBlock (h : HashValue) (block : List Byte) : HashValue :=
  let v := (List.range 64).foldl (sha256Round (loadSchedule block)) h
  { a := h.a + v.a, b := h.b + v.b, c := h.c + v.c, d := h.d + v.d,
    e := h.e + v.e, f := h.f + v.f, g := h.g + v.g, h := h.h + v.h }

/-! ### The stream -/

/-- The initial value of `h_`. -/
def sha256Initial : HashValue where
  a := 0x6a09e667
  b := 0xbb67ae85
  c := 0x3c6ef372
  d := 0xa54ff53a
  e := 0x510e527f
  f := 0x9b05688c
  g := 0x1f83d9ab
  h := 0x5be0cd19

structure Sha256 where
  h : HashValue := sha256Initial
  buffer : List Byte := List.replicate 64 0
  bufferLen : Nat := 0
  totalLen : BitVec 64 := 0

/-- `std::memcpy(buffer + start, data, …)`. -/
def copyInto (buffer : List Byte) (start : Nat) (data : List Byte) : List Byte :=
  buffer.take start ++ data ++ buffer.drop (start + data.length)

namespace Sha256

/-- The loop of `update`. Every round takes a byte at least, so there are no more rounds
than bytes. -/
def updateFrom : Nat → List Byte → Sha256 → Sha256
  | 0, _, s => s
  | fuel + 1, data, s =>
    if data = [] then s
    else
      let take := min data.length (64 - s.bufferLen)
      let buffer := copyInto s.buffer s.bufferLen (data.take take)
      let bufferLen := s.bufferLen + take
      if bufferLen = 64 then
        updateFrom fuel (data.drop take)
          { s with h := processBlock s.h buffer, buffer := buffer, bufferLen := 0 }
      else updateFrom fuel (data.drop take) { s with buffer := buffer, bufferLen := bufferLen }

def update (data : List Byte) (s : Sha256) : Sha256 :=
  updateFrom data.length data { s with totalLen := s.totalLen + BitVec.ofNat 64 data.length }

/-- The loop of `finalize`, if it ends within so many rounds. -/
def padZeros : Nat → Sha256 → Option Sha256
  | 0, s => if s.bufferLen ≠ 56 then none else some s
  | fuel + 1, s => if s.bufferLen ≠ 56 then padZeros fuel (update [0x00] s) else some s

/-- The array `len_bytes` of `finalize`. -/
def lenBytes (bitLen : BitVec 64) : List Byte :=
  (List.range 8).map fun i => ((bitLen >>> (8 * (7 - i))) &&& 0xFF#64).setWidth 8

/-- The four bytes of the digest for one word. -/
def digestBytes (w : Word) : List Byte :=
  [((w >>> 24) &&& 0xFF).setWidth 8, ((w >>> 16) &&& 0xFF).setWidth 8,
    ((w >>> 8) &&& 0xFF).setWidth 8, (w &&& 0xFF).setWidth 8]

def finalize (fuel : Nat) (s : Sha256) : Option (List Byte) :=
  let bitLen := s.totalLen * 8
  (padZeros fuel (update [0x80] s)).map fun s =>
    let h := processBlock s.h (copyInto s.buffer s.bufferLen (lenBytes bitLen))
    [h.a, h.b, h.c, h.d, h.e, h.f, h.g, h.h].flatMap digestBytes

/-- `Sha256::hash`, if the loop of `finalize` ends within so many rounds. -/
def hash (fuel : Nat) (input : List Byte) : Option (List Byte) :=
  finalize fuel (update input {})

/-! ### The compression function -/

theorem sha256K_eq : sha256K = Fips180.roundConstants := by decide +kernel

theorem sha256Initial_eq : sha256Initial = Fips180.initial := by decide +kernel

theorem bytes_eq_append (b₀ b₁ b₂ b₃ : Byte) :
    (b₀.setWidth 32 <<< 24) ||| (b₁.setWidth 32 <<< 16) ||| (b₂.setWidth 32 <<< 8)
    ||| b₃.setWidth 32
      = (b₀ ++ b₁ ++ b₂ ++ b₃ : Word) := by
  have high : ∀ (b : Byte) (i : Nat), ¬i < 8 → b.getLsbD i = false :=
    fun b i large => BitVec.getLsbD_of_ge b i (not_lt.mp large)
  refine BitVec.eq_of_getLsbD_eq fun j hj => ?_
  simp only [BitVec.getLsbD_or, BitVec.getLsbD_shiftLeft, BitVec.getLsbD_setWidth,
    BitVec.getLsbD_append, Nat.sub_sub]
  rcases (by omega : j < 8 ∨ 8 ≤ j ∧ j < 16 ∨ 16 ≤ j ∧ j < 24 ∨ 24 ≤ j) with
    first | ⟨least, second⟩ | ⟨least, third⟩ | last
  · simp [hj, first, show j < 16 by omega, show j < 24 by omega]
  · simp [hj, least, second, show j < 24 by omega, show j - 8 < 8 by omega,
      show j - 8 < 32 by omega]
  · simp [hj, least, third, high b₃ j, high b₂ (j - 8), show ¬j < 8 by omega,
      show ¬j - 8 < 8 by omega, show j - 16 < 8 by omega, show j - 16 < 32 by omega]
  · simp [hj, last, high b₃ j, high b₂ (j - 8), high b₁ (j - 16), show ¬j < 8 by omega,
      show ¬j < 16 by omega, show ¬j - 8 < 8 by omega, show ¬j - 16 < 8 by omega,
      show j - 24 < 32 by omega]

theorem loadWord_eq (block : List Byte) (i : Nat) :
    loadWord block i = Fips180.blockWord block i := by
  rw [loadWord, bytes_eq_append, Nat.mul_comm i 4]
  rfl

theorem rotr_eq (x : Word) {n : Nat} (small : n < 32) : rotr x n = x.rotateRight n := by
  rw [rotr, BitVec.rotateRight, Nat.mod_eq_of_lt small]
  rfl

/-- A loop that fills an array from some index on with what follows from the entries before. -/
theorem fill_spec {g : List Word → Nat → Word} {w : Nat → Word} {start stop : Nat}
    (next : ∀ xs i, start ≤ i → i < stop → (∀ j < i, xs.getD j 0 = w j) → g xs i = w i)
    (inside : stop ≤ 64) {xs : List Word} (size : xs.length = 64)
    (front : ∀ j < start, xs.getD j 0 = w j) (n : Nat) (most : start + n ≤ stop) :
    ((List.range' start n).foldl (fun xs i => xs.set i (g xs i)) xs).length = 64 ∧
      ∀ j < start + n,
        ((List.range' start n).foldl (fun xs i => xs.set i (g xs i)) xs).getD j 0 = w j := by
  induction n with
  | zero => exact ⟨size, front⟩
  | succ n ih =>
      obtain ⟨size', front'⟩ := ih (by omega)
      rw [List.range'_concat, Nat.one_mul, List.foldl_append]
      simp only [List.foldl_cons, List.foldl_nil]
      generalize (List.range' start n).foldl (fun xs i => xs.set i (g xs i)) xs = ys at size' front'
      refine ⟨by rw [List.length_set, size'], fun j less => ?_⟩
      rw [List.getD_eq_getElem?_getD, List.getElem?_set]
      by_cases here : start + n = j
      · subst here
        have value := next ys (start + n) (Nat.le_add_right _ _) (by omega) front'
        simp [size', show start + n < 64 by omega, value]
      · rw [if_neg here, ← List.getD_eq_getElem?_getD]
        exact front' j (by omega)

/-- The array `w` has the message schedule. -/
theorem loadSchedule_spec (block : List Byte) : ∀ t < 64,
    (loadSchedule block).getD t 0 = Fips180.schedule (Fips180.blockWord block) t := by
  have first : ∀ (xs : List Word) i, 0 ≤ i → i < 16 →
      (∀ j < i, xs.getD j 0 = Fips180.schedule (Fips180.blockWord block) j) →
      loadWord block i = Fips180.schedule (Fips180.blockWord block) i := fun _ i _ small _ => by
    rw [Fips180.schedule_of_lt small, loadWord_eq]
  have later : ∀ (xs : List Word) i, 16 ≤ i → i < 64 →
      (∀ j < i, xs.getD j 0 = Fips180.schedule (Fips180.blockWord block) j) →
      nextWord xs i = Fips180.schedule (Fips180.blockWord block) i := fun xs i large _ before => by
    rw [Fips180.schedule_of_ge large, nextWord, before (i - 15) (by omega),
      before (i - 2) (by omega), before (i - 16) (by omega), before (i - 7) (by omega)]
    simp only [Fips180.smallSigma0, Fips180.smallSigma1, rotr_eq _ (by decide : 7 < 32),
      rotr_eq _ (by decide : 18 < 32), rotr_eq _ (by decide : 17 < 32),
      rotr_eq _ (by decide : 19 < 32)]
    ac_rfl
  obtain ⟨size, front⟩ := fill_spec first (by decide) (List.length_replicate (a := 0))
    (fun _ none => absurd none (Nat.not_lt_zero _)) 16 le_rfl
  rw [loadSchedule, List.range_eq_range']
  exact (fill_spec later le_rfl size front 48 le_rfl).2

theorem sha256Round_eq {w : List Word} {w' : Nat → Word} {t : Nat} (same : w.getD t 0 = w' t)
    (v : HashValue) : sha256Round w v t = Fips180.step w' v t := by
  simp only [sha256Round, Fips180.step, same, sha256K_eq, Fips180.bigSigma0, Fips180.bigSigma1,
    Fips180.ch, Fips180.maj, rotr_eq _ (by decide : 6 < 32), rotr_eq _ (by decide : 11 < 32),
    rotr_eq _ (by decide : 25 < 32), rotr_eq _ (by decide : 2 < 32),
    rotr_eq _ (by decide : 13 < 32), rotr_eq _ (by decide : 22 < 32)]

/-- **One block.** -/
theorem processBlock_eq (h : HashValue) (block : List Byte) :
    processBlock h block = Fips180.compress h block := by
  have rounds : (List.range 64).foldl (sha256Round (loadSchedule block)) h
      = (List.range 64).foldl (Fips180.step (Fips180.schedule (Fips180.blockWord block))) h :=
    List.foldl_ext _ _ _ fun v t mem =>
      sha256Round_eq (loadSchedule_spec block t (List.mem_range.mp mem)) v
  simp only [processBlock, Fips180.compress, rounds, HashValue.add, BitVec.add_comm]

/-! ### The stream -/

/-- The hasher has taken in a text: what it holds is the hash value of the whole blocks and,
in the buffer, the bytes behind them. -/
structure Holds (text : List Byte) (s : Sha256) : Prop where
  h : s.h = Fips180.absorb text
  bufferLen : s.bufferLen = text.length % 64
  buffer : s.buffer.take s.bufferLen = Fips180.remainder text
  size : s.buffer.length = 64

section

variable {text data : List Byte} {s : Sha256}

theorem length_copyInto {buffer : List Byte} {start : Nat} (size : buffer.length = 64)
    (fits : start + data.length ≤ 64) : (copyInto buffer start data).length = 64 := by
  simp only [copyInto, List.length_append, List.length_take, List.length_drop, size]
  omega

/-- The bytes that are copied stand behind those that were there. -/
theorem take_copyInto {buffer : List Byte} {start : Nat} (size : buffer.length = 64)
    (fits : start + data.length ≤ 64) :
    (copyInto buffer start data).take (start + data.length) = buffer.take start ++ data := by
  refine List.take_left' ?_
  rw [List.length_append, List.length_take, size]
  omega

theorem holds_initial : Holds [] {} where
  h := sha256Initial_eq
  bufferLen := rfl
  buffer := rfl
  size := rfl

/-- Bytes that do not fill the buffer. -/
theorem Holds.keep (holds : Holds text s) (few : s.bufferLen + data.length < 64) :
    Holds (text ++ data) { s with
      buffer := copyInto s.buffer s.bufferLen data
      bufferLen := s.bufferLen + data.length } := by
  have few' : text.length % 64 + data.length < 64 := holds.bufferLen ▸ few
  obtain ⟨same, behind⟩ := Fips180.absorb_append_of_lt few'
  refine ⟨holds.h.trans same.symm, ?_, ?_, length_copyInto holds.size few.le⟩
  · simp only [holds.bufferLen, List.length_append]
    omega
  · simp only [take_copyInto holds.size few.le, holds.buffer, behind]

/-- Bytes that fill it. -/
theorem Holds.compress (holds : Holds text s) (full : s.bufferLen + data.length = 64) :
    Holds (text ++ data) { s with
      h := processBlock s.h (copyInto s.buffer s.bufferLen data)
      buffer := copyInto s.buffer s.bufferLen data
      bufferLen := 0 } := by
  have full' : text.length % 64 + data.length = 64 := holds.bufferLen ▸ full
  obtain ⟨next, behind⟩ := Fips180.absorb_append_of_eq full'
  have size := length_copyInto holds.size full.le
  have block : copyInto s.buffer s.bufferLen data = Fips180.remainder text ++ data := by
    rw [← holds.buffer, ← take_copyInto holds.size full.le, full, List.take_of_length_le size.le]
  refine ⟨?_, ?_, behind.symm, size⟩
  · simp only [processBlock_eq, block, holds.h, next]
  · simp only [List.length_append]
    omega

/-- **The loop of `update`** takes in all bytes. -/
theorem Holds.updateFrom (fuel : Nat) : ∀ {text data : List Byte} {s : Sha256}, Holds text s →
    data.length ≤ fuel → Holds (text ++ data) (updateFrom fuel data s) := by
  induction fuel with
  | zero =>
      intro text data s holds enough
      have none : data = [] := List.eq_nil_of_length_eq_zero (Nat.le_zero.mp enough)
      rw [none, List.append_nil]
      exact holds
  | succ fuel ih =>
      intro text data s holds enough
      rw [Sha256.updateFrom]
      split
      · rename_i none
        rw [none, List.append_nil]
        exact holds
      · rename_i some
        have room : s.bufferLen < 64 := holds.bufferLen ▸ Nat.mod_lt _ (by decide)
        have pos : 0 < data.length := List.length_pos_iff.mpr some
        set take := min data.length (64 - s.bufferLen)
        have taken : (data.take take).length = take := by
          rw [List.length_take]
          omega
        have later : (data.drop take).length ≤ fuel := by
          rw [List.length_drop]
          omega
        rw [← List.take_append_drop take data, ← List.append_assoc, List.take_append_drop]
        simp only
        split
        · rename_i full
          exact ih (holds.compress (by rwa [taken])) later
        · rename_i notFull
          have few : s.bufferLen + (data.take take).length < 64 := by
            rw [taken]
            omega
          have kept := holds.keep few
          rw [taken] at kept
          exact ih kept later

theorem Holds.update (holds : Holds text s) (data : List Byte) :
    Holds (text ++ data) (update data s) :=
  Holds.updateFrom data.length ⟨holds.h, holds.bufferLen, holds.buffer, holds.size⟩ le_rfl

theorem totalLen_updateFrom (fuel : Nat) : ∀ (data : List Byte) (s : Sha256),
    (updateFrom fuel data s).totalLen = s.totalLen := by
  induction fuel with
  | zero => exact fun _ _ => rfl
  | succ fuel ih =>
      intro data s
      rw [Sha256.updateFrom]
      split
      · rfl
      · simp only
        split
        · rw [ih]
        · rw [ih]

/-- **The loop of `finalize` ends**, with as many zero bytes as the padding has. -/
theorem Holds.padZeros (z : Nat) : ∀ {text : List Byte} {s : Sha256} (fuel : Nat), Holds text s →
    (text.length + z) % 64 = 56 → (∀ z' < z, (text.length + z') % 64 ≠ 56) → z ≤ fuel →
    ∃ s', padZeros fuel s = some s' ∧ Holds (text ++ List.replicate z 0) s' := by
  induction z with
  | zero =>
      intro text s fuel holds here _ _
      have stops : s.bufferLen = 56 := holds.bufferLen.trans here
      refine ⟨s, ?_, by rwa [List.replicate_zero, List.append_nil]⟩
      cases fuel <;> simp [Sha256.padZeros, stops]
  | succ z ih =>
      intro text s fuel holds there before enough
      obtain ⟨fuel, rfl⟩ : ∃ n, fuel = n + 1 := ⟨fuel - 1, by omega⟩
      have goes : s.bufferLen ≠ 56 := by
        rw [holds.bufferLen]
        exact before 0 (Nat.zero_lt_succ z)
      have next := holds.update [0x00]
      rw [Sha256.padZeros, if_pos goes]
      obtain ⟨s', ends, holds'⟩ := ih fuel next
        (by rw [List.length_append, List.length_singleton, ← there]; congr 1; omega)
        (fun z' less => by
          have := before (z' + 1) (by omega)
          rw [List.length_append, List.length_singleton]
          rwa [Nat.add_assoc, Nat.add_comm 1 z'])
        (by omega)
      refine ⟨s', ends, ?_⟩
      rw [List.replicate_succ]
      simpa using holds'

/-- The bytes of a word or of a length are cut out of it. -/
theorem byte_eq {n : Nat} (x : BitVec n) (mask : (BitVec.ofNat n 0xFF).setWidth 8
    = BitVec.allOnes 8)
    (i : Nat) : ((x >>> i) &&& BitVec.ofNat n 0xFF).setWidth 8 = x.extractLsb' i 8 := by
  have cut : (x >>> i).setWidth 8 = x.extractLsb' i 8 := by
    refine BitVec.eq_of_getLsbD_eq fun j hj => ?_
    rw [BitVec.getLsbD_setWidth, BitVec.getLsbD_ushiftRight, BitVec.getLsbD_extractLsb']
  rw [BitVec.setWidth_and, mask, BitVec.and_allOnes, cut]

theorem digestBytes_eq (w : Word) : digestBytes w = Fips180.wordBytes w := by
  have last : (w &&& 0xFF).setWidth 8 = w.extractLsb' 0 8 := by
    rw [← byte_eq w rfl, BitVec.ushiftRight_zero]
    rfl
  rw [digestBytes, last]
  simp only [← byte_eq w rfl, Fips180.wordBytes]
  rfl

theorem lenBytes_eq (length : Nat) :
    lenBytes (BitVec.ofNat 64 length * 8) = Fips180.lengthBytes length := by
  have bits : BitVec.ofNat 64 length * 8 = BitVec.ofNat 64 (8 * length) := by
    rw [Nat.mul_comm, BitVec.ofNat_mul]
    rfl
  rw [lenBytes, Fips180.lengthBytes, bits]
  exact List.map_congr_left fun i _ => byte_eq _ rfl _

end

/-- **`Sha256::hash` is SHA-256.** The loop of `finalize` ends within 63 rounds, and the result
is the digest. -/
theorem sha256_correct (input : List Byte) {fuel : Nat} (enough : 63 ≤ fuel) :
    hash fuel input = some (Fips180.digest input) := by
  have taken := holds_initial.update input
  have marked := taken.update [0x80]
  rw [List.nil_append] at taken marked
  obtain ⟨stop, first⟩ := Fips180.zeros_spec input.length
  have most : Fips180.zeros input.length ≤ 63 := Nat.le_of_lt_succ (Nat.mod_lt _ (by decide))
  obtain ⟨s, ends, holds⟩ := marked.padZeros (Fips180.zeros input.length) fuel
    (by rwa [List.length_append, List.length_singleton])
    (fun z less => by
      rw [List.length_append, List.length_singleton]
      exact first z less)
    (most.trans enough)
  have bits : (update input {}).totalLen * 8 = BitVec.ofNat 64 input.length * 8 := by
    rw [update, totalLen_updateFrom]
    exact congrArg (· * 8) (BitVec.zero_add _)
  have eight : (Fips180.lengthBytes input.length).length = 8 := by simp [Fips180.lengthBytes]
  have last : s.bufferLen = 56 := by
    rw [holds.bufferLen, List.length_append, List.length_append, List.length_replicate]
    exact stop
  have padded : processBlock s.h (copyInto s.buffer s.bufferLen (Fips180.lengthBytes input.length))
      = Fips180.absorb (Fips180.pad input) := (holds.compress (by omega)).h
  simp only [hash, finalize, ends, bits, lenBytes_eq, Option.map_some]
  rw [padded]
  refine congrArg some ?_
  exact List.flatMap_congr fun w _ => digestBytes_eq w

/-- The message of three bytes, and its digest. -/
theorem sha256_correct_abc :
    hash 63 [0x61, 0x62, 0x63] = some (Fips180.digest [0x61, 0x62, 0x63]) ∧
      hash 63 [0x61, 0x62, 0x63] = some
        [0xba, 0x78, 0x16, 0xbf, 0x8f, 0x01, 0xcf, 0xea, 0x41, 0x41, 0x40, 0xde, 0x5d, 0xae, 0x22,
          0x23, 0xb0, 0x03, 0x61, 0xa3, 0x96, 0x17, 0x7a, 0x9c, 0xb4, 0x10, 0xff, 0x61, 0xf2, 0x00,
          0x15, 0xad] :=
  ⟨sha256_correct _ le_rfl, by decide +kernel⟩

end Sha256

end StockMarket
