import Mathlib.Data.List.Basic

/-!
Framed messages (`include/net/protocol.hpp`, `src/net/protocol.cpp`).

A message is sent as its length, eight bytes with the most significant first, and
its bytes. The kernel moves as many bytes in one call as it likes (`Kernel`), so
both sides loop; the bytes that have been sent are a stream, of which the peer
reads a part at a time, until the stream ends because the connection closed, a
call failed or timed out.

What is sent is the frames of the payloads, one after the other, whatever the
kernel does (`sendFramed_moves`), and a buffer is filled if the stream is long enough
(`recvExact_of_le`), and otherwise not at all (`recvExact_of_lt`).
-/

namespace StockMarket

abbrev Byte := BitVec 8

/-- `kMaxMessageBytes`. -/
def maxMessageBytes : BitVec 64 := 1#64 <<< 20

/-! ### Sockets -/

/-- What the kernel does on one socket: how many bytes the `i`-th call moves when it
is asked to move `n`, and `0` if the call fails. -/
structure Kernel where
  moved : Nat → Nat → Nat
  moved_le : ∀ i n, moved i n ≤ n

/-- No call fails. -/
def Kernel.Moves (kernel : Kernel) : Prop :=
  ∀ i n, 0 < n → 0 < kernel.moved i n

/-- Every call moves all that it is asked to move. -/
def Kernel.whole : Kernel where
  moved := fun _ n => n
  moved_le := fun _ _ => Nat.le_refl _

/-- Every call moves a single byte. -/
def Kernel.bytewise : Kernel where
  moved := fun _ n => min 1 n
  moved_le := fun _ _ => Nat.min_le_right _ _

/-- The sending end: the bytes sent so far. -/
structure Sender where
  wire : List Byte := []
  calls : Nat := 0

/-- The receiving end: the bytes that are still to come before the stream ends.
`allocated` counts the bytes allocated for payloads. -/
structure Receiver where
  stream : List Byte
  calls : Nat := 0
  allocated : Nat := 0

/-- `::send`. -/
def send (kernel : Kernel) (buffer : List Byte) (s : Sender) : Nat × Sender :=
  let n := kernel.moved s.calls buffer.length
  (n, { wire := s.wire ++ buffer.take n, calls := s.calls + 1 })

/-- `::recv`: no bytes if the stream has ended. -/
def recv (kernel : Kernel) (count : Nat) (r : Receiver) : List Byte × Receiver :=
  let n := kernel.moved r.calls count
  (r.stream.take n, { r with stream := r.stream.drop n, calls := r.calls + 1 })

/-- `send_exact`. -/
def sendExact (kernel : Kernel) (buffer : List Byte) (s : Sender) : Bool × Sender :=
  if _ : buffer = [] then (true, s)
  else
    let sent := send kernel buffer s
    if _ : sent.1 = 0 then (false, sent.2)
    else sendExact kernel (buffer.drop sent.1) sent.2
termination_by buffer.length
decreasing_by
  rename_i empty failed
  have left : 0 < buffer.length := List.length_pos_iff.mpr empty
  have moved : 0 < (send kernel buffer s).1 := Nat.pos_of_ne_zero failed
  rw [List.length_drop]
  omega

/-- `recv_exact`: the bytes that fill the buffer, or `none` for `false`. -/
def recvExact (kernel : Kernel) (count : Nat) (r : Receiver) : Option (List Byte) × Receiver :=
  if _ : count = 0 then (some [], r)
  else
    let received := recv kernel count r
    if _ : received.1 = [] then (none, received.2)
    else
      let later := recvExact kernel (count - received.1.length) received.2
      (later.1.map (received.1 ++ ·), later.2)
termination_by count
decreasing_by
  rename_i ended
  have some : 0 < (recv kernel count r).1.length := List.length_pos_iff.mpr ended
  omega

/-! ### Messages -/

/-- The header of `send_framed`. -/
def encodeLength (length : BitVec 64) : List Byte :=
  (List.range 8).map fun i => ((length >>> (8 * (7 - i))) &&& 0xFF#64).setWidth 8

/-- The length that `recv_framed` reads from a header. -/
def decodeLength (header : List Byte) : BitVec 64 :=
  header.foldl (fun length byte => (length <<< 8) ||| byte.setWidth 64) 0

/-- `send_framed`. -/
def sendFramed (kernel : Kernel) (payload : List Byte) (s : Sender) : Bool × Sender :=
  match sendExact kernel (encodeLength (BitVec.ofNat 64 payload.length)) s with
  | (false, s) => (false, s)
  | (true, s) => if payload ≠ [] then sendExact kernel payload s else (true, s)

/-- `recv_framed` after it has read the length from the header. -/
def recvPayload (kernel : Kernel) (length : BitVec 64) (r : Receiver) :
    Option (List Byte) × Receiver :=
  if maxMessageBytes < length then (none, r)
  else
    let r := { r with allocated := r.allocated + length.toNat }
    if 0 < length then recvExact kernel length.toNat r else (some [], r)

/-- `recv_framed`. -/
def recvFramed (kernel : Kernel) (r : Receiver) : Option (List Byte) × Receiver :=
  match recvExact kernel 8 r with
  | (none, r) => (none, r)
  | (some header, r) => recvPayload kernel (decodeLength header) r

/-- Messages sent one after the other, up to the first that fails. -/
def sendAllFramed (kernel : Kernel) : List (List Byte) → Sender → Bool × Sender
  | [], s => (true, s)
  | payload :: payloads, s =>
    match sendFramed kernel payload s with
    | (false, s) => (false, s)
    | (true, s) => sendAllFramed kernel payloads s

/-- The results of several calls of `recv_framed`. -/
def recvManyFramed (kernel : Kernel) : Nat → Receiver → List (Option (List Byte)) × Receiver
  | 0, r => ([], r)
  | n + 1, r =>
    let first := recvFramed kernel r
    let later := recvManyFramed kernel n first.2
    (first.1 :: later.1, later.2)

/-! ### The transfer loops -/

section

variable {kernel : Kernel}

/-- Whatever the kernel does, the whole buffer is sent. -/
theorem sendExact_moves (moves : kernel.Moves) (buffer : List Byte) (s : Sender) :
    ∃ calls, sendExact kernel buffer s = (true, { wire := s.wire ++ buffer, calls }) := by
  fun_induction sendExact kernel buffer s with
  | case1 s => exact ⟨s.calls, by rw [List.append_nil]⟩
  | case2 buffer s left sent failed =>
      have moved : 0 < sent.1 := moves s.calls buffer.length (List.length_pos_iff.mpr left)
      exact absurd failed (Nat.ne_of_gt moved)
  | case3 buffer s left sent moved ih =>
      obtain ⟨calls, sends⟩ := ih
      refine ⟨calls, sends.trans ?_⟩
      have joined : sent.2.wire ++ buffer.drop sent.1 = s.wire ++ buffer := by
        change s.wire ++ buffer.take sent.1 ++ buffer.drop sent.1 = s.wire ++ buffer
        rw [List.append_assoc, List.take_append_drop]
      rw [joined]

/-- Whatever the kernel does, the buffer is filled if the stream is long enough. -/
theorem recvExact_of_le (moves : kernel.Moves) (count : Nat) (r : Receiver)
    (enough : count ≤ r.stream.length) :
    ∃ calls, recvExact kernel count r
      = (some (r.stream.take count), { r with stream := r.stream.drop count, calls }) := by
  fun_induction recvExact kernel count r with
  | case1 r => exact ⟨r.calls, rfl⟩
  | case2 count r left received ended =>
      have moved := moves r.calls count (Nat.pos_of_ne_zero left)
      have taken : r.stream.take (kernel.moved r.calls count) = [] := ended
      have empty : r.stream = [] :=
        (List.take_eq_nil_iff.mp taken).resolve_left (Nat.ne_of_gt moved)
      rw [empty] at enough
      exact absurd (Nat.le_zero.mp enough) left
  | case3 count r left received some later ih =>
      have most : kernel.moved r.calls count ≤ count := kernel.moved_le _ _
      have head : received.1 = r.stream.take (kernel.moved r.calls count) := rfl
      have tail : received.2.stream = r.stream.drop (kernel.moved r.calls count) := rfl
      have moved : received.1.length = kernel.moved r.calls count := by
        rw [head, List.length_take]
        omega
      obtain ⟨calls, reads⟩ := ih (by rw [tail, List.length_drop]; omega)
      refine ⟨calls, ?_⟩
      change ((recvExact kernel (count - received.1.length) received.2).1.map (received.1 ++ ·),
        (recvExact kernel (count - received.1.length) received.2).2) = _
      rw [reads, moved, tail, head, Option.map_some, ← List.take_add, List.drop_drop,
        Nat.add_sub_cancel' most]
      rfl

/-- Otherwise the loop runs into the end of the stream. -/
theorem recvExact_of_lt (kernel : Kernel) {count : Nat} {r : Receiver}
    (few : r.stream.length < count) :
    (recvExact kernel count r).1 = none := by
  fun_induction recvExact kernel count r with
  | case1 r => exact absurd few (Nat.not_lt_zero _)
  | case2 count r left received ended => rfl
  | case3 count r left received some later ih =>
      have head : received.1 = r.stream.take (kernel.moved r.calls count) := rfl
      have tail : received.2.stream = r.stream.drop (kernel.moved r.calls count) := rfl
      have moved : received.1.length = min (kernel.moved r.calls count) r.stream.length := by
        rw [head, List.length_take]
      have less : received.2.stream.length < count - received.1.length := by
        rw [moved, tail, List.length_drop]
        omega
      rw [ih less, Option.map_none]

end

/-! ### The header -/

theorem mask_setWidth (x : BitVec 64) : (x &&& 0xFF#64).setWidth 8 = x.setWidth 8 := by
  have mask : (0xFF#64).setWidth 8 = BitVec.allOnes 8 := rfl
  rw [BitVec.setWidth_and, mask, BitVec.and_allOnes]

/-- A number is its bits from the eighth on and its last byte. -/
theorem shift_or_byte (x : BitVec 64) :
    ((x >>> 8) <<< 8) ||| (x.setWidth 8).setWidth 64 = x := by
  ext i hi
  have bit : x.getLsbD i = x[i] := BitVec.getLsbD_eq_getElem hi
  rw [BitVec.getElem_or, BitVec.getElem_shiftLeft, BitVec.getElem_setWidth,
    BitVec.getLsbD_setWidth]
  by_cases low : i < 8
  · simp [low, bit]
  · have back : 8 + (i - 8) = i := by omega
    simp [low, back, bit]

/-- The first bytes of a header give the length without its last bits. -/
theorem decodeLength_take (length : BitVec 64) {n : Nat} (le : n ≤ 8) :
    decodeLength ((encodeLength length).take n) = length >>> (8 * (8 - n)) := by
  induction n with
  | zero => exact (BitVec.ushiftRight_eq_zero (Nat.le_refl _)).symm
  | succ n ih =>
      have byte : (encodeLength length)[n]? = some ((length >>> (8 * (7 - n))).setWidth 8) := by
        unfold encodeLength
        rw [List.getElem?_map, List.getElem?_range (by omega), Option.map_some, mask_setWidth]
      have shorter : length >>> (8 * (8 - n)) = (length >>> (8 * (7 - n))) >>> 8 := by
        rw [← BitVec.shiftRight_add]
        congr 1
        omega
      rw [List.take_add_one, byte, Option.toList_some, decodeLength, List.foldl_append,
        ← decodeLength, ih (by omega), List.foldl_cons, List.foldl_nil, shorter, shift_or_byte]
      congr 2
      omega

@[simp] theorem length_encodeLength (length : BitVec 64) : (encodeLength length).length = 8 := by
  simp [encodeLength]

/-- **The header decodes to the length that was encoded.** -/
theorem decodeLength_encodeLength (length : BitVec 64) :
    decodeLength (encodeLength length) = length := by
  have all := decodeLength_take length (Nat.le_refl 8)
  rwa [List.take_of_length_le (Nat.le_of_eq (length_encodeLength length)), Nat.sub_self,
    Nat.mul_zero, BitVec.ushiftRight_zero] at all

/-! ### Frames -/

/-- The bytes of a message on the wire. -/
def frame (payload : List Byte) : List Byte :=
  encodeLength (BitVec.ofNat 64 payload.length) ++ payload

theorem length_frame (payload : List Byte) : (frame payload).length = 8 + payload.length := by
  rw [frame, List.length_append, length_encodeLength]

/-- The payload is not longer than a message may be. -/
def Fits (payload : List Byte) : Prop :=
  payload.length ≤ maxMessageBytes.toNat

instance (payload : List Byte) : Decidable (Fits payload) := by
  unfold Fits
  infer_instance

theorem Fits.toNat_length {payload : List Byte} (fits : Fits payload) :
    (BitVec.ofNat 64 payload.length).toNat = payload.length := by
  have bound : maxMessageBytes.toNat < 2 ^ 64 := maxMessageBytes.isLt
  exact Nat.mod_eq_of_lt (Nat.lt_of_le_of_lt fits bound)

section

variable {kernel : Kernel}

/-- A message is sent as its frame. -/
theorem sendFramed_moves (moves : kernel.Moves) (payload : List Byte) (s : Sender) :
    ∃ calls, sendFramed kernel payload s = (true, { wire := s.wire ++ frame payload, calls }) := by
  obtain ⟨calls, header⟩ :=
    sendExact_moves moves (encodeLength (BitVec.ofNat 64 payload.length)) s
  unfold sendFramed frame
  rw [header]
  by_cases empty : payload = []
  · subst empty
    exact ⟨calls, by rw [List.append_nil]; rfl⟩
  · obtain ⟨calls, body⟩ := sendExact_moves moves payload
      { wire := s.wire ++ encodeLength (BitVec.ofNat 64 payload.length), calls }
    exact ⟨calls, by rw [List.append_assoc] at body; exact (if_pos empty).trans body⟩

/-- Messages are sent as their frames, one after the other. -/
theorem sendAllFramed_moves (moves : kernel.Moves) (payloads : List (List Byte)) (s : Sender) :
    ∃ calls, sendAllFramed kernel payloads s
      = (true, { wire := s.wire ++ payloads.flatMap frame, calls }) := by
  induction payloads generalizing s with
  | nil => exact ⟨s.calls, by rw [List.flatMap_nil, List.append_nil]; rfl⟩
  | cons payload payloads ih =>
      obtain ⟨calls, first⟩ := sendFramed_moves moves payload s
      obtain ⟨calls', later⟩ := ih { wire := s.wire ++ frame payload, calls }
      refine ⟨calls', ?_⟩
      rw [sendAllFramed, first, List.flatMap_cons, ← List.append_assoc]
      exact later

/-- `recv_framed` reads the header first. -/
theorem recvFramed_header (moves : kernel.Moves) {header rest : List Byte} {r : Receiver}
    (size : header.length = 8) (stream : r.stream = header ++ rest) :
    ∃ calls, recvFramed kernel r
      = recvPayload kernel (decodeLength header) { r with stream := rest, calls } := by
  obtain ⟨calls, reads⟩ := recvExact_of_le moves 8 r (by rw [stream, List.length_append]; omega)
  refine ⟨calls, ?_⟩
  rw [recvFramed, reads, stream, ← size, List.take_left, List.drop_left]

/-- A frame is read back, and nothing beyond it. -/
theorem recvFramed_frame (moves : kernel.Moves) {payload rest : List Byte} (fits : Fits payload)
    {r : Receiver} (stream : r.stream = frame payload ++ rest) :
    (recvFramed kernel r).1 = some payload ∧ (recvFramed kernel r).2.stream = rest := by
  have parts : r.stream = encodeLength (BitVec.ofNat 64 payload.length) ++ (payload ++ rest) := by
    rw [stream, frame, List.append_assoc]
  obtain ⟨calls, header⟩ := recvFramed_header moves (length_encodeLength _) parts
  have length := fits.toNat_length
  have allowed : ¬maxMessageBytes < BitVec.ofNat 64 payload.length := by
    rw [BitVec.lt_def, length]
    exact Nat.not_lt.mpr fits
  rw [header, decodeLength_encodeLength, recvPayload, if_neg allowed, length]
  by_cases empty : payload = []
  · subst empty
    exact ⟨rfl, rfl⟩
  · have some : (0 : BitVec 64) < BitVec.ofNat 64 payload.length := by
      rw [BitVec.lt_def, length]
      exact List.length_pos_iff.mpr empty
    obtain ⟨calls', body⟩ := recvExact_of_le moves payload.length
      ⟨payload ++ rest, calls, r.allocated + payload.length⟩ (by rw [List.length_append]; omega)
    rw [List.take_left, List.drop_left] at body
    rw [if_pos some, body]
    exact ⟨rfl, rfl⟩

/-- A stream that ends inside a header gives no payload. -/
theorem recvFramed_headless {r : Receiver} (short : r.stream.length < 8) :
    (recvFramed kernel r).1 = none := by
  have ended := recvExact_of_lt kernel short
  unfold recvFramed
  cases reads : recvExact kernel 8 r with
  | mk header left =>
      rw [reads] at ended
      cases header with
      | none => rfl
      | some header => cases ended

/-- A stream that ends inside a frame gives no payload. -/
theorem recvFramed_cut (moves : kernel.Moves) {payload : List Byte} (fits : Fits payload) {n : Nat}
    (cut : n < (frame payload).length) {r : Receiver} (stream : r.stream = (frame payload).take n) :
    (recvFramed kernel r).1 = none := by
  rw [length_frame] at cut
  by_cases headless : n < 8
  · have short : r.stream.length < 8 := by
      rw [stream, List.length_take]
      omega
    exact recvFramed_headless short
  · have parts : r.stream = encodeLength (BitVec.ofNat 64 payload.length)
        ++ payload.take (n - 8) := by
      rw [stream, frame, List.take_append, length_encodeLength,
        List.take_of_length_le (by rw [length_encodeLength]; omega)]
    obtain ⟨calls, header⟩ := recvFramed_header moves (length_encodeLength _) parts
    have length := fits.toNat_length
    have some : (0 : BitVec 64) < BitVec.ofNat 64 payload.length := by
      rw [BitVec.lt_def, length]
      change 0 < payload.length
      omega
    have allowed : ¬maxMessageBytes < BitVec.ofNat 64 payload.length := by
      rw [BitVec.lt_def, length]
      exact Nat.not_lt.mpr fits
    rw [header, decodeLength_encodeLength, recvPayload, if_neg allowed, length, if_pos some]
    apply recvExact_of_lt
    change (payload.take (n - 8)).length < payload.length
    rw [List.length_take]
    omega

/-- A header that claims too much is the end of the message: nothing behind it is read, and
nothing is allocated. -/
theorem recvFramed_oversize (moves : kernel.Moves) {header rest : List Byte} {r : Receiver}
    (size : header.length = 8) (stream : r.stream = header ++ rest)
    (large : maxMessageBytes < decodeLength header) :
    (recvFramed kernel r).1 = none ∧ (recvFramed kernel r).2.stream = rest ∧
      (recvFramed kernel r).2.allocated = r.allocated := by
  obtain ⟨calls, header⟩ := recvFramed_header moves size stream
  rw [header, recvPayload, if_pos large]
  exact ⟨rfl, rfl, rfl⟩

/-- Frames are read back one after the other, and nothing beyond them. -/
theorem recvManyFramed_frames (moves : kernel.Moves) {payloads : List (List Byte)}
    (fit : ∀ payload ∈ payloads, Fits payload) (more : Nat) {rest : List Byte} (r : Receiver)
    (stream : r.stream = payloads.flatMap frame ++ rest) :
    ∃ r' : Receiver, r'.stream = rest ∧ recvManyFramed kernel (payloads.length + more) r
      = (payloads.map some ++ (recvManyFramed kernel more r').1,
          (recvManyFramed kernel more r').2) := by
  induction payloads generalizing r with
  | nil => exact ⟨r, stream, by rw [List.length_nil, Nat.zero_add]; rfl⟩
  | cons payload payloads ih =>
      rw [List.flatMap_cons, List.append_assoc] at stream
      obtain ⟨first, left⟩ :=
        recvFramed_frame moves (fit payload List.mem_cons_self) stream
      obtain ⟨r', drained, later⟩ := ih (fun p mem => fit p (List.mem_cons_of_mem _ mem)) _ left
      refine ⟨r', drained, ?_⟩
      rw [List.length_cons, Nat.add_right_comm, recvManyFramed, later, first]
      rfl

end

/-- **Framing decodes exactly what was framed.** However the kernels on both sides cut
the bytes into calls, the payloads that were sent are received in order from exactly
their bytes; a stream that ends before the end of a frame gives the payloads before
it and then none; a header that claims too much gives none, and neither reads nor
allocates anything for a payload. -/
theorem framing_exact {sending receiving : Kernel} (sends : sending.Moves)
    (receives : receiving.Moves)
    (payloads : List (List Byte)) (fit : ∀ payload ∈ payloads, Fits payload) :
    ∃ sent : Sender, sendAllFramed sending payloads {} = (true, sent) ∧
      (∀ rest : List Byte,
        (recvManyFramed receiving payloads.length { stream := sent.wire ++ rest }).1
            = payloads.map some ∧
          (recvManyFramed receiving payloads.length { stream := sent.wire ++ rest }).2.stream
            = rest) ∧
      (∀ (before : List (List Byte)) (payload : List Byte) (behind : List (List Byte)) (n : Nat),
        payloads = before ++ payload :: behind →
        (before.flatMap frame).length ≤ n →
        n < (before.flatMap frame).length + (frame payload).length →
        (recvManyFramed receiving (before.length + 1) { stream := sent.wire.take n }).1
          = before.map some ++ [none]) ∧
      (∀ (header rest : List Byte) (r : Receiver), header.length = 8 → r.stream = header ++ rest →
        maxMessageBytes < decodeLength header →
        (recvFramed receiving r).1 = none ∧ (recvFramed receiving r).2.stream = rest ∧
          (recvFramed receiving r).2.allocated = r.allocated) := by
  obtain ⟨calls, sent⟩ := sendAllFramed_moves sends payloads {}
  refine ⟨_, sent, fun rest => ?whole, fun before payload behind n split least most => ?cut,
    fun header rest r size stream large => recvFramed_oversize receives size stream large⟩
  case whole =>
    obtain ⟨r', drained, reads⟩ := recvManyFramed_frames receives fit 0
      { stream := [] ++ payloads.flatMap frame ++ rest } rfl
    rw [Nat.add_zero] at reads
    rw [reads]
    exact ⟨List.append_nil _, drained⟩
  case cut =>
    have fits : Fits payload := fit payload (by rw [split]; simp)
    have fit' : ∀ p ∈ before, Fits p := fun p mem => fit p (by rw [split]; simp [mem])
    have left : (payloads.flatMap frame).take n = before.flatMap frame
        ++ (frame payload).take (n - (before.flatMap frame).length) := by
      rw [split, List.flatMap_append, List.flatMap_cons, List.take_append,
        List.take_of_length_le least, List.take_append_of_le_length (by omega)]
    obtain ⟨r', drained, reads⟩ := recvManyFramed_frames receives fit' 1
      { stream := ([] ++ payloads.flatMap frame).take n } left
    rw [reads]
    have last := recvFramed_cut receives fits (by omega) drained
    change before.map some ++ [(recvFramed receiving r').1] = _
    rw [last]

/-- Two messages, one of them empty, sent a byte at a time and received whole. -/
theorem framing_exact_twoMessages :
    ∃ sent : Sender, sendAllFramed Kernel.bytewise [[0x4F#8, 0x4B#8], []] {} = (true, sent) ∧
      (recvManyFramed Kernel.whole 2 { stream := sent.wire ++ [7#8] }).1
        = [some [0x4F#8, 0x4B#8], some []] := by
  have moves : Kernel.bytewise.Moves := fun _ n pos => Nat.lt_min.mpr ⟨Nat.one_pos, pos⟩
  have moves' : Kernel.whole.Moves := fun _ n pos => pos
  obtain ⟨sent, ok, received, -⟩ := framing_exact moves moves'
    [[0x4F#8, 0x4B#8], []] (by decide)
  exact ⟨sent, ok, (received [7#8]).1⟩

end StockMarket
