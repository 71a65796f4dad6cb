import Mathlib.Algebra.Group.Nat.Defs
import StockMarket.Lib.Lockstep
import StockMarket.Net.Protocol

/-!
Framed messages as a framing.

`framedReading` is what `recv_framed` makes of the bytes that it has read; with the frames of
`send_framed` it is a framing (`framed`). Whatever the kernel does, failures included,
`recv_framed` stops at what its reading says (`recvFramed_reading`), and what `send_framed` has
sent is the front of the frame, or all of it if it returns true (`sendFramed_front`).
-/

namespace StockMarket

open Lockstep

/-- What `recv_framed` makes of the bytes that it has read. -/
def framedReading (read : List Byte) : Reading Byte :=
  if read.length < 8 then .wants (8 - read.length)
  else
    let length := decodeLength (read.take 8)
    if maxMessageBytes < length then .refused
    else if read.length < 8 + length.toNat then .wants (8 + length.toNat - read.length)
    else .message (read.drop 8)

/-- The front of a frame is read for what it is. -/
theorem isOf_framedReading {payload front rest : List Byte} (small : payload.length < 2 ^ 64)
    (split : frame payload = front ++ rest) :
    (framedReading front).IsOf (Fits payload) payload rest := by
  have total := congrArg List.length split
  rw [length_frame, List.length_append] at total
  have length : (BitVec.ofNat 64 payload.length).toNat = payload.length := Nat.mod_eq_of_lt small
  unfold framedReading
  by_cases headless : front.length < 8
  · rw [if_pos headless]
    exact .wants (by omega) (by omega)
  · obtain ⟨body, rfl⟩ : ∃ body, front = encodeLength (BitVec.ofNat 64 payload.length) ++ body := by
      refine ⟨front.drop 8, ?_⟩
      have header := congrArg (List.take 8) split
      rw [frame, List.take_append_of_le_length (by simp), List.take_of_length_le (by simp),
        List.take_append_of_le_length (by omega)] at header
      rw [header, List.take_append_drop]
    rw [frame, List.append_assoc] at split
    have whole : payload = body ++ rest := List.append_cancel_left split
    have header : (encodeLength (BitVec.ofNat 64 payload.length) ++ body).take 8
        = encodeLength (BitVec.ofNat 64 payload.length) := by
      rw [List.take_append_of_le_length (by simp), List.take_of_length_le (by simp)]
    rw [if_neg headless, header, decodeLength_encodeLength]
    dsimp only
    by_cases large : maxMessageBytes < BitVec.ofNat 64 payload.length
    · rw [if_pos large]
      refine .refused fun fits => ?_
      rw [BitVec.lt_def, length] at large
      exact absurd fits (Nat.not_le.mpr large)
    · rw [if_neg large, length]
      rw [List.length_append, length_encodeLength] at total ⊢
      by_cases partly : 8 + body.length < 8 + payload.length
      · rw [if_pos partly]
        exact .wants (by omega) (by omega)
      · rw [if_neg partly]
        obtain rfl : rest = [] := List.length_eq_zero_iff.mp (by omega)
        have body_eq : (encodeLength (BitVec.ofNat 64 payload.length) ++ body).drop 8
            = payload := by
          rw [List.drop_append_of_le_length (by simp), List.drop_of_length_le (by simp), whole,
            List.append_nil, List.nil_append]
        rw [body_eq]
        rw [BitVec.lt_def, length] at large
        exact .message (Nat.not_lt.mp large) rfl

/-- The messages of `send_framed` and `recv_framed`. -/
def framed : Framing Byte where
  Sendable := fun payload => payload.length < 2 ^ 64
  Fits := Fits
  frame := frame
  reading := framedReading
  wants_nil := ⟨8, by decide, rfl⟩
  isOf := isOf_framedReading

/-! ### The functions -/

section

variable (kernel : Kernel)

/-- What `send_exact` has sent, whether it failed or not. -/
theorem sendExact_front (buffer : List Byte) (s : Sender) :
    ∃ sent, (sendExact kernel buffer s).2.wire = s.wire ++ sent ∧ sent <+: buffer ∧
      ((sendExact kernel buffer s).1 = true → sent = buffer) := by
  fun_induction sendExact kernel buffer s with
  | case1 s => exact ⟨[], (List.append_nil _).symm, List.nil_prefix, fun _ => rfl⟩
  | case2 buffer s left sent failed =>
      exact ⟨_, rfl, List.take_prefix _ _, fun ok => by cases ok⟩
  | case3 buffer s left sent moved ih =>
      obtain ⟨later, wire, ⟨unsent, split⟩, whole⟩ := ih
      have both : buffer.take sent.1 ++ buffer.drop sent.1 = buffer := List.take_append_drop _ _
      refine ⟨buffer.take sent.1 ++ later, ?_, ⟨unsent, ?_⟩, fun ok => ?_⟩
      · rw [wire, ← List.append_assoc]
        rfl
      · rw [List.append_assoc, split, both]
      · rw [whole ok, both]

/-- **What `send_framed` has sent** is the front of the frame. -/
theorem sendFramed_front (payload : List Byte) (s : Sender) :
    ∃ sent, (sendFramed kernel payload s).2.wire = s.wire ++ sent ∧ sent <+: framed.frame payload ∧
      ((sendFramed kernel payload s).1 = true → sent = framed.frame payload) := by
  obtain ⟨header, wire, front, whole⟩ :=
    sendExact_front kernel (encodeLength (BitVec.ofNat 64 payload.length)) s
  unfold sendFramed
  cases sends : sendExact kernel (encodeLength (BitVec.ofNat 64 payload.length)) s with
  | mk ok s' =>
      rw [sends] at wire whole
      cases ok with
      | false => exact ⟨header, wire, front.trans (List.prefix_append _ _), fun ok => by cases ok⟩
      | true =>
          obtain rfl := whole rfl
          by_cases empty : payload = []
          · subst empty
            exact ⟨_, wire, List.prefix_append _ _, fun _ => (List.append_nil _).symm⟩
          · obtain ⟨body, wire', front', whole'⟩ := sendExact_front kernel payload s'
            simp only [if_pos empty]
            refine ⟨_ ++ body, ?_, (List.prefix_append_right_inj _).mpr front', fun ok => ?_⟩
            · rw [wire', wire, List.append_assoc]
            · rw [whole' ok]
              rfl

/-- What `recv_exact` has read, whether it failed or not. -/
theorem recvExact_read (count : Nat) (r : Receiver) :
    ∃ read, r.stream = read ++ (recvExact kernel count r).2.stream ∧
      ((recvExact kernel count r).1 = some read ∧ read.length = count ∨
        (recvExact kernel count r).1 = none ∧ read.length < count) := by
  fun_induction recvExact kernel count r with
  | case1 r => exact ⟨[], rfl, .inl ⟨rfl, rfl⟩⟩
  | case2 count r left received ended =>
      refine ⟨[], ?_, .inr ⟨rfl, Nat.pos_of_ne_zero left⟩⟩
      have split : r.stream = received.1 ++ received.2.stream := (List.take_append_drop _ _).symm
      rwa [ended] at split
  | case3 count r left received some later ih =>
      obtain ⟨read, stream, result⟩ := ih
      have split : r.stream = received.1 ++ received.2.stream := (List.take_append_drop _ _).symm
      have most : received.1.length ≤ count :=
        (List.length_take_le _ _).trans (kernel.moved_le _ _)
      refine ⟨received.1 ++ read, ?_, ?_⟩
      · rw [List.append_assoc, ← stream, split]
      · rw [List.length_append]
        rcases result with ⟨filled, size⟩ | ⟨failed, size⟩
        · exact .inl ⟨by rw [filled, Option.map_some], by omega⟩
        · exact .inr ⟨by rw [failed, Option.map_none], by omega⟩

/-- Behind a header the payload is read, if it may be that long. -/
theorem framedReading_append {header read : List Byte} (size : header.length = 8)
    (allowed : ¬maxMessageBytes < decodeLength header) : framedReading (header ++ read)
      = if read.length < (decodeLength header).toNat then
          .wants ((decodeLength header).toNat - read.length)
        else .message read := by
  have start : header.take 8 = header := List.take_of_length_le (Nat.le_of_eq size)
  have less : 8 + read.length < 8 + (decodeLength header).toNat ↔
      read.length < (decodeLength header).toNat := Nat.add_lt_add_iff_left
  have rest : 8 + (decodeLength header).toNat - (8 + read.length)
      = (decodeLength header).toNat - read.length := Nat.add_sub_add_left _ _ _
  rw [framedReading, List.length_append, size, if_neg (by omega), List.take_append, start, size,
    Nat.sub_self, List.take_zero, List.append_nil, if_neg allowed, List.drop_append,
    List.drop_of_length_le (Nat.le_of_eq size), size, Nat.sub_self, List.drop_zero,
    List.nil_append, rest]
  simp only [less]

/-- **`recv_framed` stops where its reading does**: it returns a message if what it has read
is one; otherwise it has given up, or has failed while it wanted more. -/
theorem recvFramed_reading (r : Receiver) :
    ∃ read, r.stream = read ++ (recvFramed kernel r).2.stream ∧
      match (recvFramed kernel r).1 with
      | some payload => framed.reading read = .message payload
      | none => framed.reading read = .refused ∨ ∃ want, framed.reading read = .wants want := by
  obtain ⟨header, stream, result⟩ := recvExact_read kernel 8 r
  unfold recvFramed
  cases reads : recvExact kernel 8 r with
  | mk filled r' =>
      rw [reads] at stream result
      rcases result with ⟨rfl, size⟩ | ⟨rfl, size⟩
      · have start : header.take 8 = header := List.take_of_length_le (Nat.le_of_eq size)
        dsimp only
        unfold recvPayload
        by_cases large : maxMessageBytes < decodeLength header
        · rw [if_pos large]
          refine ⟨header, stream, .inl ?_⟩
          change framedReading header = _
          rw [framedReading, if_neg (by omega), start, if_pos large]
        · rw [if_neg large]
          by_cases some' : 0 < decodeLength header
          · rw [if_pos some']
            obtain ⟨read, stream', result⟩ := recvExact_read kernel (decodeLength header).toNat
              { r' with allocated := r'.allocated + (decodeLength header).toNat }
            refine ⟨header ++ read, by rw [stream, List.append_assoc, ← stream'], ?_⟩
            rcases result with ⟨filled, size'⟩ | ⟨failed, size'⟩
            · rw [filled]
              exact (framedReading_append size large).trans (if_neg (by omega))
            · rw [failed]
              exact .inr ⟨_, (framedReading_append size large).trans (if_pos size')⟩
          · rw [if_neg some']
            have none : (decodeLength header).toNat = 0 := by
              rw [BitVec.lt_def] at some'
              exact Nat.eq_zero_of_not_pos some'
            refine ⟨header ++ [], by rw [List.append_nil]; exact stream, ?_⟩
            exact (framedReading_append size large).trans
              (if_neg (by rw [none]; exact Nat.not_lt_zero _))
      · exact ⟨header, stream, .inr ⟨8 - header.length, if_pos size⟩⟩

end

end StockMarket
