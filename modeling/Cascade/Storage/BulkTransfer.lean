import Cascade.Storage.Lifetime

/-!
# Bulk transfers

The model of `net/zero_copy_transfer.hpp` and of `Segment::sendfile_range`, which hands a part of
a segment file to a socket by calls of `sendfile(2)`. What the kernel answers to the calls is
given as a list: any count, `EINTR`, `EAGAIN` or another error. Whatever it answers, the bytes on
the socket are the bytes of the file from the start position on, as many as are counted
(`Transfer.Exact`).

The length is cut to what lies between the start position and the end of the records, in unsigned
arithmetic. A start position behind the end wraps around, and the length is not cut at all. Then
bytes reach the socket that no record contains (`Handle.sendfileRange_iff`).
-/

open Bytes

namespace Storage

/-- The errors of `sendfile` that are told apart. -/
inductive Errno where
  | eintr
  | eagain
  | other (description : String)
deriving DecidableEq

/-- What the kernel answers to a call: how many bytes it would send, or an error. -/
inductive Response where
  | sent (n : ℕ)
  | error (errno : Errno)
deriving DecidableEq

/-- A call of `sendfile` on a file: the number of bytes sent. -/
def sendfile (file : List UInt8) (offset : ℤ) (count : ℕ) : Response → Except Errno ℕ
  | .error errno => .error errno
  | .sent n =>
      if offset < 0 then .error (.other "Invalid argument")
      else .ok (min n (min count (file.length - offset.toNat)))

/-- The variables of a transfer, and what has reached the socket. -/
structure Transfer where
  offset : ℤ
  totalSent : ℕ
  socket : List UInt8
deriving DecidableEq

/-- Where a transfer has got to. -/
inductive Ending where
  | running
  | returned (totalSent : ℕ)
  | threw (message : String)
deriving DecidableEq

/-- The loop of `send_file_range`, one answer of the kernel for each call. -/
def sendFileRange (file : List UInt8) (count : ℕ) : List Response → Transfer → Ending × Transfer
  | responses, t =>
      if t.totalSent < count then
        match responses with
        | [] => (.running, t)
        | response :: responses =>
            match sendfile file t.offset (count - t.totalSent) response with
            | .error .eintr => sendFileRange file count responses t
            | .error .eagain => (.returned t.totalSent, t)
            | .error (.other description) => (.threw ("sendfile failed: " ++ description), t)
            | .ok n =>
                if n = 0 then (.returned t.totalSent, t)
                else
                  sendFileRange file count responses
                    ⟨t.offset + n, t.totalSent + n, t.socket ++ slice file t.offset.toNat n⟩
      else (.returned t.totalSent, t)

/-- The length that is asked for, cut to the end of the records. -/
def Segment.clampedLen (s : Segment) (startPos length : UInt64) : UInt64 :=
  let rest := UInt64.ofNat s.writePos - startPos
  if rest.toNat < length.toNat then rest else length

/-- Send a part of the file of a segment. -/
def Handle.sendfileRange (h : Handle) (startPos length : UInt64) (responses : List Response) :
    Ending × Transfer :=
  sendFileRange h.file.bytes (h.seg.clampedLen startPos length).toNat responses
    ⟨startPos.toInt64.toInt, 0, []⟩

/-! ### What is on the socket -/

/-- The socket has got the bytes of the file from `start` on that were counted, and the offset
is behind them. -/
structure Transfer.Exact (file : List UInt8) (start : ℤ) (count : ℕ) (t : Transfer) : Prop where
  offset : t.offset = start + t.totalSent
  counted : t.totalSent ≤ count
  socket : t.socket = slice file start.toNat t.totalSent
  length : t.socket.length = t.totalSent
  started : 0 < t.totalSent → 0 ≤ start

namespace Transfer.Exact

variable {file : List UInt8} {start : ℤ} {count : ℕ} {t : Transfer}

/-- A call that sends bytes. -/
theorem sent (h : t.Exact file start count) {n : ℕ} (hoffset : 0 ≤ t.offset)
    (hcount : n ≤ count - t.totalSent) (hfile : n ≤ file.length - t.offset.toNat) :
  Exact file start count
    ⟨t.offset + n, t.totalSent + n, t.socket ++ slice file t.offset.toNat n⟩
  := by
  have hcounted := h.counted
  have hstart : 0 ≤ start := by
    rcases Nat.eq_zero_or_pos t.totalSent with hzero | hpos
    · have := h.offset
      omega
    · exact h.started hpos
  have hpos : t.offset.toNat = start.toNat + t.totalSent := by
    rw [h.offset]
    omega
  constructor
  case offset =>
    simp only
    rw [h.offset]
    push_cast
    omega
  case counted =>
    simp only
    omega
  case socket =>
    simp only
    rw [h.socket, hpos, slice_append_slice]
  case length =>
    simp only
    rw [List.length_append, h.length, slice, List.length_take, List.length_drop]
    omega
  case started =>
    intro _
    exact hstart

/-- Every transfer, whatever the calls answer. -/
theorem run (h : t.Exact file start count) (responses : List Response) :
  (sendFileRange file count responses t).2.Exact file start count
    ∧ ∀ r, (sendFileRange file count responses t).1 = .returned r →
        r = (sendFileRange file count responses t).2.totalSent
  := by
  have hend : ∀ r, Ending.returned t.totalSent = .returned r → r = t.totalSent := by
    intro r hr
    exact (Ending.returned.inj hr).symm
  induction responses generalizing t with
  | nil =>
      rw [sendFileRange]
      split
      · refine ⟨h, ?_⟩
        rintro r ⟨⟩
      · exact ⟨h, hend⟩
  | cons response responses ih =>
      rw [sendFileRange]
      split
      · cases response with
        | error errno =>
            cases errno with
            | eintr => exact ih h hend
            | eagain => exact ⟨h, hend⟩
            | other description =>
                refine ⟨h, ?_⟩
                rintro r ⟨⟩
        | sent n =>
            rw [sendfile]
            by_cases hneg : t.offset < 0
            · simp only [if_pos hneg]
              refine ⟨h, ?_⟩
              rintro r ⟨⟩
            · simp only [if_neg hneg]
              split
              · exact ⟨h, hend⟩
              · apply ih
                · apply h.sent (Int.not_lt.mp hneg) <;> omega
                · intro r hr
                  exact (Ending.returned.inj hr).symm
      · exact ⟨h, hend⟩

end Transfer.Exact

/-! ### Transfers from a segment -/

/-- What was sent from a segment is exact, and no more than was asked for. -/
theorem Handle.sendfileRange_exact (h : Handle) (startPos length : UInt64)
    (responses : List Response) :
  (h.sendfileRange startPos length responses).2.Exact h.file.bytes startPos.toInt64.toInt
      (h.seg.clampedLen startPos length).toNat
    ∧ ∀ r, (h.sendfileRange startPos length responses).1 = .returned r →
        r = (h.sendfileRange startPos length responses).2.totalSent
  := by
  apply Transfer.Exact.run
  constructor
  case offset => simp
  case counted => exact Nat.zero_le _
  case socket => rfl
  case length => rfl
  case started =>
    intro hpos
    simp at hpos

theorem Segment.toNat_clampedLen (s : Segment) (startPos length : UInt64) :
  (s.clampedLen startPos length).toNat
    = min length.toNat ((2 ^ 64 - startPos.toNat + s.writePos % 2 ^ 64) % 2 ^ 64)
  := by
  have hrest : (UInt64.ofNat s.writePos - startPos).toNat
      = (2 ^ 64 - startPos.toNat + s.writePos % 2 ^ 64) % 2 ^ 64 := by
    rw [UInt64.toNat_sub, UInt64.toNat_ofNat']
  rw [clampedLen, ← hrest]
  split <;> omega

/-- Up to the end of the records the length is cut as it should. -/
theorem Segment.clampedLen_le {s : Segment} (hs : s.writePos < 2 ^ 64) {startPos : UInt64}
    (h : startPos.toNat ≤ s.writePos) (length : UInt64) :
  startPos.toNat + (s.clampedLen startPos length).toNat ≤ s.writePos
  := by
  have := startPos.toNat_lt
  rw [toNat_clampedLen]
  omega

/-- Behind the end of the records something is left of every length. -/
theorem Segment.clampedLen_pos {s : Segment} (hs : s.writePos < 2 ^ 64) {startPos : UInt64}
    (h : s.writePos < startPos.toNat) {length : UInt64} (hlength : 0 < length.toNat) :
  0 < (s.clampedLen startPos length).toNat
  := by
  have := startPos.toNat_lt
  rw [toNat_clampedLen]
  omega

/-- A position as an `off_t`. -/
theorem toInt_toInt64 (x : UInt64) :
  x.toInt64.toInt = if x.toNat < 2 ^ 63 then (x.toNat : ℤ) else x.toNat - 2 ^ 64
  := by
  have hbv : x.toInt64.toInt = x.toBitVec.toInt := rfl
  rw [hbv, BitVec.toInt_eq_toNat_cond]
  simp only [UInt64.toNat_toBitVec]
  split <;> split <;> omega

section Sent

variable (h : Handle) (startPos length : UInt64) (responses : List Response)

/-- Something is sent only from positions that are not negative as an `off_t`. -/
theorem Handle.sendfileRange_start
    (hpos : 0 < (h.sendfileRange startPos length responses).2.totalSent) :
  startPos.toNat < 2 ^ 63
  := by
  obtain ⟨hexact, -⟩ := h.sendfileRange_exact startPos length responses
  have hstart := hexact.started hpos
  have hlt := startPos.toNat_lt
  rw [toInt_toInt64] at hstart
  split at hstart
  · assumption
  · omega

theorem Handle.sendfileRange_socket :
  (h.sendfileRange startPos length responses).2.socket
    = slice h.file.bytes startPos.toNat
        (h.sendfileRange startPos length responses).2.socket.length
  := by
  obtain ⟨hexact, -⟩ := h.sendfileRange_exact startPos length responses
  rw [hexact.length]
  rcases Nat.eq_zero_or_pos (h.sendfileRange startPos length responses).2.totalSent
    with hzero | hpos
  · rw [hexact.socket, hzero, slice, slice, List.take_zero, List.take_zero]
  · have hstart := h.sendfileRange_start startPos length responses hpos
    have hcast : startPos.toInt64.toInt.toNat = startPos.toNat := by
      rw [toInt_toInt64, if_pos hstart, Int.toNat_natCast]
    rw [hexact.socket, hcast]

/-- From a position in front of the end of the file, a call can send a byte. -/
theorem Handle.sendfileRange_one (hfile : startPos.toNat < h.file.bytes.length)
    (hstart : startPos.toNat < 2 ^ 63) (hclamped : 0 < (h.seg.clampedLen startPos length).toNat) :
  (h.sendfileRange startPos length [.sent 1]).2.socket.length = 1
  := by
  have hoff : startPos.toInt64.toInt = startPos.toNat := by
    rw [toInt_toInt64, if_pos hstart]
  have hmin : min 1 (min ((h.seg.clampedLen startPos length).toNat - 0)
      (h.file.bytes.length - startPos.toNat)) = 1 := by omega
  have hlen : (slice h.file.bytes startPos.toNat 1).length = 1 := length_slice (by omega)
  have hneg : ¬ (startPos.toNat : ℤ) < 0 := by omega
  rw [sendfileRange, sendFileRange, if_pos hclamped, sendfile, hoff]
  simp only [if_neg hneg, Int.toNat_natCast, hmin]
  rw [if_neg Nat.one_ne_zero, sendFileRange, List.nil_append]
  split <;> exact hlen

end Sent

/-- A segment sends the bytes of its file from the start position on, as many as it reports and
at most as many as were asked for. All of them lie in front of the end of the records, however
the calls of `sendfile` go, if and only if the start position is not behind that end, or nothing
can be sent from it. -/
theorem Handle.sendfileRange_iff (h : Handle) (hwrite : h.seg.writePos < 2 ^ 64)
    (startPos length : UInt64) :
  (∀ responses,
      let out := h.sendfileRange startPos length responses
      out.2.socket = slice h.file.bytes startPos.toNat out.2.socket.length
        ∧ out.2.socket.length ≤ length.toNat
        ∧ ∀ r, out.1 = .returned r → r = out.2.socket.length)
    ∧ ((∀ responses i, i < (h.sendfileRange startPos length responses).2.socket.length →
          startPos.toNat + i < h.seg.writePos)
      ↔ (startPos.toNat ≤ h.seg.writePos ∨ length.toNat = 0
          ∨ h.file.bytes.length ≤ startPos.toNat ∨ 2 ^ 63 ≤ startPos.toNat))
  := by
  have hle : (h.seg.clampedLen startPos length).toNat ≤ length.toNat := by
    rw [Segment.toNat_clampedLen]
    apply Nat.min_le_left
  refine ⟨?_, ?_, ?_⟩
  · intro responses out
    obtain ⟨hexact, hreturned⟩ := h.sendfileRange_exact startPos length responses
    refine ⟨h.sendfileRange_socket startPos length responses, ?_, ?_⟩
    · rw [show out.2.socket.length = _ from hexact.length]
      exact hexact.counted.trans hle
    · rw [show out.2.socket.length = _ from hexact.length]
      exact hreturned
  · intro hinside
    by_contra hno
    rw [not_or, not_or, not_or, not_le, not_le, not_le] at hno
    obtain ⟨hbehind, hlength, hfile, hstart⟩ := hno
    have hclamped := Segment.clampedLen_pos hwrite hbehind (Nat.pos_of_ne_zero hlength)
    have hone := h.sendfileRange_one startPos length hfile hstart hclamped
    have := hinside [.sent 1] 0 (by rw [hone]; exact Nat.one_pos)
    omega
  · intro hcond responses i hi
    obtain ⟨hexact, -⟩ := h.sendfileRange_exact startPos length responses
    have hsocket := congrArg List.length (h.sendfileRange_socket startPos length responses)
    have hcounted := hexact.counted
    rw [slice, List.length_take, List.length_drop] at hsocket
    rw [hexact.length] at hi hsocket
    have hsigned := h.sendfileRange_start startPos length responses (by omega)
    rcases hcond with hbefore | hzero | hfile | hbig
    · have := Segment.clampedLen_le hwrite hbefore length
      omega
    · omega
    · omega
    · omega

/-- Two calls, interrupted once, from within the records of a segment. -/
theorem Handle.sendfileRange_partial :
  let h := (Segment.openFile 0 64 none).appendAll [⟨[1], by decide⟩, ⟨[2], by decide⟩]
  let out := h.sendfileRange 17 100 [.sent 5, .error .eintr, .sent 50]
  h.seg.writePos = 34 ∧ out.1 = .returned 17 ∧ out.2.socket = frame 1 ⟨[2], by decide⟩
    ∧ ∀ responses i, i < (h.sendfileRange 17 100 responses).2.socket.length →
        17 + i < h.seg.writePos
  := by
  intro h out
  have hwrite : h.seg.writePos = 34 := by decide +kernel
  refine ⟨hwrite, by decide +kernel, by decide +kernel, ?_⟩
  apply (sendfileRange_iff h (by rw [hwrite]; decide) 17 100).2.mpr
  left
  rw [hwrite]
  decide

/-- A start position behind the records: what is sent is a record that `replay` had
discarded. -/
theorem Handle.sendfileRange_leaks :
  let h := Segment.openFile 0 64 (some damagedFile)
  let out := h.sendfileRange 34 17 [.sent 17]
  h.records = [[1]] ∧ h.seg.writePos = 17
    ∧ out.1 = .returned 17 ∧ out.2.socket = frame 2 ⟨[3], by decide⟩
  := by
  decide +kernel

end Storage
