import Cascade.Library.Bytes
import Cascade.Net.Framing

/-!
# Sending messages

The model of `TcpClient::send` in `net/tcp_client.hpp`: the frame of a message is handed to the
kernel, which takes as much of it as it likes, until it has taken all. What the kernel answers to
the calls is given as a list.

The length of a string is cut to 32 bits before it is compared with the largest one, so a message
of 4 GiB and more may be taken for a short one. The lengths for which a message is either refused
or goes over the wire as it is are those of `encode_or_refuse_iff`.
-/

open Bytes

namespace Net

/-- What the kernel answers to a call of `send`: how many bytes it would take, or an error. -/
inductive SendAnswer
  | sent (n : ℕ)
  | eintr
  | failed (description : String)

/-- Where a call has got to. -/
inductive SendEnding
  | running
  | returned
  | threw (message : String)
deriving DecidableEq

namespace TcpClient

/-- The loop of `send`, with the number of bytes that were sent and what is on the wire. -/
def sendLoop (frame : List UInt8) :
    List SendAnswer → ℕ → List UInt8 → SendEnding × List UInt8
  | answers, sent, wire =>
      if sent < frame.length then
        match answers with
        | [] => (.running, wire)
        | .eintr :: answers => sendLoop frame answers sent wire
        | .failed description :: _ => (.threw ("send() failed: " ++ description), wire)
        | .sent n :: answers =>
            let n := min n (frame.length - sent)
            sendLoop frame answers (sent + n) (wire ++ slice frame sent n)
      else (.returned, wire)

/-- Send the first `len` bytes of a message. -/
def sendBytes (payload : List UInt8) (len : UInt32) (answers : List SendAnswer) :
    SendEnding × List UInt8 :=
  match encodeFrameBytes payload len with
  | .error message => (.threw message, [])
  | .ok frame => sendLoop frame answers 0 []

/-- Send a message. -/
def send (payload : List UInt8) (answers : List SendAnswer) : SendEnding × List UInt8 :=
  sendBytes payload (UInt32.ofNat payload.length) answers

end TcpClient

/-! ### What a kernel takes -/

/-- The number of bytes that an answer allows. -/
def SendAnswer.count : SendAnswer → ℕ
  | .sent n => n
  | .eintr => 0
  | .failed _ => 0

/-- No call fails, and together they take at least `n` bytes. -/
structure Accepting (n : ℕ) (answers : List SendAnswer) : Prop where
  succeeds : ∀ description, .failed description ∉ answers
  enough : n ≤ (answers.map SendAnswer.count).sum

/-- Then the whole frame gets onto the wire. -/
theorem TcpClient.sendLoop_eq {frame : List UInt8} {answers : List SendAnswer} {sent : ℕ}
    (hsent : sent ≤ frame.length) (h : Accepting (frame.length - sent) answers) :
  sendLoop frame answers sent (frame.take sent) = (.returned, frame)
  := by
  induction answers generalizing sent with
  | nil =>
      have hall : frame.length ≤ sent := by
        have henough := h.enough
        rw [List.map_nil, List.sum_nil] at henough
        omega
      rw [sendLoop, if_neg (not_lt.mpr hall), List.take_of_length_le hall]
  | cons answer answers ih =>
      have hsucceeds : ∀ description, SendAnswer.failed description ∉ answers :=
        fun description hmem => h.succeeds description (List.mem_cons_of_mem _ hmem)
      have henough := h.enough
      rw [List.map_cons, List.sum_cons] at henough
      by_cases hmore : sent < frame.length
      · cases answer with
        | eintr =>
            rw [sendLoop, if_pos hmore]
            apply ih hsent
            refine ⟨hsucceeds, ?_⟩
            rwa [SendAnswer.count, Nat.zero_add] at henough
        | failed description => exact absurd List.mem_cons_self (h.succeeds description)
        | sent n =>
            rw [SendAnswer.count] at henough
            have htake : frame.take sent ++ slice frame sent (min n (frame.length - sent))
                = frame.take (sent + min n (frame.length - sent)) := by
              rw [slice, ← List.take_add]
            rw [sendLoop, if_pos hmore]
            dsimp only
            rw [htake]
            apply ih
            · omega
            · refine ⟨hsucceeds, ?_⟩
              omega
      · rw [sendLoop.eq_def]
        dsimp only
        rw [if_neg hmore, List.take_of_length_le (not_lt.mp hmore)]

/-! ### Messages of any length -/

/-- A message is refused because it is too long, or it is not too long and is decoded from the
bytes with nothing left over. -/
def EncodesOrRefuses (payload : List UInt8) : Except String (List UInt8) → Prop
  | .error _ => kMaxFrameSize.toNat < payload.length
  | .ok bytes =>
      payload.length ≤ kMaxFrameSize.toNat ∧ received [bytes] = ([payload], .ok [])

/-- The same of a message that is sent, where nothing of a refused message gets onto the wire. -/
def SendsOrRefuses (payload : List UInt8) : SendEnding × List UInt8 → Prop
  | (.threw _, wire) => kMaxFrameSize.toNat < payload.length ∧ wire = []
  | (.returned, wire) =>
      payload.length ≤ kMaxFrameSize.toNat ∧ received [wire] = ([payload], .ok [])
  | (.running, _) => False

variable {payload : List UInt8}

/-- The frame of a message that is not too long. -/
theorem received_frame (h : payload.length ≤ kMaxFrameSize.toNat) :
  received [storeLength (UInt32.ofNat payload.length) ++ payload] = ([payload], .ok [])
  := by
  have hextract := tryExtract_frame h []
  rw [received_eq_drain, List.flatten_singleton, ← List.append_nil (storeLength _ ++ payload),
    Decoder.drain_some hextract, Decoder.drain_none rfl]

/-- What the length is taken for. -/
theorem kMaxFrameSize_lt_ofNat_iff (payload : List UInt8) :
  kMaxFrameSize < UInt32.ofNat payload.length
    ↔ kMaxFrameSize.toNat < payload.length % 2 ^ 32
  := by
  rw [UInt32.lt_iff_toNat_lt, UInt32.toNat_ofNat']

theorem encodeFrame_refused (h : kMaxFrameSize.toNat < payload.length % 2 ^ 32) :
  encodeFrame payload = .error "payload exceeds kMaxFrameSize"
  := by
  rw [encodeFrame, encodeFrameBytes, if_pos ((kMaxFrameSize_lt_ofNat_iff payload).mpr h)]

/-- The message is taken for a shorter one. -/
theorem encodeFrame_cut (h : payload.length % 2 ^ 32 ≤ kMaxFrameSize.toNat) :
  encodeFrame payload = .ok (storeLength (UInt32.ofNat payload.length)
    ++ payload.take (payload.length % 2 ^ 32))
  := by
  rw [encodeFrame, encodeFrameBytes,
    if_neg ((kMaxFrameSize_lt_ofNat_iff payload).not.mpr (not_lt.mpr h)), UInt32.toNat_ofNat']

/-- Sending a message whose frame exists puts that frame onto the wire. -/
theorem TcpClient.send_eq {payload frame : List UInt8} (h : encodeFrame payload = .ok frame)
    {answers : List SendAnswer} (haccept : Accepting frame.length answers) :
  send payload answers = (.returned, frame)
  := by
  rw [encodeFrame] at h
  rw [send, sendBytes, h]
  exact sendLoop_eq (Nat.zero_le _) haccept

/-- The same of one whose frame is refused. -/
theorem TcpClient.send_refused {message : String} (h : encodeFrame payload = .error message)
    (answers : List SendAnswer) :
  send payload answers = (.threw message, [])
  := by
  rw [encodeFrame] at h
  rw [send, sendBytes, h]

/-- A message of any length is refused, or is decoded from its frame with nothing left over, the
former exactly if it is too long, and so it is when it is sent over a connection that takes it, if
and only if its length does not become small enough by being cut to 32 bits. -/
theorem encode_or_refuse_iff (payload : List UInt8) :
  EncodesOrRefuses payload (encodeFrame payload)
      ∧ (∀ answers, Accepting (4 + payload.length) answers →
          SendsOrRefuses payload (TcpClient.send payload answers))
    ↔ payload.length ≤ kMaxFrameSize.toNat
      ∨ kMaxFrameSize.toNat < payload.length % 2 ^ 32
  := by
  rcases Nat.lt_or_ge kMaxFrameSize.toNat (payload.length % 2 ^ 32) with hlarge | hsmall
  · have hlong : kMaxFrameSize.toNat < payload.length :=
      hlarge.trans_le (Nat.mod_le ..)
    have hrefused := encodeFrame_refused hlarge
    refine iff_of_true ⟨?_, ?_⟩ (.inr hlarge)
    · rw [hrefused]
      exact hlong
    · intro answers _
      rw [TcpClient.send_refused hrefused]
      exact ⟨hlong, rfl⟩
  · rcases Nat.lt_or_ge kMaxFrameSize.toNat payload.length with hlong | hshort
    · -- too long, but encoded nevertheless
      apply iff_of_false
      · rintro ⟨hencodes, -⟩
        rw [encodeFrame_cut hsmall] at hencodes
        exact absurd hencodes.1 (not_le.mpr hlong)
      · rintro (hshort | hlarge)
        · exact absurd hshort (not_le.mpr hlong)
        · exact absurd hlarge (not_lt.mpr hsmall)
    · have hframe := encodeFrame_eq hshort
      refine iff_of_true ⟨?_, ?_⟩ (.inl hshort)
      · rw [hframe]
        exact ⟨hshort, received_frame hshort⟩
      · intro answers haccept
        have hlen : (storeLength (UInt32.ofNat payload.length) ++ payload).length
            = 4 + payload.length := by
          rw [List.length_append]
          rfl
        rw [TcpClient.send_eq hframe (hlen ▸ haccept)]
        exact ⟨hshort, received_frame hshort⟩

/-- A message of 4 GiB is sent as an empty one. -/
theorem encode_or_refuse_cut :
  let payload := List.replicate (2 ^ 32) (0 : UInt8)
  kMaxFrameSize.toNat < payload.length
    ∧ encodeFrame payload = .ok [0, 0, 0, 0]
    ∧ TcpClient.send payload [.sent 4] = (.returned, [0, 0, 0, 0])
    ∧ received [[0, 0, 0, 0]] = ([[]], .ok [])
  := by
  intro payload
  have hlen : payload.length = 2 ^ 32 := List.length_replicate
  have hframe : encodeFrame payload = .ok [0, 0, 0, 0] := by
    rw [encodeFrame_cut (by rw [hlen]; decide), hlen]
    rfl
  refine ⟨?_, hframe, ?_, ?_⟩
  · rw [hlen]
    decide
  · apply TcpClient.send_eq hframe
    exact ⟨by simp, by decide⟩
  · have hempty : ([] : List UInt8).length ≤ kMaxFrameSize.toNat := Nat.zero_le _
    exact received_frame hempty

end Net
