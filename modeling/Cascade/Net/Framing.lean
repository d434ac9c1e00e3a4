import Mathlib
import Cascade.Library.Decoder

/-!
# Framing

The model of `net/framing.hpp`: messages go over a byte stream with their length in front, and are
taken from it as their bytes arrive. It does not matter how the stream is cut, be it well formed
or not, and messages that were encoded come out as they were.
-/

namespace Net

/-- The largest length of a message. -/
def kMaxFrameSize : UInt32 := 16 * 1024 * 1024

/-! ### Lengths -/

/-- The bytes of a length, the most significant one first. -/
def storeLength (len : UInt32) : List UInt8 :=
  [((len >>> 24) &&& 0xFF).toUInt8, ((len >>> 16) &&& 0xFF).toUInt8,
    ((len >>> 8) &&& 0xFF).toUInt8, (len &&& 0xFF).toUInt8]

/-- The length that four bytes spell. -/
def loadLength (b₀ b₁ b₂ b₃ : UInt8) : UInt32 :=
  (b₀.toUInt32 <<< 24) ||| (b₁.toUInt32 <<< 16) ||| (b₂.toUInt32 <<< 8) ||| b₃.toUInt32

theorem shiftLeft_or_shiftLeft (x k : ℕ) {b : ℕ} (hb : b < 256) :
  (x <<< (8 + k)) ||| (b <<< k) = (x * 256 + b) <<< k
  := by
  have hor : x <<< 8 + b = x <<< 8 ||| b := Nat.shiftLeft_add_eq_or_of_lt hb x
  rw [Nat.shiftLeft_add, ← Nat.shiftLeft_or_distrib, ← hor, Nat.shiftLeft_eq x]

theorem loadLength_toNat (b₀ b₁ b₂ b₃ : UInt8) :
  (loadLength b₀ b₁ b₂ b₃).toNat
    = ((b₀.toNat * 256 + b₁.toNat) * 256 + b₂.toNat) * 256 + b₃.toNat
  := by
  have h₀ := b₀.toNat_lt
  have h₁ := b₁.toNat_lt
  have h₂ := b₂.toNat_lt
  have hshift₀ : (b₀.toUInt32 <<< 24).toNat = b₀.toNat <<< (8 + 16) := by
    simp [UInt32.toNat_shiftLeft, Nat.shiftLeft_eq]
    omega
  have hshift₁ : (b₁.toUInt32 <<< 16).toNat = b₁.toNat <<< (8 + 8) := by
    simp [UInt32.toNat_shiftLeft, Nat.shiftLeft_eq]
    omega
  have hshift₂ : (b₂.toUInt32 <<< 8).toNat = b₂.toNat <<< (8 + 0) := by
    simp [UInt32.toNat_shiftLeft, Nat.shiftLeft_eq]
    omega
  have hshift₃ : b₃.toUInt32.toNat = b₃.toNat <<< 0 := by simp
  rw [loadLength, UInt32.toNat_or, UInt32.toNat_or, UInt32.toNat_or, hshift₀, hshift₁, hshift₂,
    hshift₃, shiftLeft_or_shiftLeft _ (8 + 8) h₁, shiftLeft_or_shiftLeft _ (8 + 0) h₂,
    shiftLeft_or_shiftLeft _ 0 b₃.toNat_lt, Nat.shiftLeft_zero]

/-- Loading gives back what was stored. -/
theorem loadLength_storeLength (len : UInt32) :
  loadLength ((len >>> 24) &&& 0xFF).toUInt8 ((len >>> 16) &&& 0xFF).toUInt8
    ((len >>> 8) &&& 0xFF).toUInt8 (len &&& 0xFF).toUInt8 = len
  := by
  have hlen := len.toNat_lt
  have hand : ∀ n, n % 256 &&& 255 = n % 256 := by
    intro n
    rw [Nat.and_two_pow_sub_one_eq_mod _ 8]
    apply Nat.mod_mod
  apply UInt32.toNat_inj.mp
  rw [loadLength_toNat]
  simp [Nat.shiftRight_eq_div_pow, hand]
  omega

/-! ### Frames -/

/-- The frame of the first `len` bytes of a message. -/
def encodeFrameBytes (payload : List UInt8) (len : UInt32) : Except String (List UInt8) :=
  if kMaxFrameSize < len then .error "payload exceeds kMaxFrameSize"
  else .ok (storeLength len ++ payload.take len.toNat)

/-- The frame of a message. -/
def encodeFrame (payload : List UInt8) : Except String (List UInt8) :=
  encodeFrameBytes payload (UInt32.ofNat payload.length)

/-- Take the next message from a buffer, if it is complete. -/
def tryExtract (buffer : List UInt8) : Except String (Option (List UInt8 × List UInt8)) :=
  match buffer with
  | b₀ :: b₁ :: b₂ :: b₃ :: _ =>
      let len := loadLength b₀ b₁ b₂ b₃
      if kMaxFrameSize < len then
        .error "frame length exceeds kMaxFrameSize: malformed or hostile input"
      else if buffer.length < (4 + len).toNat then .ok none
      else .ok (some ((buffer.drop 4).take len.toNat, buffer.drop (4 + len.toNat)))
  | _ => .ok none

theorem kMaxFrameSize_toNat :
  kMaxFrameSize.toNat = 2 ^ 24
  := rfl

/-- The length of a frame does not overflow. -/
theorem four_add_toNat {len : UInt32} (h : ¬ kMaxFrameSize < len) :
  (4 + len).toNat = 4 + len.toNat
  := by
  have hle := UInt32.le_iff_toNat_le.mp (UInt32.not_lt.mp h)
  rw [kMaxFrameSize_toNat] at hle
  rw [UInt32.toNat_add]
  change (4 + len.toNat) % 2 ^ 32 = 4 + len.toNat
  omega

/-- What a buffer with a length in front gives. -/
theorem tryExtract_cons (b₀ b₁ b₂ b₃ : UInt8) (tail : List UInt8) :
  tryExtract (b₀ :: b₁ :: b₂ :: b₃ :: tail)
    = if kMaxFrameSize < loadLength b₀ b₁ b₂ b₃ then
        .error "frame length exceeds kMaxFrameSize: malformed or hostile input"
      else if tail.length < (loadLength b₀ b₁ b₂ b₃).toNat then .ok none
      else .ok (some (tail.take (loadLength b₀ b₁ b₂ b₃).toNat,
        tail.drop (loadLength b₀ b₁ b₂ b₃).toNat))
  := by
  rw [tryExtract]
  by_cases hmax : kMaxFrameSize < loadLength b₀ b₁ b₂ b₃
  · rw [if_pos hmax, if_pos hmax]
  · rw [if_neg hmax, if_neg hmax, four_add_toNat hmax]
    have hlen : (b₀ :: b₁ :: b₂ :: b₃ :: tail).length = 4 + tail.length := by
      simp only [List.length_cons]
      omega
    simp only [hlen, Nat.add_lt_add_iff_left, ← List.drop_drop, List.drop_succ_cons,
      List.drop_zero]

/-- A buffer is too short for a length, or has one in front. -/
theorem tryExtract_cases (buffer : List UInt8) :
  tryExtract buffer = .ok none ∨ ∃ b₀ b₁ b₂ b₃ tail, buffer = b₀ :: b₁ :: b₂ :: b₃ :: tail
  := by
  match buffer with
  | [] => exact .inl rfl
  | [_] => exact .inl rfl
  | [_, _] => exact .inl rfl
  | [_, _, _] => exact .inl rfl
  | b₀ :: b₁ :: b₂ :: b₃ :: tail => exact .inr ⟨b₀, b₁, b₂, b₃, tail, rfl⟩

/-- A message that is extracted is followed by what is left. -/
theorem tryExtract_eq_some {buffer payload rest : List UInt8}
    (h : tryExtract buffer = .ok (some (payload, rest))) :
  ∃ b₀ b₁ b₂ b₃, buffer = b₀ :: b₁ :: b₂ :: b₃ :: (payload ++ rest)
    ∧ ¬ kMaxFrameSize < loadLength b₀ b₁ b₂ b₃
    ∧ payload.length = (loadLength b₀ b₁ b₂ b₃).toNat
  := by
  rcases tryExtract_cases buffer with hnone | ⟨b₀, b₁, b₂, b₃, tail, rfl⟩
  · rw [hnone] at h
    cases h
  · rw [tryExtract_cons] at h
    split at h
    · cases h
    · rename_i hmax
      split at h
      · cases h
      · rename_i hlen
        simp only [Except.ok.injEq, Option.some_inj, Prod.mk.injEq] at h
        obtain ⟨rfl, rfl⟩ := h
        refine ⟨b₀, b₁, b₂, b₃, ?_, hmax, ?_⟩
        · rw [List.take_append_drop]
        · rw [List.length_take, Nat.min_eq_left (not_lt.mp hlen)]

variable {payload : List UInt8}

/-- A complete message comes out, whatever follows it. -/
theorem tryExtract_of_complete {b₀ b₁ b₂ b₃ : UInt8} (rest : List UInt8)
    (hmax : ¬ kMaxFrameSize < loadLength b₀ b₁ b₂ b₃)
    (hlen : payload.length = (loadLength b₀ b₁ b₂ b₃).toNat) :
  tryExtract (b₀ :: b₁ :: b₂ :: b₃ :: (payload ++ rest)) = .ok (some (payload, rest))
  := by
  have hroom : ¬ (payload ++ rest).length < payload.length := by simp
  rw [tryExtract_cons, if_neg hmax, ← hlen, if_neg hroom, List.take_left, List.drop_left]

/-- The decoder of a connection. -/
def frameDecoder : Decoder UInt8 (List UInt8) String where
  extract := tryExtract
  shrinks := by
    intro buffer payload rest h
    obtain ⟨b₀, b₁, b₂, b₃, rfl, -⟩ := tryExtract_eq_some h
    simp only [List.length_cons, List.length_append]
    omega
  extract_append := by
    intro buffer payload rest more h
    obtain ⟨b₀, b₁, b₂, b₃, rfl, hmax, hlen⟩ := tryExtract_eq_some h
    simp only [List.cons_append, List.append_assoc]
    apply tryExtract_of_complete (rest ++ more) hmax hlen
  error_append := by
    intro buffer e more h
    rcases tryExtract_cases buffer with hnone | ⟨b₀, b₁, b₂, b₃, tail, rfl⟩
    · rw [hnone] at h
      cases h
    · simp only [List.cons_append]
      rw [tryExtract_cons] at h ⊢
      by_cases hmax : kMaxFrameSize < loadLength b₀ b₁ b₂ b₃
      · rw [if_pos hmax] at h ⊢
        exact h
      · rw [if_neg hmax] at h
        split at h <;> cases h

/-! ### Connections -/

/-- What `handle_readable` delivers of a connection on which chunks of bytes arrive: the messages,
and what is left in the buffer or the error for which the connection was dropped. -/
def received (chunks : List (List UInt8)) : List (List UInt8) × Except String (List UInt8) :=
  frameDecoder.feedAll (.ok []) chunks

/-- What is delivered is decided by the bytes alone. -/
theorem received_eq_drain (chunks : List (List UInt8)) :
  received chunks = frameDecoder.drain chunks.flatten
  := by
  have hnil : frameDecoder.extract [] = .ok none := rfl
  rw [received, frameDecoder.feedAll_eq hnil, List.nil_append]

theorem ofNat_length_toNat (h : payload.length ≤ kMaxFrameSize.toNat) :
  (UInt32.ofNat payload.length).toNat = payload.length
  := by
  rw [kMaxFrameSize_toNat] at h
  apply UInt32.toNat_ofNat_of_lt'
  change payload.length < 2 ^ 32
  omega

theorem not_kMaxFrameSize_lt (h : payload.length ≤ kMaxFrameSize.toNat) :
  ¬ kMaxFrameSize < UInt32.ofNat payload.length
  := by
  rw [UInt32.lt_iff_toNat_lt, ofNat_length_toNat h]
  exact not_lt.mpr h

/-- The frame of a message that is not too long. -/
theorem encodeFrame_eq (h : payload.length ≤ kMaxFrameSize.toNat) :
  encodeFrame payload = .ok (storeLength (UInt32.ofNat payload.length) ++ payload)
  := by
  rw [encodeFrame, encodeFrameBytes, if_neg (not_kMaxFrameSize_lt h), ofNat_length_toNat h,
    List.take_length]

/-- The first message of a stream is the one whose frame is in front. -/
theorem tryExtract_frame (h : payload.length ≤ kMaxFrameSize.toNat) (rest : List UInt8) :
  tryExtract (storeLength (UInt32.ofNat payload.length) ++ payload ++ rest)
    = .ok (some (payload, rest))
  := by
  have hload := loadLength_storeLength (UInt32.ofNat payload.length)
  rw [List.append_assoc, storeLength]
  apply tryExtract_of_complete rest
  · rw [hload]
    apply not_kMaxFrameSize_lt h
  · rw [hload, ofNat_length_toNat h]

/-- The frames of messages that are not too long exist, and decode to the messages. -/
theorem drain_encoded (payloads : List (List UInt8))
    (h : ∀ payload ∈ payloads, payload.length ≤ kMaxFrameSize.toNat) :
  ∃ frames, payloads.mapM encodeFrame = .ok frames
    ∧ frameDecoder.drain frames.flatten = (payloads, .ok [])
  := by
  induction payloads with
  | nil => exact ⟨[], rfl, Decoder.drain_none rfl⟩
  | cons payload payloads ih =>
      obtain ⟨frames, hframes, hdrain⟩ := ih fun p hp => h p (List.mem_cons_of_mem _ hp)
      have hlen := h payload List.mem_cons_self
      refine ⟨(storeLength (UInt32.ofNat payload.length) ++ payload) :: frames, ?_, ?_⟩
      · rw [List.mapM_cons, encodeFrame_eq hlen, hframes]
        rfl
      · have hfirst := tryExtract_frame hlen frames.flatten
        rw [List.flatten_cons, Decoder.drain_some hfirst, hdrain]

/-- It does not matter how a stream of bytes is cut into chunks, and messages that were encoded
are delivered as they were, with nothing left. -/
theorem chunking_independence :
  (∀ chunks chunks' : List (List UInt8), chunks.flatten = chunks'.flatten →
      received chunks = received chunks')
    ∧ ∀ payloads : List (List UInt8),
      (∀ payload ∈ payloads, payload.length ≤ kMaxFrameSize.toNat) →
      ∃ frames, payloads.mapM encodeFrame = .ok frames
        ∧ ∀ chunks : List (List UInt8), chunks.flatten = frames.flatten →
          received chunks = (payloads, .ok [])
  := by
  constructor
  · intro chunks chunks' h
    rw [received_eq_drain, received_eq_drain, h]
  · intro payloads h
    obtain ⟨frames, hframes, hdrain⟩ := drain_encoded payloads h
    refine ⟨frames, hframes, ?_⟩
    intro chunks hcut
    rw [received_eq_drain, hcut, hdrain]

/-- Two streams, one with a length that is too large after a message, and the frames of two
messages, in which a length is cut. -/
theorem chunking_independence_cut :
  received [[0, 0], [0, 1, 7, 255], [255, 255, 255]]
      = received [[0, 0, 0, 1, 7, 255, 255, 255, 255]]
    ∧ ∃ frames, [[1, 2], []].mapM encodeFrame = .ok frames
      ∧ received (frames.flatten.map fun byte => [byte]) = ([[1, 2], []], .ok [])
  := by
  constructor
  · apply chunking_independence.1
    rfl
  · obtain ⟨frames, hframes, hreceived⟩ := chunking_independence.2 [[1, 2], []] (by decide)
    refine ⟨frames, hframes, ?_⟩
    apply hreceived
    rw [← List.flatMap_def, List.flatMap_singleton']

end Net
