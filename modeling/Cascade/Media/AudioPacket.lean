import Mathlib
import Cascade.Library.Bytes

/-!
# Audio packets

The model of `media/audio_packet.hpp`: audio frames and requests to send one again, as datagrams.
A datagram is taken for an audio frame only if its length is the one that it spells, so that a frame
which was cut off is not.
-/

open Bytes

namespace Media

/-- The flag of a frame without sound. -/
def kFlagSilence : UInt8 := 0x01

/-- What a datagram is taken for. -/
inductive PacketKind
  | audio
  | nack
  | malformed
deriving DecidableEq

/-- A datagram that was read. The defaults are those of a malformed one. -/
structure DecodedPacket where
  kind : PacketKind := .malformed
  sequence : UInt32 := 0
  timestampMs : UInt32 := 0
  flags : UInt8 := 0
  payload : List UInt8 := []
deriving DecidableEq

/-- The bytes of an integer, as `memcpy` copies them from a machine that stores the least
significant byte first. -/
def storeUInt32 (n : UInt32) : List UInt8 := littleEndian 4 n.toNat

/-- The integer whose bytes stand at a position. -/
def loadUInt32 (data : List UInt8) (pos : ℕ) : UInt32 :=
  UInt32.ofNat (ofLittleEndian (slice data pos 4))

/-- What stands before the payload. The length is cut to its type. -/
def audioHeader (sequence timestampMs : UInt32) (flags : UInt8) (payloadLen : ℕ) : List UInt8 :=
  [0] ++ (storeUInt32 sequence
    ++ (storeUInt32 timestampMs ++ ([flags] ++ littleEndian 2 payloadLen)))

/-- An audio frame. -/
def encodeAudioPacket (sequence timestampMs : UInt32) (flags : UInt8) (payload : List UInt8) :
    List UInt8 :=
  audioHeader sequence timestampMs flags payload.length ++ payload

/-- A request to send a frame again. -/
def encodeNack (sequence : UInt32) : List UInt8 :=
  [1] ++ storeUInt32 sequence

/-- The bytes before the payload of an audio frame. -/
def kHeaderSize : ℕ := 12

/-- The fields of an audio frame. -/
def decodeAudio (data : List UInt8) : DecodedPacket :=
  if data.length < kHeaderSize then {}
  else
    let result : DecodedPacket :=
      { sequence := loadUInt32 data 1
        timestampMs := loadUInt32 data 5
        flags := data.getD 9 0 }
    let payloadLen := ofLittleEndian (slice data 10 2)
    if kHeaderSize + payloadLen ≠ data.length then result
    else { result with kind := .audio, payload := slice data kHeaderSize payloadLen }

/-- The first byte tells the kind. -/
def decodePacket (data : List UInt8) : DecodedPacket :=
  match data with
  | [] => {}
  | kind :: _ =>
      if kind = 1 then
        if data.length ≠ 5 then {} else { kind := .nack, sequence := loadUInt32 data 1 }
      else if kind ≠ 0 then {}
      else decodeAudio data

/-! ### Round trips -/

@[simp]
theorem length_storeUInt32 (n : UInt32) :
  (storeUInt32 n).length = 4
  := length_littleEndian 4 n.toNat

@[simp]
theorem length_audioHeader (sequence timestampMs : UInt32) (flags : UInt8) (payloadLen : ℕ) :
  (audioHeader sequence timestampMs flags payloadLen).length = kHeaderSize
  := by
  simp [audioHeader, kHeaderSize]

/-- An integer is loaded from where it was stored. -/
theorem loadUInt32_append {a : List UInt8} {pos : ℕ} (ha : a.length = pos) (n : UInt32)
    (b : List UInt8) :
  loadUInt32 (a ++ (storeUInt32 n ++ b)) pos = n
  := by
  rw [loadUInt32, slice_mid ha (length_storeUInt32 n), storeUInt32, ofLittleEndian_littleEndian]
  apply UInt32.toNat_inj.mp
  have hlt := n.toNat_lt
  simp

/-- The fields that stand in the header. -/
theorem fields_audioHeader {sequence timestampMs : UInt32} {flags : UInt8} {payloadLen : ℕ}
    (rest : List UInt8) :
  let data := audioHeader sequence timestampMs flags payloadLen ++ rest
  loadUInt32 data 1 = sequence ∧ loadUInt32 data 5 = timestampMs ∧ data.getD 9 0 = flags
    ∧ ofLittleEndian (slice data 10 2) = payloadLen % 2 ^ 16
  := by
  intro data
  have hsequence : data = [0] ++ (storeUInt32 sequence
      ++ (storeUInt32 timestampMs ++ ([flags] ++ littleEndian 2 payloadLen) ++ rest)) := by
    simp [data, audioHeader]
  have htimestamp : data = ([0] ++ storeUInt32 sequence) ++ (storeUInt32 timestampMs
      ++ ([flags] ++ littleEndian 2 payloadLen ++ rest)) := by
    simp [data, audioHeader]
  have hflags : data = ([0] ++ storeUInt32 sequence ++ storeUInt32 timestampMs) ++ ([flags]
      ++ (littleEndian 2 payloadLen ++ rest)) := by
    simp [data, audioHeader]
  have hlen : data = ([0] ++ storeUInt32 sequence ++ storeUInt32 timestampMs ++ [flags])
      ++ (littleEndian 2 payloadLen ++ rest) := by
    simp [data, audioHeader]
  refine ⟨?_, ?_, ?_, ?_⟩
  · rw [hsequence]
    exact loadUInt32_append rfl ..
  · rw [htimestamp]
    exact loadUInt32_append (by simp) ..
  · rw [hflags, List.getD_append_right _ _ _ _ (by simp)]
    simp
  · rw [hlen, slice_mid (by simp) (length_littleEndian 2 payloadLen), ofLittleEndian_littleEndian]
    rfl

theorem decodePacket_zero_cons (data : List UInt8) :
  decodePacket (0 :: data) = decodeAudio (0 :: data)
  := by
  rw [decodePacket, if_neg (by decide), if_neg (by decide)]

/-- The header, and what follows it, which is the payload if its length is right. -/
theorem decodePacket_audioHeader (sequence timestampMs : UInt32) (flags : UInt8) {payloadLen : ℕ}
    (hlen : payloadLen < 2 ^ 16) (rest : List UInt8) :
  decodePacket (audioHeader sequence timestampMs flags payloadLen ++ rest)
    = if payloadLen = rest.length then ⟨.audio, sequence, timestampMs, flags, rest⟩
      else ⟨.malformed, sequence, timestampMs, flags, []⟩
  := by
  obtain ⟨hsequence, htimestamp, hflags, hpayload⟩ :
      let data := audioHeader sequence timestampMs flags payloadLen ++ rest
      loadUInt32 data 1 = sequence ∧ loadUInt32 data 5 = timestampMs ∧ data.getD 9 0 = flags
        ∧ ofLittleEndian (slice data 10 2) = payloadLen % 2 ^ 16 := fields_audioHeader rest
  have hlength : (audioHeader sequence timestampMs flags payloadLen ++ rest).length
      = kHeaderSize + rest.length := by
    rw [List.length_append, length_audioHeader]
  rw [Nat.mod_eq_of_lt hlen] at hpayload
  have haudio : decodePacket (audioHeader sequence timestampMs flags payloadLen ++ rest)
      = decodeAudio (audioHeader sequence timestampMs flags payloadLen ++ rest) := by
    rw [audioHeader, List.append_assoc, List.singleton_append, decodePacket_zero_cons]
  rw [haudio, decodeAudio, if_neg (by rw [hlength]; omega), hsequence, htimestamp, hflags, hpayload,
    hlength]
  by_cases heq : payloadLen = rest.length
  · subst heq
    have hslice : slice (audioHeader sequence timestampMs flags rest.length ++ rest) kHeaderSize
        rest.length = rest := by
      rw [slice_eq_drop hlength.le, List.drop_left' (length_audioHeader ..)]
    rw [if_pos rfl, if_neg (by simp), hslice]
  · rw [if_neg heq, if_pos (by omega)]

/-- What is left of a frame that was cut off is malformed, and a frame that arrives whole is decoded
as it was encoded. -/
theorem decodePacket_take {sequence timestampMs : UInt32} {flags : UInt8} {payload : List UInt8}
    {n : ℕ} (hlen : payload.length < 2 ^ 16) (hn : kHeaderSize ≤ n)
    (haudio : (decodePacket ((encodeAudioPacket sequence timestampMs flags payload).take n)).kind
      = .audio) :
  decodePacket ((encodeAudioPacket sequence timestampMs flags payload).take n)
    = ⟨.audio, sequence, timestampMs, flags, payload⟩
  := by
  have htake : (encodeAudioPacket sequence timestampMs flags payload).take n
      = audioHeader sequence timestampMs flags payload.length
        ++ payload.take (n - kHeaderSize) := by
    rw [encodeAudioPacket, List.take_append, length_audioHeader,
      List.take_of_length_le (by rw [length_audioHeader]; exact hn)]
  rw [htake, decodePacket_audioHeader sequence timestampMs flags hlen] at haudio ⊢
  split at haudio
  · rename_i hwhole
    have hpayload : payload.take (n - kHeaderSize) = payload := by
      apply List.take_of_length_le
      rw [List.length_take] at hwhole
      omega
    rw [if_pos hwhole, hpayload]
  · cases haudio

/-! ### The format -/

/-- Storing what was loaded gives back the bytes. -/
theorem storeUInt32_loadUInt32 {data : List UInt8} {pos : ℕ} (h : pos + 4 ≤ data.length) :
  storeUInt32 (loadUInt32 data pos) = slice data pos 4
  := by
  have hlen : (slice data pos 4).length = 4 := length_slice h
  have hlt : ofLittleEndian (slice data pos 4) < UInt32.size := by
    have hlt := ofLittleEndian_lt (slice data pos 4)
    rwa [hlen] at hlt
  rw [storeUInt32, loadUInt32, UInt32.toNat_ofNat_of_lt' hlt, littleEndian_ofLittleEndian hlen]

theorem slice_one {data : List UInt8} {pos : ℕ} (h : pos < data.length) :
  slice data pos 1 = [data.getD pos 0]
  := by
  rw [slice, List.drop_eq_getElem_cons h, List.take_succ_cons, List.take_zero,
    List.getD_eq_getElem _ _ h]

/-- What begins like an audio frame and is long enough for a header has one. -/
theorem eq_audioHeader {tail : List UInt8} (hlen : kHeaderSize ≤ (0 :: tail).length) :
  ∃ sequence timestampMs flags payloadLen rest, payloadLen < 2 ^ 16
    ∧ 0 :: tail = audioHeader sequence timestampMs flags payloadLen ++ rest
  := by
  generalize hdata : (0 :: tail : List UInt8) = data at hlen
  rw [kHeaderSize] at hlen
  have hkind : slice data 0 1 = [0] := by
    rw [← hdata]
    rfl
  have hlast : (slice data 10 2).length = 2 := length_slice hlen
  have hbound : ofLittleEndian (slice data 10 2) < 2 ^ 16 := by
    have hlt := ofLittleEndian_lt (slice data 10 2)
    rwa [hlast] at hlt
  refine ⟨loadUInt32 data 1, loadUInt32 data 5, data.getD 9 0, _, data.drop 12, hbound, ?_⟩
  have hheader : audioHeader (loadUInt32 data 1) (loadUInt32 data 5) (data.getD 9 0)
      (ofLittleEndian (slice data 10 2)) = data.take 12 := by
    rw [audioHeader, storeUInt32_loadUInt32 (by omega), storeUInt32_loadUInt32 (by omega),
      littleEndian_ofLittleEndian hlast, ← slice_one (by omega), slice_append_slice,
      slice_append_slice, slice_append_slice, ← hkind, slice_append_slice]
    rfl
  rw [hheader, List.take_append_drop]

theorem decodePacket_encodeNack (sequence : UInt32) :
  decodePacket (encodeNack sequence) = { kind := .nack, sequence }
  := by
  have hlen : (encodeNack sequence).length = 5 := by simp [encodeNack]
  have hload : loadUInt32 (encodeNack sequence) 1 = sequence := by
    have happend := loadUInt32_append (a := [1]) rfl sequence []
    rwa [List.append_nil] at happend
  rw [encodeNack, List.singleton_append] at hlen hload ⊢
  rw [decodePacket, if_pos rfl, if_neg (not_not.mpr hlen), hload]

theorem decodePacket_encodeAudioPacket (sequence timestampMs : UInt32) (flags : UInt8)
    {payload : List UInt8} (hlen : payload.length ≤ 65535) :
  decodePacket (encodeAudioPacket sequence timestampMs flags payload)
    = ⟨.audio, sequence, timestampMs, flags, payload⟩
  := by
  rw [encodeAudioPacket, decodePacket_audioHeader sequence timestampMs flags (by omega),
    if_pos rfl]

/-- Of a length only the low two bytes are stored, which is not the length of what follows. -/
theorem decodePacket_oversized (sequence timestampMs : UInt32) (flags : UInt8)
    {payload : List UInt8} (hlen : 65535 < payload.length) :
  (decodePacket (encodeAudioPacket sequence timestampMs flags payload)).kind = .malformed
  := by
  have hmod : payload.length % 256 ^ 2 < 2 ^ 16 := Nat.mod_lt _ (by decide)
  rw [encodeAudioPacket, audioHeader, ← littleEndian_mod 2, ← audioHeader,
    decodePacket_audioHeader sequence timestampMs flags hmod, if_neg (by omega)]

/-- What is taken for an audio frame or for a request was encoded as such. -/
theorem decodePacket_cases (data : List UInt8) :
  (decodePacket data).kind = .malformed
    ∨ (∃ sequence, data = encodeNack sequence)
    ∨ ∃ sequence timestampMs flags payload, payload.length ≤ 65535
      ∧ data = encodeAudioPacket sequence timestampMs flags payload
  := by
  match data with
  | [] => exact .inl rfl
  | kind :: tail =>
      by_cases hnack : kind = 1
      · subst hnack
        rw [decodePacket, if_pos rfl]
        by_cases hlen : (1 :: tail).length = 5
        · have hslice : slice (1 :: tail) 1 4 = tail := slice_eq_drop hlen.le
          refine .inr (.inl ⟨loadUInt32 (1 :: tail) 1, ?_⟩)
          rw [encodeNack, storeUInt32_loadUInt32 hlen.ge, hslice, List.singleton_append]
        · rw [if_pos hlen]
          exact .inl rfl
      · by_cases haudio : kind = 0
        · subst haudio
          by_cases hlen : (0 :: tail).length < kHeaderSize
          · rw [decodePacket_zero_cons, decodeAudio, if_pos hlen]
            exact .inl rfl
          · obtain ⟨sequence, timestampMs, flags, payloadLen, rest, hbound, heq⟩ :=
              eq_audioHeader (not_lt.mp hlen)
            rw [heq, decodePacket_audioHeader sequence timestampMs flags hbound]
            by_cases hpayload : payloadLen = rest.length
            · subst hpayload
              exact .inr (.inr ⟨sequence, timestampMs, flags, rest, by omega, rfl⟩)
            · rw [if_neg hpayload]
              exact .inl rfl
        · rw [decodePacket, if_neg hnack, if_pos haudio]
          exact .inl rfl

/-- The datagrams that are taken for audio frames are those that are encoded with a payload of at
most 65535 bytes, and those taken for requests are the encoded ones; both give back what was
encoded. All others are malformed, among them the encodings of longer payloads. -/
theorem packet_format (data : List UInt8) :
  ((decodePacket data).kind = .audio ↔ ∃ sequence timestampMs flags payload,
      payload.length ≤ 65535 ∧ data = encodeAudioPacket sequence timestampMs flags payload)
    ∧ (∀ sequence timestampMs flags payload, payload.length ≤ 65535 →
        data = encodeAudioPacket sequence timestampMs flags payload →
        decodePacket data = ⟨.audio, sequence, timestampMs, flags, payload⟩)
    ∧ ((decodePacket data).kind = .nack ↔ ∃ sequence, data = encodeNack sequence)
    ∧ (∀ sequence, data = encodeNack sequence →
        decodePacket data = { kind := .nack, sequence })
    ∧ ((decodePacket data).kind = .malformed ↔
        (¬ ∃ sequence timestampMs flags payload, payload.length ≤ 65535
          ∧ data = encodeAudioPacket sequence timestampMs flags payload)
        ∧ ¬ ∃ sequence, data = encodeNack sequence)
    ∧ ∀ sequence timestampMs flags payload, 65535 < payload.length →
        data = encodeAudioPacket sequence timestampMs flags payload →
        (decodePacket data).kind = .malformed
  := by
  have haudio : (∃ sequence timestampMs flags payload, payload.length ≤ 65535
      ∧ data = encodeAudioPacket sequence timestampMs flags payload) →
      (decodePacket data).kind = .audio := by
    rintro ⟨sequence, timestampMs, flags, payload, hlen, rfl⟩
    rw [decodePacket_encodeAudioPacket sequence timestampMs flags hlen]
  have hnack : (∃ sequence, data = encodeNack sequence) → (decodePacket data).kind = .nack := by
    rintro ⟨sequence, rfl⟩
    rw [decodePacket_encodeNack]
  refine ⟨⟨?_, haudio⟩, ?_, ⟨?_, hnack⟩, ?_, ⟨?_, ?_⟩, ?_⟩
  · intro hkind
    rcases decodePacket_cases data with hno | hno | hyes
    · rw [hno] at hkind
      cases hkind
    · rw [hnack hno] at hkind
      cases hkind
    · exact hyes
  · rintro sequence timestampMs flags payload hlen rfl
    apply decodePacket_encodeAudioPacket sequence timestampMs flags hlen
  · intro hkind
    rcases decodePacket_cases data with hno | hyes | hno
    · rw [hno] at hkind
      cases hkind
    · exact hyes
    · rw [haudio hno] at hkind
      cases hkind
  · rintro sequence rfl
    apply decodePacket_encodeNack
  · intro hkind
    constructor
    · intro hno
      rw [haudio hno] at hkind
      cases hkind
    · intro hno
      rw [hnack hno] at hkind
      cases hkind
  · rintro ⟨hno, hno'⟩
    rcases decodePacket_cases data with hyes | hex | hex
    · exact hyes
    · exact absurd hex hno'
    · exact absurd hex hno
  · rintro sequence timestampMs flags payload hlen rfl
    apply decodePacket_oversized sequence timestampMs flags hlen

end Media
