import Cascade.Library.Runs
import Cascade.Media.AudioPacket
import Cascade.Media.JitterBuffer

/-!
# Audio sessions

The model of `media/audio_session.hpp`, with `media/retransmit_cache.hpp` and
`media/silence_detector.hpp`: a sender numbers its frames and keeps the last ones, to send them
again when it is asked to; a receiver plays them through its jitter buffer.

Between the two there is a network that may lose, duplicate, delay and reorder what is sent, and
deliver anything else to both sides that is not an audio frame. What is played is nevertheless what
was prepared, in the order in which it was.
-/

open Runs

namespace Media

/-! ### The sender -/

/-- The samples that the bytes spell, on a machine that stores the least significant byte first. -/
def samples : List UInt8 → List Int16
  | low :: high :: rest => (low.toUInt16 ||| high.toUInt16 <<< 8).toInt16 :: samples rest
  | _ => []

/-- The mean amplitude is below the threshold. -/
def isSilence (samples : List Int16) (threshold : ℕ := 200) : Bool :=
  if samples.length = 0 then true
  else (samples.map (·.toInt.natAbs)).sum / samples.length < threshold

/-- The last frames by their numbers, and the order in which they were stored. -/
structure RetransmitCache where
  capacity : ℕ := 256
  cache : Finmap fun _ : UInt32 => List UInt8 := ∅
  order : List UInt32 := []

namespace RetransmitCache

/-- Forget the oldest frames while there are too many. -/
def evict (capacity : ℕ) : List UInt32 → (Finmap fun _ : UInt32 => List UInt8) → RetransmitCache
  | [], cache => ⟨capacity, cache, []⟩
  | front :: order, cache =>
      if capacity < (front :: order).length then evict capacity order (cache.erase front)
      else ⟨capacity, cache, front :: order⟩

/-- Store a frame, and forget the oldest. -/
def store (c : RetransmitCache) (sequence : UInt32) (packetBytes : List UInt8) : RetransmitCache :=
  evict c.capacity (c.order ++ [sequence]) (c.cache.insert sequence packetBytes)

/-- The frame with a number, if it is still there. -/
def get (c : RetransmitCache) (sequence : UInt32) : Option (List UInt8) :=
  c.cache.lookup sequence

theorem get_evict {capacity : ℕ} {order : List UInt32} {cache : Finmap fun _ : UInt32 => List UInt8}
    {sequence : UInt32} {bytes : List UInt8}
    (h : (evict capacity order cache).get sequence = some bytes) :
  cache.lookup sequence = some bytes
  := by
  induction order generalizing cache with
  | nil => exact h
  | cons front order ih =>
    rw [evict] at h
    split at h
    · have herase := ih h
      rcases eq_or_ne sequence front with rfl | hne
      · rw [Finmap.lookup_erase] at herase
        cases herase
      · rwa [Finmap.lookup_erase_ne hne] at herase
    · exact h

/-- What is found was stored now, or was found before. -/
theorem get_store {c : RetransmitCache} {sequence sequence' : UInt32}
    {bytes packetBytes : List UInt8}
    (h : (c.store sequence packetBytes).get sequence' = some bytes) :
  bytes = packetBytes ∨ c.get sequence' = some bytes
  := by
  have hinsert := get_evict h
  rcases eq_or_ne sequence' sequence with rfl | hne
  · rw [Finmap.lookup_insert] at hinsert
    exact .inl (Option.some.inj hinsert).symm
  · rw [Finmap.lookup_insert_of_ne _ hne] at hinsert
    exact .inr hinsert

end RetransmitCache

/-- The sender, with the number of its next frame. -/
structure AudioSender where
  frameIntervalMs : UInt32
  sequence : UInt32 := 0
  cache : RetransmitCache := {}

/-- What a socket gives for a datagram: what does not fit is cut off. -/
def tryRecv (data : List UInt8) : List UInt8 := data.take 65536

/-- How the system answers `sendto`: the datagram is sent, or there is no room for it at the moment,
or there is another error. -/
inductive SendAnswer where
  | sent
  | wouldBlock
  | failed (error : String)

/-- The most that fits a datagram of UDP over IPv4. -/
def maxDatagram : ℕ := 65507

/-- What `send_to` sends, or throws. For a datagram that is too long there is one answer only. -/
def sendTo (answer : SendAnswer) (data : List UInt8) : Except String (Option (List UInt8)) :=
  match if maxDatagram < data.length then .failed "Message too long" else answer with
  | .sent => .ok (some data)
  | .wouldBlock => .ok none
  | .failed error => .error ("sendto() failed: " ++ error)

namespace AudioSender

/-- The flags of a frame. -/
def flagsOf (payload : List UInt8) : UInt8 :=
  let silent := if 2 ≤ payload.length then isSilence (samples payload) else false
  if silent then kFlagSilence else 0

/-- Number a frame, and keep it to be sent again. -/
def prepareFrame (a : AudioSender) (payload : List UInt8) : List UInt8 × AudioSender :=
  let timestamp := a.sequence * a.frameIntervalMs
  let bytes := encodeAudioPacket a.sequence timestamp (flagsOf payload) payload
  (bytes, { a with cache := a.cache.store a.sequence bytes, sequence := a.sequence + 1 })

/-- What the sender answers to a datagram, if anything. -/
def handleNack (a : AudioSender) (data : List UInt8) : Option (List UInt8) :=
  let decoded := decodePacket (tryRecv data)
  if decoded.kind = .nack then a.cache.get decoded.sequence else none

/-- The datagrams that are sent again, and what is thrown, which ends the loop. With each datagram
that is received, there is the answer to what may be sent for it. -/
def pollAndHandleNacks (a : AudioSender) :
    List (List UInt8 × SendAnswer) → List (List UInt8) × Except String Unit
  | [] => ([], .ok ())
  | (data, answer) :: datagrams =>
      match a.handleNack data with
      | none => a.pollAndHandleNacks datagrams
      | some cached =>
          match sendTo answer cached with
          | .error what => ([], .error what)
          | .ok sent =>
              let r := a.pollAndHandleNacks datagrams
              (sent.toList ++ r.1, r.2)

/-- Only what is cached is sent. -/
theorem mem_pollAndHandleNacks {a : AudioSender} {datagrams : List (List UInt8 × SendAnswer)}
    {bytes : List UInt8} (h : bytes ∈ (a.pollAndHandleNacks datagrams).1) :
  ∃ sequence, a.cache.get sequence = some bytes
  := by
  induction datagrams with
  | nil => cases h
  | cons datagram datagrams ih =>
      obtain ⟨data, answer⟩ := datagram
      rw [pollAndHandleNacks] at h
      split at h
      · exact ih h
      · rename_i cached hnack
        split at h
        · cases h
        · rename_i sent hsent
          rcases List.mem_append.mp h with h | h
          · obtain rfl : cached = bytes := by
              rw [sendTo] at hsent
              split at hsent
              · obtain rfl := Except.ok.inj hsent
                exact (List.mem_singleton.mp h).symm
              · obtain rfl := Except.ok.inj hsent
                cases h
              · cases hsent
            rw [handleNack] at hnack
            split at hnack
            · exact ⟨_, hnack⟩
            · cases hnack
          · exact ih h

end AudioSender

/-! ### The receiver -/

/-- The receiver. -/
structure AudioReceiver where
  jitter : JitterBuffer

namespace AudioReceiver

/-- Put a datagram into the jitter buffer, if it is an audio frame. -/
def receive (a : AudioReceiver) (nowMs : UInt64) (data : List UInt8) : AudioReceiver :=
  let decoded := decodePacket (tryRecv data)
  if decoded.kind = .audio then ⟨a.jitter.push decoded.sequence decoded.payload nowMs⟩ else a

/-- Take the datagrams that are there. -/
def pollIncoming (a : AudioReceiver) (datagrams : List (List UInt8)) (nowMs : UInt64) :
    AudioReceiver :=
  datagrams.foldl (receive · nowMs) a

/-- The datagram that asks for a frame again. -/
def requestRetransmit (_ : AudioReceiver) (sequence : UInt32) : List UInt8 :=
  encodeNack sequence

/-- What is to be played now. -/
def pull (a : AudioReceiver) (nowMs : UInt64) : PullResult × AudioReceiver :=
  let r := a.jitter.pull nowMs
  (r.1, ⟨r.2⟩)

end AudioReceiver

/-! ### Sessions -/

/-- A sender and a receiver, and what happened: the payloads and the frames that were prepared, the
datagrams that either side has sent, and the results of the receiver, without those that are not
ready. -/
structure Session where
  sender : AudioSender
  receiver : AudioReceiver
  payloads : List (List UInt8) := []
  frames : List (List UInt8) := []
  sent : List (List UInt8) := []
  requested : List (List UInt8) := []
  results : List PullResult := []

namespace Session

/-- The beginning, with a jitter buffer of the receiver's own interval. -/
def start (senderIntervalMs receiverIntervalMs targetDelayMs : UInt32) : Session where
  sender := { frameIntervalMs := senderIntervalMs }
  receiver := ⟨.make receiverIntervalMs targetDelayMs⟩

/-- What may happen next. A frame may be transmitted at any time after it was prepared, unless the
system refuses it, and a poll finds what the network delivers. -/
inductive Action
  | prepareFrame (payload : List UInt8)
  | transmit (i : ℕ)
  | pollAndHandleNacks (datagrams : List (List UInt8 × SendAnswer))
  | pollIncoming (datagrams : List (List UInt8)) (nowMs : UInt64)
  | requestRetransmit (sequence : UInt32)
  | pull (nowMs : UInt64)

/-- A frame is prepared, and not sent yet. -/
def prepareFrame (s : Session) (payload : List UInt8) : Session :=
  let r := s.sender.prepareFrame payload
  { s with
    sender := r.2
    payloads := s.payloads ++ [payload]
    frames := s.frames ++ [r.1] }

/-- The result counts if the receiver is ready. -/
def pull (s : Session) (nowMs : UInt64) : Session :=
  let r := s.receiver.pull nowMs
  { s with
    receiver := r.2
    results := if r.1.kind = .notReady then s.results else s.results ++ [r.1] }

/-- What an action does. -/
def step (s : Session) : Action → Session
  | .prepareFrame payload => s.prepareFrame payload
  | .transmit i => { s with sent := s.sent ++ s.frames[i]?.toList }
  | .pollAndHandleNacks datagrams =>
      { s with sent := s.sent ++ (s.sender.pollAndHandleNacks datagrams).1 }
  | .pollIncoming datagrams nowMs =>
      { s with receiver := s.receiver.pollIncoming datagrams nowMs }
  | .requestRetransmit sequence =>
      { s with requested := s.requested ++ [s.receiver.requestRetransmit sequence] }
  | .pull nowMs => s.pull nowMs

/-- The session after some actions. -/
def run (s : Session) (actions : List Action) : Session :=
  actions.foldl step s

/-- The number of the frame that is played next, as if numbers did not wrap. -/
def position (s : Session) : ℕ :=
  s.receiver.jitter.baseSequence.toNat + s.results.length

/-- Payloads fit a frame, and there are fewer than there are numbers; the network delivers no audio
frame to the receiver that was not sent; the playout position has not wrapped. The sender may be
sent anything. -/
def Allowed (s : Session) : Action → Prop
  | .prepareFrame payload => payload.length ≤ 65535 ∧ s.payloads.length + 1 < 2 ^ 32
  | .pollIncoming datagrams _ =>
      ∀ data ∈ datagrams, data ∈ s.sent ∨ (decodePacket (tryRecv data)).kind ≠ .audio
  | .pull _ => s.position < 2 ^ 32
  | _ => True

instance (s : Session) : (action : Action) → Decidable (s.Allowed action)
  | .prepareFrame payload =>
      inferInstanceAs (Decidable (payload.length ≤ 65535 ∧ s.payloads.length + 1 < 2 ^ 32))
  | .pollIncoming datagrams _ =>
      inferInstanceAs (Decidable (∀ data ∈ datagrams,
        data ∈ s.sent ∨ (decodePacket (tryRecv data)).kind ≠ .audio))
  | .pull _ => inferInstanceAs (Decidable (s.position < 2 ^ 32))
  | .transmit _ | .pollAndHandleNacks _ | .requestRetransmit _ => inferInstanceAs (Decidable True)

/-! ### What is underway is genuine -/

/-- The frame of one of the payloads, under its number. -/
def Genuine (payloads : List (List UInt8)) (data : List UInt8) : Prop :=
  ∃ sequence timestampMs flags payload, data = encodeAudioPacket sequence timestampMs flags payload
    ∧ payload.length < 2 ^ 16 ∧ payloads[sequence.toNat]? = some payload

variable {payloads : List (List UInt8)}

theorem getElem?_concat {i : ℕ} {payload : List UInt8} (h : payloads[i]? = some payload)
    (last : List UInt8) :
  (payloads ++ [last])[i]? = some payload
  := by
  obtain ⟨hlt, -⟩ := List.getElem?_eq_some_iff.mp h
  rw [List.getElem?_append_left hlt, h]

theorem Genuine.concat {data : List UInt8} (h : Genuine payloads data) (last : List UInt8) :
  Genuine (payloads ++ [last]) data
  := by
  obtain ⟨sequence, timestampMs, flags, payload, hdata, hlen, hpayload⟩ := h
  exact ⟨sequence, timestampMs, flags, payload, hdata, hlen, getElem?_concat hpayload last⟩

/-- A genuine frame is decoded to a payload and its number, or it was cut off. -/
theorem Genuine.decodePacket {data : List UInt8} (h : Genuine payloads data)
    (haudio : (decodePacket (tryRecv data)).kind = .audio) :
  payloads[(Media.decodePacket (tryRecv data)).sequence.toNat]?
    = some (Media.decodePacket (tryRecv data)).payload
  := by
  obtain ⟨sequence, timestampMs, flags, payload, rfl, hlen, hpayload⟩ := h
  rw [tryRecv] at haudio ⊢
  rw [decodePacket_take hlen (by decide) haudio]
  exact hpayload

/-- The jitter buffer holds payloads under their numbers. -/
def Buffered (j : JitterBuffer) (payloads : List (List UInt8)) : Prop :=
  ∀ sequence payload, j.buffer.lookup sequence = some payload →
    payloads[sequence.toNat]? = some payload

theorem Buffered.push {j : JitterBuffer} (h : Buffered j payloads) {sequence : UInt32}
    {payload : List UInt8} (hpayload : payloads[sequence.toNat]? = some payload)
    (arrivalTimeMs : UInt64) :
  Buffered (j.push sequence payload arrivalTimeMs) payloads
  := by
  have hbegin : (j.begin sequence arrivalTimeMs).buffer = j.buffer := by
    rw [JitterBuffer.begin]
    split <;> rfl
  intro sequence' payload' hlookup
  rw [JitterBuffer.push] at hlookup
  split at hlookup
  · apply h
    rwa [← hbegin]
  · dsimp only at hlookup
    rw [hbegin] at hlookup
    rcases eq_or_ne sequence' sequence with rfl | hne
    · rw [Finmap.lookup_insert] at hlookup
      rw [hpayload, hlookup]
    · rw [Finmap.lookup_insert_of_ne _ hne] at hlookup
      exact h sequence' payload' hlookup

/-- A pull takes a frame from the buffer, and nothing else gets there. -/
theorem Buffered.pull {j : JitterBuffer} (h : Buffered j payloads) (nowMs : UInt64) :
  Buffered (j.pull nowMs).2 payloads
    ∧ ((j.pull nowMs).1.kind = .packet →
      payloads[(j.pull nowMs).1.sequence.toNat]? = some (j.pull nowMs).1.payload)
  := by
  rw [JitterBuffer.pull]
  split
  · split
    · rename_i payload hlookup
      refine ⟨fun sequence' payload' hlookup' => ?_, fun _ => h _ _ hlookup⟩
      rcases eq_or_ne sequence' j.nextSequence with rfl | hne
      · rw [Finmap.lookup_erase] at hlookup'
        cases hlookup'
      · rw [Finmap.lookup_erase_ne hne] at hlookup'
        exact h sequence' payload' hlookup'
    · split
      · exact ⟨h, by rintro ⟨⟩⟩
      · exact ⟨h, by rintro ⟨⟩⟩
  · exact ⟨h, by rintro ⟨⟩⟩

/-- What was prepared, is kept, is underway, has arrived and was played. -/
structure Sound (s : Session) : Prop where
  fewer : s.payloads.length < 2 ^ 32
  sequence : s.sender.sequence = UInt32.ofNat s.payloads.length
  frames : ∀ data ∈ s.frames, Genuine s.payloads data
  cached : ∀ sequence data, s.sender.cache.get sequence = some data → Genuine s.payloads data
  sent : ∀ data ∈ s.sent, Genuine s.payloads data
  buffered : Buffered s.receiver.jitter s.payloads
  packets : ∀ r ∈ s.results, r.kind = .packet → s.payloads[r.sequence.toNat]? = some r.payload
  played : s.receiver.jitter.Played s.results

namespace Sound

variable {s : Session}

theorem start (senderIntervalMs receiverIntervalMs targetDelayMs : UInt32) :
  (Session.start senderIntervalMs receiverIntervalMs targetDelayMs).Sound where
  fewer := Nat.two_pow_pos 32
  sequence := rfl
  frames := by simp [Session.start]
  cached sequence data h := by cases h
  sent := by simp [Session.start]
  buffered sequence payload h := by cases h
  packets := by simp [Session.start]
  played := .start receiverIntervalMs targetDelayMs

theorem prepareFrame (h : s.Sound) {payload : List UInt8}
    (hallowed : s.Allowed (.prepareFrame payload)) :
  (s.prepareFrame payload).Sound
  := by
  obtain ⟨hlen, hfewer⟩ := hallowed
  have hnew : Genuine (s.payloads ++ [payload]) (s.sender.prepareFrame payload).1 := by
    refine ⟨_, _, _, payload, rfl, by omega, ?_⟩
    rw [h.sequence, UInt32.toNat_ofNat_of_lt' h.fewer, List.getElem?_concat_length]
  constructor
  · change (s.payloads ++ [payload]).length < 2 ^ 32
    rw [List.length_append]
    exact hfewer
  · change s.sender.sequence + 1 = UInt32.ofNat (s.payloads ++ [payload]).length
    rw [h.sequence, List.length_append, UInt32.ofNat_add]
    rfl
  · intro data hdata
    rcases List.mem_append.mp hdata with hdata | hdata
    · exact (h.frames data hdata).concat payload
    · rw [List.mem_singleton.mp hdata]
      exact hnew
  · intro sequence data hdata
    rcases RetransmitCache.get_store hdata with rfl | hdata
    · exact hnew
    · exact (h.cached sequence data hdata).concat payload
  · exact fun data hdata => (h.sent data hdata).concat payload
  · exact fun sequence payload' hlookup => getElem?_concat (h.buffered _ _ hlookup) payload
  · exact fun r hr hkind => getElem?_concat (h.packets r hr hkind) payload
  · exact h.played

/-- Only genuine frames are sent. -/
theorem send (h : s.Sound) {datagrams : List (List UInt8)}
    (hdatagrams : ∀ data ∈ datagrams, Genuine s.payloads data) :
  { s with sent := s.sent ++ datagrams }.Sound
  := by
  refine { h with sent := fun data hdata => ?_ }
  rcases List.mem_append.mp hdata with hdata | hdata
  · exact h.sent data hdata
  · exact hdatagrams data hdata

theorem transmit (h : s.Sound) (i : ℕ) :
  (s.step (.transmit i)).Sound
  := by
  apply h.send
  intro data hdata
  exact h.frames data (List.mem_of_getElem? (Option.mem_toList.mp hdata))

theorem pollAndHandleNacks (h : s.Sound) (datagrams : List (List UInt8 × SendAnswer)) :
  (s.step (.pollAndHandleNacks datagrams)).Sound
  := by
  apply h.send
  intro data hdata
  obtain ⟨sequence, hcached⟩ := AudioSender.mem_pollAndHandleNacks hdata
  exact h.cached sequence data hcached

theorem receive (h : s.Sound) {data : List UInt8} (nowMs : UInt64)
    (hdata : data ∈ s.sent ∨ (decodePacket (tryRecv data)).kind ≠ .audio) :
  { s with receiver := s.receiver.receive nowMs data }.Sound
  := by
  rw [AudioReceiver.receive]
  split
  · rename_i haudio
    have hsent := hdata.resolve_right (not_not.mpr haudio)
    have hpayload := (h.sent data hsent).decodePacket haudio
    exact { h with
      buffered := h.buffered.push hpayload nowMs
      played := h.played.push _ _ nowMs }
  · exact h

theorem pollIncoming (h : s.Sound) {datagrams : List (List UInt8)} {nowMs : UInt64}
    (hallowed : s.Allowed (.pollIncoming datagrams nowMs)) :
  (s.step (.pollIncoming datagrams nowMs)).Sound
  := by
  induction datagrams generalizing s with
  | nil => exact h
  | cons data datagrams ih =>
    obtain ⟨hdata, hrest⟩ := List.forall_mem_cons.mp hallowed
    exact ih (h.receive nowMs hdata) hrest

theorem pull (h : s.Sound) {nowMs : UInt64} (hallowed : s.Allowed (.pull nowMs)) :
  (s.pull nowMs).Sound
  := by
  obtain ⟨hbuffered, hpacket⟩ := h.buffered.pull nowMs
  rcases h.played.pull nowMs hallowed with ⟨hkind, hsame⟩ | ⟨hkind, hplayed⟩
  · have hpull : s.pull nowMs = s := by
      rw [Session.pull, AudioReceiver.pull, hsame]
      simp [hkind]
    rw [hpull]
    exact h
  · have hresults : (s.pull nowMs).results = s.results ++ [(s.receiver.jitter.pull nowMs).1] := by
      exact if_neg hkind
    refine { h with buffered := hbuffered, packets := ?_, played := ?_ }
    · rw [hresults]
      intro r hr
      rcases List.mem_append.mp hr with hr | hr
      · exact h.packets r hr
      · rw [List.mem_singleton.mp hr]
        exact hpacket
    · rw [hresults]
      exact hplayed

theorem step (h : s.Sound) {action : Action} (hallowed : s.Allowed action) :
  (s.step action).Sound
  := by
  cases action with
  | prepareFrame payload => exact h.prepareFrame hallowed
  | transmit i => exact h.transmit i
  | pollAndHandleNacks datagrams => exact h.pollAndHandleNacks datagrams
  | pollIncoming datagrams nowMs => exact h.pollIncoming hallowed
  | requestRetransmit sequence => exact { h with }
  | pull nowMs => exact h.pull hallowed

theorem run (h : s.Sound) {actions : List Action} (halong : Along Session.step Allowed s actions) :
  (s.run actions).Sound
  := by
  apply halong.invariant _ h
  intro s action h hallowed
  exact h.step hallowed

end Sound

/-- Whatever the network does short of forging audio frames, as long as the playout position has
not wrapped, each packet that is played has the payload that was prepared under its number, the
numbers of the results follow each other, so that none is played twice, and what is played in place
of a frame is the last packet before. -/
theorem session_integrity (senderIntervalMs receiverIntervalMs targetDelayMs : UInt32)
    {actions : List Action}
    (halong : Along step Allowed (start senderIntervalMs receiverIntervalMs targetDelayMs)
      actions) :
  let s := (start senderIntervalMs receiverIntervalMs targetDelayMs).run actions
  (∀ r ∈ s.results, r.kind = .packet → s.payloads[r.sequence.toNat]? = some r.payload)
    ∧ (∃ first, s.results.map (·.sequence.toNat) = List.range' first s.results.length)
    ∧ (s.results.map PullResult.sequence).Nodup
    ∧ JitterBuffer.Conceals s.results
  := by
  intro s
  have hsound : s.Sound := Sound.run (.start ..) halong
  have hsequences := hsound.played.sequences
  refine ⟨hsound.packets, ⟨_, hsequences⟩, ?_, hsound.played.conceals⟩
  apply List.Nodup.of_map UInt32.toNat
  rw [List.map_map]
  change (s.results.map (·.sequence.toNat)).Nodup
  rw [hsequences]
  exact List.nodup_range'

/-- Three frames are prepared. The second is lost and asked for again, but is sent too late; the
first and the third arrive out of order, among duplicates and noise. -/
def lossy : List Action :=
  let frame (n : UInt32) (payload : List UInt8) := encodeAudioPacket n (n * 20) kFlagSilence payload
  [.prepareFrame [1, 0], .prepareFrame [2, 0], .prepareFrame [3, 0], .transmit 0, .transmit 2,
    .pollIncoming [frame 0 [1, 0], frame 2 [3, 0], [7, 7], frame 0 [1, 0]] 100,
    .pull 100, .pull 100, .requestRetransmit 1, .pull 160,
    .pollAndHandleNacks [(encodeNack 1, .sent)],
    .pollIncoming [frame 1 [2, 0], frame 0 [1, 0]] 170, .pull 180]

theorem session_integrity_lossy :
  Along step Allowed (start 20 20 40) lossy
    ∧ ((start 20 20 40).run lossy).results
      = [⟨.packet, 0, [1, 0]⟩, ⟨.concealed, 1, [1, 0]⟩, ⟨.packet, 2, [3, 0]⟩]
    ∧ (((start 20 20 40).run lossy).results.map PullResult.sequence).Nodup
  := by
  have halong : Along step Allowed (start 20 20 40) lossy := by decide +kernel
  exact ⟨halong, by decide +kernel, (session_integrity 20 20 40 halong).2.2.1⟩

end Session

end Media
