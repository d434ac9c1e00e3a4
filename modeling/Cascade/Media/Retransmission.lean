import Cascade.Library.Window
import Cascade.Media.AudioSession

/-!
# Frames that are sent again

What the cache of a sender has, after any calls of `store`: only frames of the last `capacity`
calls, but not always all of them. A number that is stored again is recorded twice, and when its
first record expires, the frame that was stored last goes with it
(`RetransmitCache.contract_iff`).

A sender does not store a number again before all others have been used. So it answers a request
for one of its last 256 frames with that frame, and no other request, also after the numbers have
wrapped, if the frame fits a datagram (`AudioSender.nack_recovery`).
-/

open Window

namespace Media

variable {sequence : UInt32}

namespace RetransmitCache

/-- The constructor. -/
def make (capacity : ℕ) : RetransmitCache := { capacity }

/-- The cache after some calls of `store`. -/
def storeAll (c : RetransmitCache) (calls : List (UInt32 × List UInt8)) : RetransmitCache :=
  calls.foldl (fun c call => c.store call.1 call.2) c

theorem storeAll_concat (c : RetransmitCache) (calls : List (UInt32 × List UInt8))
    (call : UInt32 × List UInt8) :
  c.storeAll (calls ++ [call]) = (c.storeAll calls).store call.1 call.2
  := by
  rw [storeAll, List.foldl_append]
  rfl

/-! ### Evictions -/

theorem evict_of_length_le {capacity : ℕ} {order : List UInt32} (h : order.length ≤ capacity)
    (cache : Finmap fun _ : UInt32 => List UInt8) :
  evict capacity order cache = ⟨capacity, cache, order⟩
  := by
  cases order with
  | nil => rfl
  | cons front order => rw [evict, if_neg (not_lt.mpr h)]

theorem evict_cons {capacity : ℕ} {order : List UInt32} (h : order.length = capacity)
    (front : UInt32) (cache : Finmap fun _ : UInt32 => List UInt8) :
  evict capacity (front :: order) cache = ⟨capacity, cache.erase front, order⟩
  := by
  have hfull : capacity < (front :: order).length := by
    rw [List.length_cons, h]
    apply Nat.lt_succ_self
  rw [evict, if_pos hfull, evict_of_length_le h.le]

variable {c : RetransmitCache}

/-- While there is room, a frame is added. -/
theorem store_of_lt (h : c.order.length < c.capacity) (sequence : UInt32) (bytes : List UInt8) :
  c.store sequence bytes
    = ⟨c.capacity, c.cache.insert sequence bytes, c.order ++ [sequence]⟩
  := by
  rw [store, evict_of_length_le]
  rw [List.length_append, List.length_singleton]
  exact h

/-- Else the oldest number is removed with its frame, be it the one that was added. -/
theorem store_of_eq (h : c.order.length = c.capacity) {sequence front : UInt32} {rest : List UInt32}
    (heq : c.order ++ [sequence] = front :: rest) (bytes : List UInt8) :
  c.store sequence bytes
    = ⟨c.capacity, (c.cache.insert sequence bytes).erase front, rest⟩
  := by
  have hrest : rest.length = c.capacity := by
    have hlen := congrArg List.length heq
    rw [List.length_append, List.length_singleton, List.length_cons] at hlen
    omega
  rw [store, heq, evict_cons hrest]

/-! ### Calls -/

variable {capacity : ℕ} {calls : List (UInt32 × List UInt8)}

/-- The queue has the numbers of the last calls. -/
structure Holds (c : RetransmitCache) (capacity : ℕ) (calls : List (UInt32 × List UInt8)) :
    Prop where
  capacity_eq : c.capacity = capacity
  order_eq : c.order = recent capacity (calls.map Prod.fst)

theorem Holds.length_order (h : c.Holds capacity calls) :
  c.order.length = min capacity calls.length
  := by
  rw [h.order_eq, length_recent, List.length_map]

/-- One more call while there is room. -/
theorem Holds.store_of_lt (h : c.Holds capacity calls) (hroom : calls.length < capacity)
    (call : UInt32 × List UInt8) :
  c.store call.1 call.2
    = ⟨capacity, c.cache.insert call.1 call.2,
        recent capacity ((calls ++ [call]).map Prod.fst)⟩
  := by
  have hlt : c.order.length < c.capacity := by
    rw [h.length_order, h.capacity_eq]
    omega
  rw [RetransmitCache.store_of_lt hlt, h.capacity_eq, h.order_eq, recent_map, recent_map,
    (concat_of_lt hroom call).1, List.map_append, List.map_singleton]

/-- One more call when there is none. -/
theorem Holds.store_of_le (h : c.Holds capacity calls) {call front : UInt32 × List UInt8}
    (hrecent : recent capacity calls ++ [call] = front :: recent capacity (calls ++ [call]))
    (hfull : capacity ≤ calls.length) :
  c.store call.1 call.2
    = ⟨capacity, (c.cache.insert call.1 call.2).erase front.1,
        recent capacity ((calls ++ [call]).map Prod.fst)⟩
  := by
  have hlen : c.order.length = c.capacity := by
    rw [h.length_order, h.capacity_eq]
    omega
  have horder : c.order ++ [call.1]
      = front.1 :: recent capacity ((calls ++ [call]).map Prod.fst) := by
    rw [h.order_eq, recent_map, recent_map, ← List.map_singleton, ← List.map_append, hrecent,
      List.map_cons]
  rw [RetransmitCache.store_of_eq hlen horder, h.capacity_eq]

theorem holds_storeAll (capacity : ℕ) (calls : List (UInt32 × List UInt8)) :
  ((make capacity).storeAll calls).Holds capacity calls
  := by
  induction calls using List.reverseRecOn with
  | nil => exact ⟨rfl, List.drop_nil.symm⟩
  | append_singleton calls call ih =>
      rw [storeAll_concat]
      rcases Nat.lt_or_ge calls.length capacity with hroom | hfull
      · rw [ih.store_of_lt hroom]
        exact ⟨rfl, rfl⟩
      · obtain ⟨front, hrecent, -⟩ := concat_of_le hfull call
        rw [ih.store_of_le hrecent hfull]
        exact ⟨rfl, rfl⟩

/-- While there is room, a call adds its frame. -/
theorem get_concat_of_lt (h : calls.length < capacity) (call : UInt32 × List UInt8)
    (sequence : UInt32) :
  ((make capacity).storeAll (calls ++ [call])).get sequence
    = if sequence = call.1 then some call.2
      else ((make capacity).storeAll calls).get sequence
  := by
  rw [storeAll_concat, (holds_storeAll capacity calls).store_of_lt h, get]
  split
  · rename_i heq
    rw [heq, Finmap.lookup_insert]
  · rename_i hne
    rw [Finmap.lookup_insert_of_ne _ hne]
    rfl

/-- Else it removes the frame with the number that expires, be it the one that it has added. -/
theorem get_concat_of_le (h : capacity ≤ calls.length) (call : UInt32 × List UInt8)
    (sequence : UInt32) :
  ∃ front, recent capacity calls ++ [call] = front :: recent capacity (calls ++ [call])
    ∧ expired capacity (calls ++ [call]) = expired capacity calls ++ [front]
    ∧ ((make capacity).storeAll (calls ++ [call])).get sequence
      = if sequence = front.1 then none
        else if sequence = call.1 then some call.2
        else ((make capacity).storeAll calls).get sequence
  := by
  obtain ⟨front, hrecent, hexpired⟩ := concat_of_le h call
  refine ⟨front, hrecent, hexpired, ?_⟩
  rw [storeAll_concat, (holds_storeAll capacity calls).store_of_le hrecent h, get]
  split
  · rename_i heq
    rw [heq, Finmap.lookup_erase]
  · rename_i hne
    rw [Finmap.lookup_erase_ne hne]
    split
    · rename_i heq
      rw [heq, Finmap.lookup_insert]
    · rename_i hne'
      rw [Finmap.lookup_insert_of_ne _ hne']
      rfl

/-- A number that none of the last calls stored is not found. -/
theorem get_eq_none (h : sequence ∉ (recent capacity calls).map Prod.fst) :
  ((make capacity).storeAll calls).get sequence = none
  := by
  induction calls using List.reverseRecOn with
  | nil => rfl
  | append_singleton calls call ih =>
      rcases Nat.lt_or_ge calls.length capacity with hroom | hfull
      · obtain ⟨hrecent, -⟩ := concat_of_lt hroom call
        rw [hrecent, List.map_append, List.mem_append, List.map_singleton, List.mem_singleton,
          not_or] at h
        rw [get_concat_of_lt hroom, if_neg h.2, ih h.1]
      · obtain ⟨front, hrecent, -, hget⟩ := get_concat_of_le hfull call sequence
        rw [hget]
        split
        · rfl
        · rename_i hfront
          have hnew : sequence ∉ (recent capacity calls ++ [call]).map Prod.fst := by
            rw [hrecent, List.map_cons, List.mem_cons, not_or]
            exact ⟨hfront, h⟩
          rw [List.map_append, List.mem_append, List.map_singleton, List.mem_singleton,
            not_or] at hnew
          rw [if_neg hnew.2, ih hnew.1]

/-- The frame that was stored last under a number is found as long as no earlier record of the
number expires after it was stored. -/
theorem get_eq_some_iff (before : List (UInt32 × List UInt8)) (bytes : List UInt8)
    {after : List (UInt32 × List UInt8)} (hlast : sequence ∉ after.map Prod.fst)
    (hafter : after.length < capacity) :
  let calls := before ++ (sequence, bytes) :: after
  ((make capacity).storeAll calls).get sequence = some bytes
    ↔ sequence ∉ ((expired capacity calls).drop (before.length - capacity)).map Prod.fst
  := by
  intro calls
  induction after using List.reverseRecOn with
  | nil =>
      rcases Nat.lt_or_ge before.length capacity with hroom | hfull
      · have hnone : expired capacity calls = [] := by
          apply List.length_eq_zero_iff.mp
          rw [length_expired, List.length_append, List.length_singleton]
          omega
        rw [hnone, get_concat_of_lt hroom, if_pos rfl]
        simp
      · obtain ⟨front, -, hexpired, hget⟩ := get_concat_of_le hfull (sequence, bytes) sequence
        rw [hget, hexpired, List.drop_left' (length_expired ..), List.map_singleton,
          List.mem_singleton, if_pos rfl]
        by_cases hfront : sequence = front.1
        · simp [hfront]
        · simp [hfront]
  | append_singleton after call ih =>
      rw [List.map_append, List.mem_append, List.map_singleton, List.mem_singleton,
        not_or] at hlast
      rw [List.length_append, List.length_singleton] at hafter
      have ih := ih hlast.1 (by omega)
      dsimp only at ih
      have hcalls : calls = before ++ (sequence, bytes) :: after ++ [call] := by
        simp [calls]
      generalize hprev : before ++ (sequence, bytes) :: after = prev at ih hcalls
      have hlen : before.length ≤ prev.length := by
        rw [← hprev, List.length_append]
        omega
      rw [hcalls]
      rcases Nat.lt_or_ge prev.length capacity with hroom | hfull
      · obtain ⟨-, hexpired⟩ := concat_of_lt hroom call
        rw [hexpired, get_concat_of_lt hroom, if_neg hlast.2, ih]
      · obtain ⟨front, -, hexpired, hget⟩ := get_concat_of_le hfull call sequence
        have hdrop : before.length - capacity ≤ (expired capacity prev).length := by
          rw [length_expired]
          omega
        rw [hget, hexpired, List.drop_append_of_le_length hdrop, List.map_append,
          List.mem_append, not_or, List.map_singleton, List.mem_singleton, if_neg hlast.2, ← ih]
        by_cases hfront : sequence = front.1
        · simp [hfront]
        · simp [hfront]

/-- A number that none of the last `capacity` calls stored is not found. One that they did is
found, with the bytes of its latest store, if and only if no call that is not among them has stored
it within `capacity` calls before that one. -/
theorem contract_iff (capacity : ℕ) (calls : List (UInt32 × List UInt8)) (sequence : UInt32) :
  (sequence ∉ (recent capacity calls).map Prod.fst →
      ((make capacity).storeAll calls).get sequence = none)
    ∧ ∀ before bytes after, calls = before ++ (sequence, bytes) :: after →
      sequence ∉ after.map Prod.fst → after.length < capacity →
      (((make capacity).storeAll calls).get sequence = some bytes
        ↔ sequence ∉ ((expired capacity calls).drop (before.length - capacity)).map Prod.fst)
  := by
  constructor
  · exact get_eq_none
  · rintro before bytes after rfl hlast hafter
    exact get_eq_some_iff before bytes hlast hafter

/-- The second of the last two calls makes the frame of the first disappear. -/
theorem stored_twice_lost :
  let calls : List (UInt32 × List UInt8) := [(1, [10]), (1, [11]), (2, [12])]
  (1, [11]) ∈ recent 2 calls ∧ ((make 2).storeAll calls).get 1 = none
  := by
  decide +kernel

end RetransmitCache

/-! ### Requests -/

/-- Numbers differ unless they are a whole cycle apart. -/
theorem ofNat_ne {i j : ℕ} (hlt : i < j) (hcycle : j < i + 2 ^ 32) :
  UInt32.ofNat i ≠ UInt32.ofNat j
  := by
  intro heq
  have hmod := congrArg UInt32.toNat heq
  rw [UInt32.toNat_ofNat', UInt32.toNat_ofNat'] at hmod
  omega

namespace AudioSender

/-- The sender after some frames. -/
def prepareAll (a : AudioSender) (payloads : List (List UInt8)) : AudioSender :=
  payloads.foldl (fun a payload => (a.prepareFrame payload).2) a

/-- The frame that is prepared as the one with index `i`. -/
def frameOf (frameIntervalMs : UInt32) (i : ℕ) (payload : List UInt8) : List UInt8 :=
  encodeAudioPacket (UInt32.ofNat i) (UInt32.ofNat i * frameIntervalMs) (flagsOf payload) payload

/-- What is stored for frames from index `i` on. -/
def stored (frameIntervalMs : UInt32) : ℕ → List (List UInt8) → List (UInt32 × List UInt8)
  | _, [] => []
  | i, payload :: payloads =>
      (UInt32.ofNat i, frameOf frameIntervalMs i payload)
        :: stored frameIntervalMs (i + 1) payloads

variable {frameIntervalMs : UInt32}

theorem stored_append (i : ℕ) (before after : List (List UInt8)) :
  stored frameIntervalMs i (before ++ after)
    = stored frameIntervalMs i before ++ stored frameIntervalMs (i + before.length) after
  := by
  induction before generalizing i with
  | nil => rfl
  | cons payload before ih =>
      rw [List.cons_append, stored, stored, ih, List.cons_append, List.length_cons, Nat.add_assoc,
        Nat.add_comm 1]

theorem numbers_stored (i : ℕ) (payloads : List (List UInt8)) :
  (stored frameIntervalMs i payloads).map Prod.fst
    = (List.range' i payloads.length).map UInt32.ofNat
  := by
  induction payloads generalizing i with
  | nil => rfl
  | cons payload payloads ih =>
      rw [stored, List.map_cons, ih, List.length_cons, List.range'_succ, List.map_cons]

@[simp]
theorem length_stored (i : ℕ) (payloads : List (List UInt8)) :
  (stored frameIntervalMs i payloads).length = payloads.length
  := by
  induction payloads generalizing i with
  | nil => rfl
  | cons payload payloads ih => rw [stored, List.length_cons, ih, List.length_cons]

theorem prepareAll_eq (i : ℕ) (cache : RetransmitCache) (payloads : List (List UInt8)) :
  prepareAll ⟨frameIntervalMs, UInt32.ofNat i, cache⟩ payloads
    = ⟨frameIntervalMs, UInt32.ofNat (i + payloads.length),
        cache.storeAll (stored frameIntervalMs i payloads)⟩
  := by
  induction payloads generalizing i cache with
  | nil => rfl
  | cons payload payloads ih =>
      have hnext : UInt32.ofNat i + 1 = UInt32.ofNat (i + 1) := (UInt32.ofNat_add i 1).symm
      rw [prepareAll, List.foldl_cons, ← prepareAll, prepareFrame]
      dsimp only
      rw [hnext, ih, List.length_cons, Nat.add_assoc, Nat.add_comm 1]
      rfl

/-- A sender that has prepared frames. -/
theorem prepareAll_fresh (payloads : List (List UInt8)) :
  prepareAll { frameIntervalMs } payloads
    = ⟨frameIntervalMs, UInt32.ofNat payloads.length,
        (RetransmitCache.make 256).storeAll (stored frameIntervalMs 0 payloads)⟩
  := by
  have heq : prepareAll { frameIntervalMs } payloads = _ := prepareAll_eq 0 (.make 256) payloads
  rwa [Nat.zero_add] at heq

/-- The answer to a request is what is cached. -/
theorem handleNack_encodeNack (a : AudioSender) (sequence : UInt32) :
  a.handleNack (encodeNack sequence) = a.cache.get sequence
  := by
  have hrecv : tryRecv (encodeNack sequence) = encodeNack sequence := by
    apply List.take_of_length_le
    simp [encodeNack]
  rw [handleNack, hrecv, decodePacket_encodeNack]
  exact if_pos rfl

/-- A poll that throws nothing goes on with what follows. -/
theorem pollAndHandleNacks_append {a : AudioSender} {earlier : List (List UInt8 × SendAnswer)}
    (h : (a.pollAndHandleNacks earlier).2 = .ok ()) (later : List (List UInt8 × SendAnswer)) :
  a.pollAndHandleNacks (earlier ++ later)
    = ((a.pollAndHandleNacks earlier).1 ++ (a.pollAndHandleNacks later).1,
      (a.pollAndHandleNacks later).2)
  := by
  induction earlier with
  | nil => rfl
  | cons datagram earlier ih =>
      obtain ⟨data, answer⟩ := datagram
      rw [pollAndHandleNacks] at h
      rw [List.cons_append, pollAndHandleNacks, pollAndHandleNacks]
      cases hnack : a.handleNack data with
      | none =>
          rw [hnack] at h
          exact ih h
      | some cached =>
          rw [hnack] at h
          cases hsend : sendTo answer cached with
          | error what =>
              simp only [hsend] at h
              cases h
          | ok sent =>
              simp only [hsend] at h
              simp only [hsend, ih h, List.append_assoc]

theorem sendTo_of_length_le {data : List UInt8} (h : data.length ≤ maxDatagram)
    (answer : SendAnswer) (hanswer : ∀ error, answer ≠ .failed error) :
  ∃ sent, sendTo answer data = .ok sent ∧ (answer = .sent → sent = some data)
  := by
  rw [sendTo, if_neg (not_lt.mpr h)]
  cases answer with
  | sent => exact ⟨some data, rfl, fun _ => rfl⟩
  | wouldBlock => exact ⟨none, rfl, by rintro ⟨⟩⟩
  | failed error => exact absurd rfl (hanswer error)

variable {payloads : List (List UInt8)}

/-- The numbers of the frames that have expired, from some index on. -/
theorem mem_expired_stored {c k : ℕ}
    (h : sequence ∈ ((expired c (stored frameIntervalMs 0 payloads)).drop k).map Prod.fst) :
  ∃ i, k ≤ i ∧ i < payloads.length - c ∧ UInt32.ofNat i = sequence
  := by
  rw [List.map_drop, ← expired_map, numbers_stored, expired_map, ← List.map_drop] at h
  obtain ⟨i, hi, hsequence⟩ := List.mem_map.mp h
  rw [expired, List.length_range', ← List.range_eq_range', List.take_range, List.range_eq_range',
    List.drop_range', List.mem_range'_1] at hi
  refine ⟨i, ?_, ?_, hsequence⟩
  · omega
  · omega

/-- The frames that are found are the last ones. -/
theorem get_stored {before after : List (List UInt8)} (payload : List UInt8) {c : ℕ}
    (hafter : after.length < c) (hc : c < 2 ^ 32) :
  ((RetransmitCache.make c).storeAll
      (stored frameIntervalMs 0 (before ++ payload :: after))).get (UInt32.ofNat before.length)
    = some (frameOf frameIntervalMs before.length payload)
  := by
  have hsplit : stored frameIntervalMs 0 (before ++ payload :: after)
      = stored frameIntervalMs 0 before
        ++ (UInt32.ofNat before.length, frameOf frameIntervalMs before.length payload)
          :: stored frameIntervalMs (before.length + 1) after := by
    rw [stored_append, Nat.zero_add, stored]
  have hlast : UInt32.ofNat before.length
      ∉ (stored frameIntervalMs (before.length + 1) after).map Prod.fst := by
    rw [numbers_stored]
    intro hmem
    obtain ⟨j, hj, heq⟩ := List.mem_map.mp hmem
    rw [List.mem_range'_1] at hj
    exact ofNat_ne (i := before.length) (j := j) (by omega) (by omega) heq.symm
  have hiff := RetransmitCache.get_eq_some_iff (stored frameIntervalMs 0 before)
    (frameOf frameIntervalMs before.length payload) hlast (by rwa [length_stored])
  dsimp only at hiff
  rw [← hsplit, length_stored] at hiff
  apply hiff.mpr
  intro hmem
  obtain ⟨i, hle, hlt, heq⟩ := mem_expired_stored hmem
  rw [List.length_append, List.length_cons] at hlt
  exact ofNat_ne (by omega) (by omega) heq

/-- The numbers of the last frames. -/
theorem mem_recent_stored {c : ℕ}
    (h : sequence ∈ (recent c (stored frameIntervalMs 0 payloads)).map Prod.fst) :
  ∃ before payload after, payloads = before ++ payload :: after ∧ after.length < c
    ∧ UInt32.ofNat before.length = sequence
  := by
  rw [← recent_map, numbers_stored, recent_map] at h
  obtain ⟨i, hi, hsequence⟩ := List.mem_map.mp h
  rw [recent, List.length_range', List.drop_range', List.mem_range'_1] at hi
  have hlt : i < payloads.length := by omega
  refine ⟨payloads.take i, payloads[i], payloads.drop (i + 1), ?_, ?_, ?_⟩
  · rw [← List.drop_eq_getElem_cons hlt, List.take_append_drop]
  · rw [List.length_drop]
    omega
  · rw [List.length_take, Nat.min_eq_left hlt.le, hsequence]

theorem length_frameOf (i : ℕ) (payload : List UInt8) :
  (frameOf frameIntervalMs i payload).length = kHeaderSize + payload.length
  := by
  rw [frameOf, encodeAudioPacket, List.length_append, length_audioHeader]

/-- What a sender has that has prepared frames. -/
theorem get_prepareAll (before : List (List UInt8)) {after : List (List UInt8)}
    (payload : List UInt8) (hafter : after.length < 256) :
  (prepareAll { frameIntervalMs } (before ++ payload :: after)).cache.get
      (prepareAll { frameIntervalMs } before).sequence
    = some (frameOf frameIntervalMs before.length payload)
  := by
  rw [prepareAll_fresh, prepareAll_fresh]
  apply get_stored payload hafter (by decide)

theorem exists_of_get_prepareAll
    (h : (prepareAll { frameIntervalMs } payloads).cache.get sequence ≠ none) :
  ∃ before payload after, payloads = before ++ payload :: after ∧ after.length < 256
    ∧ (prepareAll { frameIntervalMs } before).sequence = sequence
  := by
  rw [prepareAll_fresh] at h
  by_contra hnone
  apply h
  apply RetransmitCache.get_eq_none
  intro hmem
  obtain ⟨before, payload, after, heq, hafter, hsequence⟩ := mem_recent_stored hmem
  refine hnone ⟨before, payload, after, heq, hafter, ?_⟩
  rw [prepareAll_fresh, hsequence]

/-- If all frames fit a datagram, a poll throws only what the system answers. -/
theorem pollAndHandleNacks_returns (hlen : ∀ payload ∈ payloads, payload.length ≤ 65495)
    {datagrams : List (List UInt8 × SendAnswer)}
    (hanswers : ∀ x ∈ datagrams, ∀ error, x.2 ≠ .failed error) :
  ((prepareAll { frameIntervalMs } payloads).pollAndHandleNacks datagrams).2 = .ok ()
  := by
  induction datagrams with
  | nil => rfl
  | cons datagram datagrams ih =>
      obtain ⟨hfirst, hrest⟩ := List.forall_mem_cons.mp hanswers
      obtain ⟨data, answer⟩ := datagram
      rw [pollAndHandleNacks]
      cases hnack : (prepareAll { frameIntervalMs } payloads).handleNack data with
      | none => exact ih hrest
      | some cached =>
          have hget : (prepareAll { frameIntervalMs } payloads).cache.get
              (decodePacket (tryRecv data)).sequence = some cached := by
            rw [handleNack] at hnack
            split at hnack
            · exact hnack
            · cases hnack
          obtain ⟨before, payload, after, heq, hafter, hsequence⟩ :=
            exists_of_get_prepareAll (by rw [hget]; exact Option.some_ne_none _)
          have hcached : cached = frameOf frameIntervalMs before.length payload := by
            rw [← hsequence, heq, get_prepareAll before payload hafter] at hget
            exact (Option.some.inj hget).symm
          have hpayload := hlen payload (by rw [heq]; simp)
          have hfits : cached.length ≤ maxDatagram := by
            rw [hcached, length_frameOf, kHeaderSize, maxDatagram]
            omega
          obtain ⟨sent, hsend, -⟩ := sendTo_of_length_le hfits answer hfirst
          simp only [hsend]
          exact ih hrest

/-- After any number of frames, a request for one of the last 256 whose payload has at most 65495
bytes is answered with the bytes that were prepared for it, which decode to its number and its
payload, wherever the request stands among what is polled, if the system sends them and nothing was
thrown before. A request with another number is not answered. If no payload is longer, nothing is
thrown but errors that the system answers. -/
theorem nack_recovery (frameIntervalMs : UInt32) (payloads : List (List UInt8)) :
  let fresh : AudioSender := { frameIntervalMs }
  let a := fresh.prepareAll payloads
  (∀ before payload after, payloads = before ++ payload :: after → after.length < 256 →
      payload.length ≤ 65495 →
      let b := fresh.prepareAll before
      let bytes := (b.prepareFrame payload).1
      (∀ earlier later, (a.pollAndHandleNacks earlier).2 = .ok () →
        a.pollAndHandleNacks (earlier ++ (encodeNack b.sequence, .sent) :: later)
          = ((a.pollAndHandleNacks earlier).1 ++ bytes :: (a.pollAndHandleNacks later).1,
            (a.pollAndHandleNacks later).2))
        ∧ ∃ timestampMs flags,
          decodePacket bytes = ⟨.audio, b.sequence, timestampMs, flags, payload⟩)
    ∧ (∀ sequence, (∀ before payload after, payloads = before ++ payload :: after →
        after.length < 256 → (fresh.prepareAll before).sequence ≠ sequence) →
      ∀ answer earlier later, (a.pollAndHandleNacks earlier).2 = .ok () →
        a.pollAndHandleNacks (earlier ++ (encodeNack sequence, answer) :: later)
          = ((a.pollAndHandleNacks earlier).1 ++ (a.pollAndHandleNacks later).1,
            (a.pollAndHandleNacks later).2))
    ∧ ((∀ payload ∈ payloads, payload.length ≤ 65495) →
      ∀ datagrams : List (List UInt8 × SendAnswer),
        (∀ x ∈ datagrams, ∀ error, x.2 ≠ .failed error) →
        (a.pollAndHandleNacks datagrams).2 = .ok ())
  := by
  intro fresh a
  refine ⟨?_, ?_, fun hlen datagrams hanswers => pollAndHandleNacks_returns hlen hanswers⟩
  · intro before payload after heq hafter hpayload b bytes
    have hb : b = _ := prepareAll_fresh before
    have hbytes : bytes = frameOf frameIntervalMs before.length payload := by
      simp only [bytes]
      rw [hb]
      rfl
    constructor
    · intro earlier later hearlier
      have hget : a.cache.get b.sequence = some bytes := by
        rw [hbytes, ← get_prepareAll before payload hafter, ← heq]
      have hfits : bytes.length ≤ maxDatagram := by
        rw [hbytes, length_frameOf, kHeaderSize, maxDatagram]
        omega
      obtain ⟨sent, hsend, hsent⟩ := sendTo_of_length_le hfits .sent (by rintro _ ⟨⟩)
      rw [pollAndHandleNacks_append hearlier, pollAndHandleNacks, handleNack_encodeNack, hget]
      simp only [hsend, hsent rfl]
      rfl
    · refine ⟨b.sequence * frameIntervalMs, flagsOf payload, ?_⟩
      rw [hbytes, hb]
      apply decodePacket_encodeAudioPacket
      omega
  · intro sequence hother answer earlier later hearlier
    have hget : a.cache.get sequence = none := by
      by_contra hsome
      obtain ⟨before, payload, after, heq, hafter, hsequence⟩ := exists_of_get_prepareAll hsome
      exact hother before payload after heq hafter hsequence
    rw [pollAndHandleNacks_append hearlier, pollAndHandleNacks, handleNack_encodeNack, hget]

/-- The first of two frames is asked for, after something that is not a request. -/
theorem nack_recovery_first :
  let a := (AudioSender.mk 20 0 {}).prepareAll [[1, 0], [2]]
  a.pollAndHandleNacks [([7, 7], .sent), (encodeNack 0, .sent)]
    = ([encodeAudioPacket 0 0 kFlagSilence [1, 0]], .ok ())
  := by
  intro a
  obtain ⟨hanswer, -⟩ := nack_recovery 20 [[1, 0], [2]]
  obtain ⟨hpoll, -⟩ := hanswer [] [1, 0] [[2]] rfl (by decide) (by decide)
  calc a.pollAndHandleNacks [([7, 7], .sent), (encodeNack 0, .sent)]
    _ = _ := hpoll [([7, 7], .sent)] [] rfl
    _ = ([encodeAudioPacket 0 0 kFlagSilence [1, 0]], .ok ()) := by decide +kernel

/-- A frame with one byte more than that is too long to be sent: the request is not answered, and
the poll ends with an exception, although the system would send whatever fits. -/
theorem nack_too_long :
  let payload := List.replicate 65496 0
  let a := (AudioSender.mk 20 0 {}).prepareAll [payload]
  payload.length ≤ 65535
    ∧ ∀ later, a.pollAndHandleNacks ((encodeNack 0, .sent) :: later)
      = ([], .error "sendto() failed: Message too long")
  := by
  intro payload a
  have hlen : payload.length = 65496 := List.length_replicate
  refine ⟨by omega, fun later => ?_⟩
  have hget : a.cache.get 0 = some (frameOf 20 0 payload) :=
    get_prepareAll [] payload (by decide : ([] : List (List UInt8)).length < 256)
  have hlong : maxDatagram < (frameOf 20 0 payload).length := by
    rw [length_frameOf, hlen, maxDatagram, kHeaderSize]
    omega
  rw [pollAndHandleNacks, handleNack_encodeNack, hget]
  simp only [sendTo, if_pos hlong]
  rfl

end AudioSender

end Media
