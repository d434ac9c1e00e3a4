import Cascade.Storage.Retention

/-!
# Failing `msync` calls

The model of `storage/log.hpp` and `storage/segment.hpp` in which a call of `msync` may fail, and
then puts nothing on the device. The code does not look at what `msync` returns. So the operations
return, and write to the files, what they would if nothing failed (`Unreliable.Mirrors`): all that a
failure changes is what is on the device.

What is still true is that a record that was appended is on the device when the calls of `msync`
succeed whose range it is in (`Unreliable.appendRolling_held`, `Unreliable.onDevice_flush`).
-/

open Bytes Crash Crash.Program

namespace Storage

/-! ### Segments -/

/-- `msync` of what a segment has written, which has no effect if it fails. -/
def Handle.synced (ok : Bool) (h : Handle) : Handle :=
  if ok then { h with file := h.file.msync h.seg.writePos } else h

/-- Cut the file of a segment to its used size and make the segment read-only. -/
def Handle.cut (h : Handle) : Handle :=
  ⟨h.file.truncate h.seg.writePos,
    { h.seg with
      mappedLen := if 0 < h.seg.writePos then h.seg.writePos else 1, isSealed := true }⟩

namespace Handle

variable (h : Handle) (ok : Bool)

@[simp]
theorem synced_seg :
  (h.synced ok).seg = h.seg
  := by
  rw [synced]
  split
  · rfl
  · rfl

@[simp]
theorem synced_bytes :
  (h.synced ok).file.bytes = h.file.bytes
  := by
  rw [synced]
  split
  · rfl
  · rfl

theorem flushed_eq :
  h.flushed = if 0 < h.seg.writePos then h.synced true else h
  := rfl

theorem sealed_eq :
  h.sealed = if h.seg.isSealed = true then h else (h.synced true).cut
  := rfl

end Handle

theorem Handle.Begins.of_bytes {h t : Handle} {ps : List Payload} (hb : h.Begins ps)
    (hseg : t.seg = h.seg) (hfile : t.file.bytes = h.file.bytes) :
  t.Begins ps
  := by
  constructor
  · rw [hseg]
    exact hb.tally
  · rw [hseg, hfile]
    exact hb.file

/-! ### Logs -/

/-- A call of `msync` for a segment, as the segment was then, and whether it succeeded. -/
structure Msync where
  seg : Segment
  ok : Bool

/-- The record with offset `o` is in the range of the call. -/
def Msync.Covers (c : Msync) (o : ℕ) : Prop := c.seg.baseOffset ≤ o ∧ o < c.seg.nextOffset

instance (c : Msync) (o : ℕ) : Decidable (c.Covers o) := inferInstanceAs (Decidable (_ ∧ _))

/-- A log on a device that may fail to write. -/
structure Unreliable where
  log : Log
  /-- Whether a call of `msync` succeeds, by the number of calls before it. -/
  succeeds : ℕ → Bool
  /-- The calls of `msync` so far. -/
  calls : List Msync

namespace Unreliable

/-- Replace the log, without a call of `msync`. -/
def setLog (u : Unreliable) (l : Log) : Unreliable := { u with log := l }

/-- Call `msync` for the last segment, and do something to it afterwards. -/
def msync (u : Unreliable) (next : Handle → Handle) : Unreliable :=
  let ok := u.succeeds u.calls.length
  { u with
    log := u.log.putBack (next (u.log.handle.synced ok))
    calls := u.calls ++ [⟨u.log.back, ok⟩] }

/-- `Segment::flush`, of the last segment. -/
def flushBack (u : Unreliable) : Unreliable :=
  if 0 < u.log.back.writePos then u.msync id else u

/-- `Log::flush`. -/
def flush (u : Unreliable) : Unreliable :=
  u.flushBack.setLog { u.flushBack.log with flushCalls := u.flushBack.log.flushCalls + 1 }

/-- `Segment::seal`, of the last segment. -/
def sealBack (u : Unreliable) : Unreliable :=
  if u.log.back.isSealed = true then u else u.msync Handle.cut

/-- Seal the last segment and add a new one. -/
def rollOver (u : Unreliable) : Unreliable := u.sealBack.setLog u.sealBack.log.rolled

/-- Append to the last segment or, if it lacks room, to a new one. -/
def appendRolling (u : Unreliable) (p : Payload) : Unreliable × Except Error ℕ :=
  if Handle.Fits p u.log.back then (u.setLog (u.log.pushed p), .ok u.log.back.nextOffset)
  else if Handle.Fits p u.rollOver.log.back then
    (u.rollOver.setLog (u.rollOver.log.pushed p), .ok u.rollOver.log.back.nextOffset)
  else (u.rollOver, .error recordTooLarge)

def append (u : Unreliable) (p : Payload) : Unreliable × Except Error ℕ :=
  match u.appendRolling p with
  | (u, .ok offset) => (u.setLog { u.log with nextOffset := offset + 1 }, .ok offset)
  | (u, .error e) => (u, .error e)

/-- The loop of `append_batch`. -/
def appendAll (u : Unreliable) : List (List UInt8) → Unreliable × Except Error Unit
  | [] => (u, .ok ())
  | p :: payloads =>
      match u.appendRolling (Log.payloadOf p) with
      | (u, .ok _) => u.appendAll payloads
      | (u, .error e) => (u, .error e)

def appendBatch (u : Unreliable) (payloads : List (List UInt8)) (flushAfter : Bool) :
    Unreliable × Except Error ℕ :=
  if Log.CannotFit u.log.maxSegmentBytes payloads then (u, .error batchCannotFit)
  else if payloads = [] then (u, .ok u.log.back.nextOffset)
  else
    match u.appendAll payloads with
    | (t, .error e) => (t.setLog t.log.storeNextOffset, .error e)
    | (t, .ok _) =>
        let t := t.setLog t.log.storeNextOffset
        (if flushAfter then t.flush else t, .ok u.log.back.nextOffset)

end Unreliable

/-! ### What a failure does not change -/

namespace Log

/-- The logs differ at most in what is on the device. -/
structure SameBytes (l t : Log) : Prop where
  dir : SortedMap.mapValues File.bytes t.dir = SortedMap.mapValues File.bytes l.dir
  maxSegmentBytes : t.maxSegmentBytes = l.maxSegmentBytes
  older : t.older = l.older
  back : t.back = l.back
  nextOffset : t.nextOffset = l.nextOffset
  flushCalls : t.flushCalls = l.flushCalls

namespace SameBytes

variable {l t : Log}

theorem refl (l : Log) :
  l.SameBytes l
  := ⟨rfl, rfl, rfl, rfl, rfl, rfl⟩

theorem keys (h : l.SameBytes t) :
  t.dir.keys = l.dir.keys
  := by
  rw [← SortedMap.keys_mapValues File.bytes, h.dir, SortedMap.keys_mapValues]

theorem find?_bytes (h : l.SameBytes t) (base : ℕ) :
  (t.dir.find? base).map File.bytes = (l.dir.find? base).map File.bytes
  := by
  rw [← SortedMap.find?_mapValues, h.dir, SortedMap.find?_mapValues]

theorem file_bytes (h : l.SameBytes t) (base : ℕ) :
  (t.file base).bytes = (l.file base).bytes
  := by
  have hfile : ∀ u : Log, (u.file base).bytes = ((u.dir.find? base).map File.bytes).getD [] := by
    intro u
    rw [Log.file]
    cases u.dir.find? base with
    | none => rfl
    | some f => rfl
  rw [hfile, hfile, h.find?_bytes]

theorem handle (h : l.SameBytes t) :
  t.handle.seg = l.handle.seg ∧ t.handle.file.bytes = l.handle.file.bytes
  := by
  refine ⟨h.back, ?_⟩
  change (t.file t.back.baseOffset).bytes = _
  rw [h.back, h.file_bytes]
  rfl

theorem putBack (h : l.SameBytes t) {a b : Handle} (hseg : b.seg = a.seg)
    (hfile : b.file.bytes = a.file.bytes) :
  (l.putBack a).SameBytes (t.putBack b)
  := by
  refine ⟨?_, h.maxSegmentBytes, h.older, hseg, h.nextOffset, h.flushCalls⟩
  simp only [Log.putBack]
  rw [SortedMap.mapValues_put, SortedMap.mapValues_put, h.dir, h.back, hfile]

theorem pushed (h : l.SameBytes t) (p : Payload) :
  (l.pushed p).SameBytes (t.pushed p)
  := by
  obtain ⟨hseg, hfile⟩ := h.handle
  apply h.putBack
  · simp only [Handle.pushed]
    rw [hseg]
  · simp only [Handle.pushed, File.write]
    rw [hseg, hfile]

/-- A segment that is constructed depends on the bytes of the file only. -/
theorem constructed (base m : ℕ) {f g : Option File}
    (h : f.map File.bytes = g.map File.bytes) :
  Segment.constructed base m f = Segment.constructed base m g
    ∧ (Segment.constructedFile m f).bytes = (Segment.constructedFile m g).bytes
  := by
  cases f with
  | none =>
      cases g with
      | none => exact ⟨rfl, rfl⟩
      | some g => cases h
  | some f =>
      cases g with
      | none => cases h
      | some g =>
          obtain ⟨bytes, n⟩ := f
          obtain ⟨bytes', n'⟩ := g
          obtain rfl : bytes = bytes' := Option.some.inj h
          have hfile : (Segment.constructedFile m (some ⟨bytes, n⟩)).bytes
              = (Segment.constructedFile m (some ⟨bytes, n'⟩)).bytes := by
            rw [Segment.constructedFile, Segment.constructedFile]
            by_cases hr : Segment.Resizes (some ⟨bytes, n⟩)
            · rw [if_pos hr, if_pos (show Segment.Resizes (some ⟨bytes, n'⟩) from hr)]
              rfl
            · rw [if_neg hr, if_neg (show ¬ Segment.Resizes (some ⟨bytes, n'⟩) from hr)]
              rfl
          refine ⟨?_, hfile⟩
          rw [Segment.constructed, Segment.constructed]
          by_cases hs : Segment.TakenAsSealed m (some ⟨bytes, n⟩)
          · rw [if_pos hs, if_pos (show Segment.TakenAsSealed m (some ⟨bytes, n'⟩) from hs)]
            rfl
          · rw [if_neg hs, if_neg (show ¬ Segment.TakenAsSealed m (some ⟨bytes, n'⟩) from hs)]
            simp only [Segment.mapping]
            rw [hfile]

theorem rolled (h : l.SameBytes t) :
  l.rolled.SameBytes t.rolled
  := by
  obtain ⟨hseg, hfile⟩ := constructed l.back.nextOffset l.maxSegmentBytes
    (h.find?_bytes l.back.nextOffset)
  refine ⟨?_, h.maxSegmentBytes, ?_, ?_, h.nextOffset, h.flushCalls⟩
  · simp only [Log.rolled]
    rw [SortedMap.mapValues_put, SortedMap.mapValues_put, h.dir, h.back, h.maxSegmentBytes, hfile]
  · simp only [Log.rolled]
    rw [h.older, h.back]
  · simp only [Log.rolled]
    rw [h.back, h.maxSegmentBytes, hseg]

/-- Whether a log is in order is a matter of the bytes. -/
theorem ordered (h : l.SameBytes t) (ho : l.Ordered) :
  t.Ordered
  := by
  obtain ⟨hseg, hfile⟩ := h.handle
  have hformed := ho.handle
  obtain ⟨ps, hps⟩ := ho.begins
  refine ⟨⟨⟨?_, ?_⟩, ?_, ?_⟩, ?_, ps, hps.of_bytes hseg hfile⟩
  · rw [SortedMap.Sorted, h.keys]
    exact ho.sorted
  · rw [h.back, h.keys]
    exact ho.mem
  · rw [h.back, h.keys]
    exact ho.below
  · rw [h.maxSegmentBytes]
    constructor
    · rw [hseg]
      exact hformed.ordered
    · rw [hseg]
      exact hformed.start
    · rw [hseg, hfile]
      exact hformed.opened
    · rw [hseg, File.Strands, hfile]
      exact hformed.stuck
  · rw [h.older, h.back]
    exact ho.older

end SameBytes

end Log

namespace Unreliable

/-- The log is the log `l` but for what is on the device, and is `l` if `msync` never fails. -/
structure Mirrors (u : Unreliable) (l : Log) : Prop where
  same : l.SameBytes u.log
  exact : (∀ n, u.succeeds n = true) → u.log = l

variable {u : Unreliable} {l : Log}

theorem mirrors_self (u : Unreliable) :
  u.Mirrors u.log
  := ⟨Log.SameBytes.refl u.log, fun _ => rfl⟩

namespace Mirrors

theorem pushed (hm : u.Mirrors l) (p : Payload) :
  (u.setLog (u.log.pushed p)).Mirrors (l.pushed p)
  := ⟨hm.same.pushed p, fun hall => congrArg (fun l => Log.pushed l p) (hm.exact hall)⟩

/-- The counters of the log do not matter. -/
theorem counters (hm : u.Mirrors l) {n n' c c' : ℕ} (hn : n' = n) (hc : c' = c) :
  (u.setLog { u.log with nextOffset := n', flushCalls := c' }).Mirrors
    { l with nextOffset := n, flushCalls := c }
  := by
  have h := hm.same
  refine ⟨⟨h.dir, h.maxSegmentBytes, h.older, h.back, hn, hc⟩, ?_⟩
  intro hall
  change { u.log with nextOffset := n', flushCalls := c' } = _
  rw [hm.exact hall, hn, hc]

theorem storeNextOffset (hm : u.Mirrors l) :
  (u.setLog u.log.storeNextOffset).Mirrors l.storeNextOffset
  := hm.counters (congrArg (fun s : Segment => s.nextOffset) hm.same.back) hm.same.flushCalls

/-- A call of `msync`, with what is done to the segment afterwards. -/
theorem msync (hm : u.Mirrors l) {next : Handle → Handle}
    (hnext : ∀ a b : Handle, b.seg = a.seg → b.file.bytes = a.file.bytes →
      (next b).seg = (next a).seg ∧ (next b).file.bytes = (next a).file.bytes) :
  (u.msync next).Mirrors (l.putBack (next (l.handle.synced true)))
  := by
  obtain ⟨hseg, hfile⟩ := hm.same.handle
  obtain ⟨hseg', hfile'⟩ := hnext (l.handle.synced true)
    (u.log.handle.synced (u.succeeds u.calls.length))
    (by rw [Handle.synced_seg, Handle.synced_seg, hseg])
    (by rw [Handle.synced_bytes, Handle.synced_bytes, hfile])
  refine ⟨hm.same.putBack hseg' hfile', ?_⟩
  intro hall
  have hok : u.succeeds u.calls.length = true := hall _
  simp only [Unreliable.msync]
  rw [hok, hm.exact hall]

theorem flushBack (hm : u.Mirrors l) (h : l.Attached) :
  u.flushBack.Mirrors l.flushedBack
  := by
  rw [Unreliable.flushBack, Log.flushedBack, Handle.flushed_eq, hm.same.back]
  by_cases hpos : 0 < l.back.writePos
  · rw [if_pos hpos, if_pos (show 0 < l.handle.seg.writePos from hpos)]
    exact hm.msync (fun a b hseg hfile => ⟨hseg, hfile⟩)
  · rw [if_neg hpos, if_neg (show ¬ 0 < l.handle.seg.writePos from hpos), h.putBack_handle]
    exact hm

theorem sealBack (hm : u.Mirrors l) (h : l.Attached) :
  u.sealBack.Mirrors l.sealedBack
  := by
  rw [Unreliable.sealBack, Log.sealedBack, Handle.sealed_eq, hm.same.back]
  by_cases hsealed : l.back.isSealed = true
  · rw [if_pos hsealed, if_pos (show l.handle.seg.isSealed = true from hsealed),
      h.putBack_handle]
    exact hm
  · rw [if_neg hsealed, if_neg (show ¬ l.handle.seg.isSealed = true from hsealed)]
    apply hm.msync
    intro a b hseg hfile
    simp only [Handle.cut, File.truncate]
    rw [hseg, hfile]
    exact ⟨rfl, rfl⟩

theorem rollOver (hm : u.Mirrors l) (h : l.Attached) :
  u.rollOver.Mirrors l.rolledOver
  := by
  have hseal := hm.sealBack h
  exact ⟨hseal.same.rolled, fun hall => congrArg Log.rolled (hseal.exact hall)⟩

/-- `appendRolling` returns the same. -/
theorem wp_appendRolling (hm : u.Mirrors l) (h : l.Attached) (p : Payload) :
  wp (fun _ => True) (Log.appendRolling p)
    (fun r t => r = (u.appendRolling p).2 ∧ (u.appendRolling p).1.Mirrors t) l
  := by
  have hroll := hm.rollOver h
  rw [Log.wp_appendRolling_final h, Unreliable.appendRolling, hm.same.back]
  split
  · exact ⟨rfl, hm.pushed p⟩
  · rw [hroll.same.back]
    split
    · exact ⟨rfl, hroll.pushed p⟩
    · exact ⟨rfl, hroll⟩

theorem wp_flush {ε : Type} (hm : u.Mirrors l) (h : l.Attached) :
  wp (fun _ => True) (Log.flush : Program Log ε Unit)
    (fun r t => r = .ok () ∧ u.flush.Mirrors t) l
  := by
  have hflush := hm.flushBack h
  simp only [Log.flush, wp_bind, Log.wp_onBack_flush h, orElse_ok, wp_update]
  refine ⟨fun _ => trivial, trivial, ?_⟩
  exact hflush.counters hflush.same.nextOffset (congrArg (· + 1) hflush.same.flushCalls)

theorem wp_append (hm : u.Mirrors l) (h : l.Attached) (p : Payload) :
  wp (fun _ => True) (Log.append p) (fun r t => r = (u.append p).2 ∧ (u.append p).1.Mirrors t) l
  := by
  rw [Log.append, wp_bind, Unreliable.append]
  apply wp_mono (hm.wp_appendRolling h p)
  · exact fun _ hc => hc
  · rintro r t ⟨rfl, ht⟩
    generalize u.appendRolling p = x at ht ⊢
    obtain ⟨u', r⟩ := x
    cases r with
    | error e => exact ⟨rfl, ht⟩
    | ok offset =>
        simp only [orElse_ok, wp_bind, wp_update, wp_pure]
        exact ⟨trivial, ht.counters rfl ht.same.flushCalls⟩

theorem wp_appendAll (hm : u.Mirrors l) (h : l.Ordered) (payloads : List (List UInt8)) :
  wp (fun _ => True)
    (forEach (fun p => do let _ ← Log.appendRolling (Log.payloadOf p)) payloads)
    (fun r t => r = (u.appendAll payloads).2 ∧ (u.appendAll payloads).1.Mirrors t ∧ t.Ordered) l
  := by
  induction payloads generalizing u l with
  | nil =>
      rw [forEach, wp_pure]
      exact ⟨rfl, hm, h⟩
  | cons p payloads ih =>
      rw [forEach, wp_bind, wp_bind, Unreliable.appendAll]
      apply wp_mono (wp_and (hm.wp_appendRolling h.toAttached (Log.payloadOf p))
        (h.wp_appendRolling (Log.payloadOf p)))
      · exact fun _ _ => trivial
      · rintro r t ⟨⟨rfl, ht⟩, hext, -⟩
        generalize u.appendRolling (Log.payloadOf p) = x at ht ⊢
        obtain ⟨u', r⟩ := x
        cases r with
        | error e => exact ⟨rfl, ht, hext.ordered⟩
        | ok offset =>
            rw [orElse_ok, wp_pure, orElse_ok]
            exact ih ht hext.ordered

theorem wp_appendBatch (hm : u.Mirrors l) (h : l.Ordered) (payloads : List (List UInt8))
    (flushAfter : Bool) :
  wp (fun _ => True) (Log.appendBatch payloads flushAfter)
    (fun r t => r = (u.appendBatch payloads flushAfter).2
      ∧ (u.appendBatch payloads flushAfter).1.Mirrors t) l
  := by
  simp only [Log.appendBatch, wp_bind, wp_gets, orElse_ok, Unreliable.appendBatch,
    hm.same.maxSegmentBytes, hm.same.back]
  by_cases hfit : Log.CannotFit l.maxSegmentBytes payloads
  · simp only [if_pos hfit, wp_raise]
    exact ⟨trivial, hm⟩
  simp only [if_neg hfit, wp_bind, wp_gets, orElse_ok]
  by_cases hnil : payloads = []
  · simp only [if_pos hnil, wp_pure]
    exact ⟨trivial, hm⟩
  simp only [if_neg hnil, wp_bind]
  rw [wp_onError]
  apply wp_mono (hm.wp_appendAll h payloads)
  · exact fun _ hc => hc
  · rintro r t ⟨rfl, ht, hord⟩
    generalize u.appendAll payloads = x at ht ⊢
    obtain ⟨u', r⟩ := x
    have hstored := hord.extends_self.of_eq (u := t.storeNextOffset) rfl rfl rfl rfl
    cases r with
    | error e => exact ⟨rfl, ht.storeNextOffset⟩
    | ok _ =>
        simp only [orElse_ok, wp_bind, wp_update]
        cases flushAfter with
        | false =>
            simp only [Bool.false_eq_true, if_false, wp_pure]
            exact ⟨trivial, ht.storeNextOffset⟩
        | true =>
            simp only [if_true, wp_bind]
            apply wp_mono (ht.storeNextOffset.wp_flush hstored.ordered.toAttached)
            · exact fun _ hc => hc
            · rintro r t' ⟨rfl, ht'⟩
              rw [orElse_ok, wp_pure]
              exact ⟨rfl, ht'⟩

end Mirrors

end Unreliable

/-! ### What is on the device -/

namespace Unreliable

variable {u : Unreliable} {o : ℕ} {p : Payload} {A : Set ℕ} {n : ℕ}

/-- The calls of `msync` from the one with number `n` on succeeded, if a record with an offset in
`A` is in their range. -/
def SyncedFor (A : Set ℕ) (n : ℕ) (u : Unreliable) : Prop :=
  ∀ k c, n ≤ k → u.calls[k]? = some c → (∃ o ∈ A, c.Covers o) → c.ok = true

theorem SyncedFor.mono {t : Unreliable} {m : ℕ} (h : SyncedFor A n t) (hcalls : u.calls <+: t.calls)
    (hle : n ≤ m) :
  SyncedFor A m u
  := by
  intro k c hk hc
  obtain ⟨hlt, -⟩ := List.getElem?_eq_some_iff.mp hc
  apply h k c (hle.trans hk)
  rw [← hc]
  obtain ⟨rest, hrest⟩ := hcalls
  rw [← hrest, List.getElem?_append_left hlt]

theorem calls_sealBack (u : Unreliable) :
  u.calls <+: u.sealBack.calls
  := by
  rw [sealBack]
  split
  · apply List.prefix_refl
  · apply List.prefix_append

theorem calls_appendRolling (u : Unreliable) (p : Payload) :
  u.calls <+: (u.appendRolling p).1.calls
  := by
  rw [appendRolling]
  split
  · apply List.prefix_refl
  · split
    · apply u.calls_sealBack
    · apply u.calls_sealBack

theorem calls_appendAll (u : Unreliable) (payloads : List (List UInt8)) :
  u.calls <+: (u.appendAll payloads).1.calls
  := by
  induction payloads generalizing u with
  | nil => apply List.prefix_refl
  | cons p payloads ih =>
      have hcalls := u.calls_appendRolling (Log.payloadOf p)
      rw [appendAll]
      split
      · rename_i u' o heq
        rw [heq] at hcalls
        exact hcalls.trans (ih u')
      · rename_i u' e heq
        rw [heq] at hcalls
        exact hcalls

/-- The call of `msync` for the last segment succeeds, if it is in its range that the record is. -/
theorem SyncedFor.succeeds {next : Handle → Handle} (h : SyncedFor A u.calls.length (u.msync next))
    (ho : o ∈ A) (hback : u.log.InBack o p) :
  u.succeeds u.calls.length = true
  := by
  apply h u.calls.length ⟨u.log.back, _⟩ le_rfl
  · exact List.getElem?_concat_length
  · exact ⟨o, ho, hback.lt⟩

/-- Sealing the last segment changes neither its name nor its records. -/
theorem sealBack_ends (h : u.log.Attached) :
  u.sealBack.log.back.baseOffset = u.log.back.baseOffset
    ∧ u.sealBack.log.back.nextOffset = u.log.back.nextOffset
  := by
  rw [(u.mirrors_self.sealBack h).same.back]
  exact ⟨u.log.sealedBack_baseOffset, u.log.sealedBack_nextOffset⟩

/-- Sealing the last segment puts its records on the device, if `msync` succeeds. -/
theorem onOlder_rollOver (h : u.log.Ordered) (hsync : SyncedFor A u.calls.length u.rollOver)
    (ho : o ∈ A) (hheld : u.log.Held o p) :
  u.rollOver.log.OnOlder o p
  := by
  obtain ⟨hbase, hnext⟩ := sealBack_ends h.toAttached
  rcases hheld with hback | holder
  · have hopen := hback.1
    have hseal : u.sealBack = u.msync Handle.cut := by
      rw [sealBack, if_neg (by rw [hopen]; exact Bool.false_ne_true)]
    have hok : u.succeeds u.calls.length = true := by
      have hmsync : SyncedFor A u.calls.length (u.msync Handle.cut) := by
        rw [← hseal]
        exact hsync
      exact hmsync.succeeds ho hback
    have hlog : u.rollOver.log = u.log.rolledOver := by
      change u.sealBack.log.rolled = u.log.sealedBack.rolled
      rw [hseal, Unreliable.msync, hok, Log.sealedBack, Handle.sealed_eq,
        if_neg (by rw [Log.handle, hopen]; exact Bool.false_ne_true)]
    rw [hlog]
    exact Log.Held.rolledOver (.inl hback) h.handle.ordered
  · have hseal : u.sealBack.log.OnOlder o p := by
      rw [sealBack]
      split
      · exact holder
      · apply holder.putBack
        simp only [Handle.cut, Handle.synced_seg]
        rfl
    apply hseal.rolled
    rw [hbase, hnext]
    exact h.handle.ordered

/-- What an append does to the end of the log. -/
theorem appendRolling_next (h : u.log.Ordered) (p : Payload) :
  (u.appendRolling p).1.log.Ordered ∧ ∀ o, (u.appendRolling p).2 = .ok o →
    o = u.log.back.nextOffset ∧ (u.appendRolling p).1.log.back.nextOffset = o + 1
  := by
  have hwp := wp_and (u.mirrors_self.wp_appendRolling h.toAttached p) (h.wp_appendRolling p)
  obtain ⟨⟨hvalue, hmirrors⟩, hext, hgain⟩ := wp_final hwp
  refine ⟨hmirrors.same.ordered hext.ordered, ?_⟩
  intro o ho
  obtain ⟨hnext, hgain⟩ := hgain o (hvalue.trans ho)
  refine ⟨hnext, ?_⟩
  rw [hmirrors.same.back, hgain.counted, hnext]
  rfl

/-- Appending a record keeps those that are held, if the calls of `msync` succeed whose range they
are in, and holds the new one. -/
theorem appendRolling_held (h : u.log.Ordered) (hok : (u.appendRolling p).2 = .ok o)
    (hsync : SyncedFor A u.calls.length (u.appendRolling p).1) :
  (∀ o' ∈ A, ∀ q, u.log.Held o' q → (u.appendRolling p).1.log.Held o' q)
    ∧ (u.appendRolling p).1.log.Held o p
  := by
  have hroll := (u.mirrors_self.rollOver h.toAttached).same.ordered h.extends_rolledOver.ordered
  rw [appendRolling] at hok hsync ⊢
  split at hok
  · rename_i hfits
    rw [if_pos hfits]
    cases hok
    exact ⟨fun o' _ q hq => hq.pushed p, .inl (Log.inBack_pushed h.begins hfits)⟩
  · rename_i hfull
    rw [if_neg hfull] at hsync ⊢
    split at hok
    · rename_i hfits
      rw [if_pos hfits] at hsync ⊢
      cases hok
      refine ⟨?_, .inl (Log.inBack_pushed hroll.begins hfits)⟩
      intro o' ho' q hq
      have holder : u.rollOver.log.Held o' q := .inr (onOlder_rollOver h hsync ho' hq)
      exact holder.pushed p
    · cases hok

/-- The loop of a batch. -/
theorem appendAll_held {payloads : List (List UInt8)} (h : u.log.Ordered)
    (hok : (u.appendAll payloads).2 = .ok ())
    (hsync : SyncedFor A u.calls.length (u.appendAll payloads).1) :
  (∀ o ∈ A, ∀ p, u.log.Held o p → (u.appendAll payloads).1.log.Held o p)
    ∧ ∀ k p, (payloads.map Log.payloadOf)[k]? = some p → u.log.back.nextOffset + k ∈ A →
      (u.appendAll payloads).1.log.Held (u.log.back.nextOffset + k) p
  := by
  induction payloads generalizing u with
  | nil =>
      refine ⟨fun o _ p hp => hp, ?_⟩
      intro k p hk
      rw [List.map_nil, List.getElem?_nil] at hk
      cases hk
  | cons q payloads ih =>
      obtain ⟨hord, hnext⟩ := appendRolling_next h (Log.payloadOf q)
      have hcalls := u.calls_appendRolling (Log.payloadOf q)
      rw [appendAll] at hok hsync ⊢
      cases heq : u.appendRolling (Log.payloadOf q) with
      | mk u' r =>
        rw [heq] at hok hsync hord hnext hcalls
        cases r with
        | error e => cases hok
        | ok o =>
          obtain ⟨rfl, hnext⟩ := hnext o rfl
          have hrest := ih hord hok (hsync.mono (List.prefix_refl _) hcalls.length_le)
          have hfirst := appendRolling_held (A := A) h (congrArg Prod.snd heq) (by
            rw [heq]
            exact hsync.mono (u'.calls_appendAll payloads) le_rfl)
          rw [heq] at hfirst
          refine ⟨fun o ho p hp => hrest.1 o ho p (hfirst.1 o ho p hp), ?_⟩
          intro k p hk hA
          cases k with
          | zero =>
              obtain rfl : Log.payloadOf q = p := Option.some.inj hk
              exact hrest.1 _ hA _ hfirst.2
          | succ k =>
              have hlater := hrest.2 k p hk
              rw [hnext, Nat.add_assoc, Nat.add_comm 1 k] at hlater
              exact hlater hA

/-- A flush puts what is held on the device, if `msync` succeeds. -/
theorem onDevice_flush (hsync : SyncedFor A u.calls.length u.flush) (ho : o ∈ A)
    (hheld : u.log.Held o p) :
  u.flush.log.OnDevice o p
  := by
  change u.flushBack.log.OnDevice o p
  rcases hheld with hback | holder
  · have hflush : u.flushBack = u.msync id := by
      rw [flushBack, if_pos hback.writePos_pos]
    have hok : u.succeeds u.calls.length = true := by
      have hmsync : SyncedFor A u.calls.length (u.msync id) := by
        rw [← hflush]
        exact hsync
      exact hmsync.succeeds ho hback
    have hlog : u.flushBack.log = u.log.flushedBack := by
      rw [hflush, Unreliable.msync, hok, Log.flushedBack, Handle.flushed_eq,
        if_pos (show 0 < u.log.handle.seg.writePos from hback.writePos_pos)]
      rfl
    rw [hlog]
    exact (Log.Held.flushedBack (.inl hback)).2
  · apply Log.OnOlder.onDevice
    rw [flushBack]
    split
    · apply holder.putBack
      rw [id, Handle.synced_seg]
      rfl
    · exact holder

theorem calls_flush (u : Unreliable) :
  u.calls <+: u.flush.calls
  := by
  change u.calls <+: u.flushBack.calls
  rw [flushBack]
  split
  · apply List.prefix_append
  · apply List.prefix_refl

theorem calls_append (u : Unreliable) (p : Payload) :
  (u.append p).1.calls = (u.appendRolling p).1.calls
  := by
  rw [append]
  split
  · rename_i heq
    rw [heq]
    rfl
  · rename_i heq
    rw [heq]

/-- A record that was appended and flushed is on the device, if the calls of `msync` succeed whose
range it is in. -/
theorem append_onDevice (h : u.log.Ordered) (hok : (u.append p).2 = .ok o)
    (hsync : SyncedFor {o} u.calls.length (u.append p).1.flush) :
  (u.append p).1.flush.log.OnDevice o p
  := by
  have hcalls := u.calls_appendRolling p
  rw [← calls_append] at hcalls
  have hbefore : SyncedFor {o} u.calls.length (u.appendRolling p).1 := by
    apply hsync.mono _ le_rfl
    rw [← calls_append]
    apply calls_flush
  apply onDevice_flush (hsync.mono (List.prefix_refl _) hcalls.length_le) rfl
  rw [append] at hok ⊢
  cases heq : u.appendRolling p with
  | mk u' r =>
      rw [heq] at hok hbefore
      cases r with
      | error e => cases hok
      | ok o' =>
          obtain rfl : o' = o := Except.ok.inj hok
          have hheld := (appendRolling_held h (congrArg Prod.snd heq) (by
            rw [heq]
            exact hbefore)).2
          rw [heq] at hheld
          exact hheld

/-- The records of a batch that was flushed are on the device, if the calls of `msync` succeed whose
range they are in. -/
theorem appendBatch_onDevice {payloads : List (List UInt8)} {first : ℕ} (h : u.log.Ordered)
    (hok : (u.appendBatch payloads true).2 = .ok first)
    (hsync : SyncedFor A u.calls.length (u.appendBatch payloads true).1) :
  ¬ Log.CannotFit u.log.maxSegmentBytes payloads
    ∧ ∀ k p, (payloads.map Log.payloadOf)[k]? = some p → first + k ∈ A →
      (u.appendBatch payloads true).1.log.OnDevice (first + k) p
  := by
  rw [appendBatch] at hok hsync ⊢
  split at hok
  · cases hok
  rename_i hfit
  refine ⟨hfit, ?_⟩
  rw [if_neg hfit] at hsync ⊢
  split at hok
  · rename_i hnil
    subst hnil
    intro k p hk
    rw [List.map_nil, List.getElem?_nil] at hk
    cases hk
  · rename_i hne
    rw [if_neg hne] at hsync ⊢
    have hcalls := u.calls_appendAll payloads
    cases heq : u.appendAll payloads with
    | mk t r =>
        rw [heq] at hok hsync hcalls
        cases r with
        | error e => cases hok
        | ok _ =>
            obtain rfl : u.log.back.nextOffset = first := Except.ok.inj hok
            intro k p hk hA
            have hheld := (appendAll_held (A := A) h (congrArg Prod.snd heq) (by
              rw [heq]
              exact hsync.mono (t.setLog t.log.storeNextOffset).calls_flush le_rfl)).2 k p hk hA
            rw [heq] at hheld
            have hstored : (t.setLog t.log.storeNextOffset).log.Held
                (u.log.back.nextOffset + k) p := hheld
            exact onDevice_flush (hsync.mono (List.prefix_refl _) hcalls.length_le) hA hstored

end Unreliable

end Storage
