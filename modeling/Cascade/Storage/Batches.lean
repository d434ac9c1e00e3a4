import Cascade.Storage.Availability

/-!
# Batches

A batch does to the segments of a log what its records do when they are appended one by one, and
gives them the same offsets; a batch with a record that fits no segment does nothing
(`Log.batch_eq_singles`).

As long as the size of segments stays the same, the last segment of a log is open (`Log.Open`). What
`appendRolling` does to such a log is a function of the log and the record (`Log.grown`), in which
the stored next offset has no part. The two ways of appending differ only in when they store it.
-/

open Bytes Crash Crash.Program

namespace Storage

namespace Log

/-- The log is reached from a fresh directory by operations, and by closing and reopening it with
the same size of segments. -/
def ReachedWith (m : ℕ) (l : Log) : Prop :=
  ∃ ss : List Session, (∀ s ∈ ss, s.KeepsSize m) ∧ l = (fresh m).afterAll ss

/-- Append payloads one by one, each with a call of its own. -/
def appendEach (payloads : List (List UInt8)) : Program Log Error (List ℕ) :=
  mapEach (fun p => append (payloadOf p)) payloads

/-- The logs have the same segments, and the same bytes in their files. -/
structure SameSegments (l t : Log) : Prop where
  segments : l.segments = t.segments
  files : ∀ base, (l.dir.find? base).map File.bytes = (t.dir.find? base).map File.bytes

/-! ### Logs with an open segment -/

/-- The last segment is open. -/
structure Open (m : ℕ) (l : Log) : Prop extends l.Formed where
  size : l.maxSegmentBytes = m
  opened : l.back.isSealed = false

/-- The log after a record that fits a segment was appended. -/
def grown (l : Log) (p : Payload) : Log :=
  if Handle.Fits p l.back then l.pushed p else l.rolledOver.pushed p

namespace Open

variable {l : Log} {m : ℕ}

theorem of_eq (h : l.Open m) {t : Log} (hdir : t.dir = l.dir)
    (hmax : t.maxSegmentBytes = l.maxSegmentBytes) (hback : t.back = l.back) :
  t.Open m
  := ⟨h.toFormed.of_eq hdir hmax hback, hmax.trans h.size, by rw [hback, h.opened]⟩

theorem mappedLen (h : l.Open m) :
  l.back.mappedLen = m
  := (h.handle.opened h.opened).1.trans h.size

/-- The segment that follows an open one is open, and has no records yet. -/
theorem rolledOver (h : l.Open m) :
  l.rolledOver.Open m ∧ l.rolledOver.back.writePos = 0
    ∧ l.rolledOver.back.nextOffset = l.back.nextOffset
  := by
  have hfree := Segment.not_stuck_of_open h.opened
  have hback := h.toFormed.rolledOver_back
  rw [if_neg hfree] at hback
  exact ⟨⟨h.toFormed.rolledOver, h.size, hback.1⟩, hback.2, h.toFormed.rolledOver_nextOffset hfree⟩

/-- A record fits the next segment if it fits any. -/
theorem fits_rolledOver_iff (h : l.Open m) (p : Payload) :
  Handle.Fits p l.rolledOver.back ↔ kRecordHeaderSize + p.len ≤ m
  := by
  obtain ⟨hopen, hpos, -⟩ := h.rolledOver
  rw [Handle.Fits, hopen.opened, hopen.mappedLen, hpos, Nat.zero_add]
  simp

/-- What `appendRolling` does. -/
theorem wp_appendRolling (h : l.Open m) (p : Payload) :
  wp (fun _ => True) (appendRolling p)
    (fun r t => if kRecordHeaderSize + p.len ≤ m then r = .ok l.back.nextOffset ∧ t = l.grown p
      else r = .error recordTooLarge ∧ t = l.rolledOver) l
  := by
  obtain ⟨-, -, hnext⟩ := h.rolledOver
  rw [wp_appendRolling_final h.toAttached, grown]
  split
  · rename_i hfits
    have hle : kRecordHeaderSize + p.len ≤ m := by
      have hroom := hfits.2
      rw [h.mappedLen] at hroom
      omega
    rw [if_pos hle]
    exact ⟨rfl, rfl⟩
  · simp only [h.fits_rolledOver_iff p]
    split
    · exact ⟨by rw [hnext], trivial⟩
    · exact ⟨trivial, trivial⟩

theorem pushed (h : l.Open m) {p : Payload} (hfits : Handle.Fits p l.back) :
  (l.pushed p).Open m
  := ⟨h.toFormed.pushed hfits, h.size, h.opened⟩

theorem grown (h : l.Open m) {p : Payload} (hle : kRecordHeaderSize + p.len ≤ m) :
  (l.grown p).Open m ∧ (l.grown p).back.nextOffset = l.back.nextOffset + 1
  := by
  obtain ⟨hopen, -, hnext⟩ := h.rolledOver
  rw [Log.grown]
  split
  · rename_i hfits
    exact ⟨h.pushed hfits, Tally.advance_nextOffset _ _⟩
  · refine ⟨hopen.pushed ((h.fits_rolledOver_iff p).mpr hle), ?_⟩
    rw [← hnext]
    exact Tally.advance_nextOffset _ _

/-- What an append does. -/
theorem wp_append (h : l.Open m) (p : Payload) :
  wp (fun _ => True) (append p)
    (fun r t => if kRecordHeaderSize + p.len ≤ m then
        r = .ok l.back.nextOffset ∧ t = (l.grown p).storeNextOffset
      else r = .error recordTooLarge ∧ t = l.rolledOver) l
  := by
  rw [append, wp_bind]
  apply wp_mono (h.wp_appendRolling p)
  · exact fun _ hc => hc
  · intro r t hr
    split at hr
    · rename_i hle
      obtain ⟨rfl, rfl⟩ := hr
      simp only [orElse_ok, wp_bind, wp_update, wp_pure, if_pos hle]
      refine ⟨trivial, ?_⟩
      rw [storeNextOffset, (h.grown hle).2]
    · rename_i hgt
      obtain ⟨rfl, rfl⟩ := hr
      simp only [orElse_error, if_neg hgt]
      exact ⟨trivial, trivial⟩

end Open

/-! ### The two ways of appending -/

theorem CannotFit.mono {m : ℕ} {payloads payloads' : List (List UInt8)} (h : CannotFit m payloads)
    (hsub : payloads ⊆ payloads') :
  CannotFit m payloads'
  := by
  obtain ⟨p, hp, hcannot⟩ := h
  exact ⟨p, hsub hp, hcannot⟩

/-- Each payload fits a segment, and its length field. -/
theorem fits_of_not_cannotFit {m : ℕ} {payloads : List (List UInt8)} (h : ¬ CannotFit m payloads)
    {p : List UInt8} (hp : p ∈ payloads) :
  kRecordHeaderSize + (payloadOf p).len ≤ m
  := by
  rw [Payload.len, payloadOf_bytes_of_fit h hp]
  simp only [CannotFit, not_exists, not_and, not_or, not_lt] at h
  exact (h p hp).2

/-- The log after payloads that fit were appended, before the next offset is stored. -/
def grownAll (l : Log) (payloads : List (List UInt8)) : Log :=
  (payloads.map payloadOf).foldl grown l

/-- Storing the next offset first makes no difference to where it is stored at the end. -/
theorem storeNextOffset_grownAll (l : Log) (payloads : List (List UInt8)) :
  (l.storeNextOffset.grownAll payloads).storeNextOffset = (l.grownAll payloads).storeNextOffset
  := by
  have hgrown : ∀ (t : Log) (n : ℕ) (p : Payload),
      ({ t with nextOffset := n } : Log).grown p = { t.grown p with nextOffset := n } := by
    intro t n p
    rw [grown, grown]
    split
    · rfl
    · rfl
  have hfold : ∀ (ps : List Payload) (t : Log) (n : ℕ),
      ps.foldl grown { t with nextOffset := n } = { ps.foldl grown t with nextOffset := n } := by
    intro ps
    induction ps with
    | nil => exact fun _ _ => rfl
    | cons p ps ih =>
      intro t n
      rw [List.foldl_cons, List.foldl_cons, hgrown, ih]
  change storeNextOffset ((payloads.map payloadOf).foldl grown
    { l with nextOffset := l.back.nextOffset }) = _
  rw [hfold]
  rfl

namespace Open

variable {l : Log} {m : ℕ} {payloads : List (List UInt8)}

theorem grownAll (h : l.Open m) (hfit : ¬ CannotFit m payloads) :
  (l.grownAll payloads).Open m
    ∧ (l.grownAll payloads).back.nextOffset = l.back.nextOffset + payloads.length
  := by
  induction payloads generalizing l with
  | nil => exact ⟨h, rfl⟩
  | cons p payloads ih =>
    have hrest : ¬ CannotFit m payloads := fun h => hfit (h.mono (List.subset_cons_self p payloads))
    obtain ⟨hgrown, hnext⟩ := h.grown (fits_of_not_cannotFit hfit List.mem_cons_self)
    obtain ⟨hopen, hall⟩ := ih hgrown hrest
    refine ⟨hopen, hall.trans ?_⟩
    rw [hnext, List.length_cons]
    omega

/-- The loop of a batch. -/
theorem wp_appendLoop (h : l.Open m) (hfit : ¬ CannotFit m payloads) :
  wp (fun _ => True) (forEach (fun p => do let _ ← appendRolling (payloadOf p)) payloads)
    (fun r t => r = .ok () ∧ t = l.grownAll payloads) l
  := by
  apply wp_forEach (I := fun done t => t = l.grownAll done)
  · rintro done p rest t rfl rfl
    have hdone : ¬ CannotFit m done := fun h => hfit (h.mono (List.subset_append_left done _))
    rw [wp_bind]
    apply wp_mono ((h.grownAll hdone).1.wp_appendRolling (payloadOf p))
    · exact fun _ hc => hc
    · intro r t hr
      rw [if_pos (fits_of_not_cannotFit hfit (by simp))] at hr
      obtain ⟨rfl, rfl⟩ := hr
      rw [orElse_ok, wp_pure]
      refine ⟨rfl, ?_⟩
      rw [Log.grownAll, Log.grownAll, List.map_append, List.foldl_append]
      rfl
  · rfl

/-- What single appends do. -/
theorem wp_appendEach (h : l.Open m) (hfit : ¬ CannotFit m payloads)
    (hstored : l.storeNextOffset = l) :
  wp (fun _ => True) (appendEach payloads)
    (fun r t => r = .ok (List.range' l.back.nextOffset payloads.length)
      ∧ t = (l.grownAll payloads).storeNextOffset) l
  := by
  induction payloads generalizing l with
  | nil =>
    rw [appendEach, mapEach, wp_pure]
    exact ⟨rfl, hstored.symm⟩
  | cons p payloads ih =>
    have hrest : ¬ CannotFit m payloads := fun h => hfit (h.mono (List.subset_cons_self p payloads))
    have hle := fits_of_not_cannotFit hfit List.mem_cons_self
    obtain ⟨hgrown, hnext⟩ := h.grown hle
    rw [appendEach, mapEach, wp_bind]
    apply wp_mono (h.wp_append (payloadOf p))
    · exact fun _ hc => hc
    · intro r t hr
      rw [if_pos hle] at hr
      obtain ⟨rfl, rfl⟩ := hr
      have hopen : (l.grown (payloadOf p)).storeNextOffset.Open m := hgrown.of_eq rfl rfl rfl
      rw [orElse_ok, wp_bind]
      apply wp_mono (ih hopen hrest rfl)
      · exact fun _ hc => hc
      · rintro r t ⟨rfl, rfl⟩
        rw [orElse_ok, wp_pure]
        refine ⟨?_, storeNextOffset_grownAll (l.grown (payloadOf p)) payloads⟩
        have hnext' : (l.grown (payloadOf p)).storeNextOffset.back.nextOffset
            = l.back.nextOffset + 1 := hnext
        rw [hnext', List.length_cons, List.range'_succ]

/-- Forcing the last segment to the device changes no bytes. -/
theorem wp_flush {ε : Type} (h : l.Open m) :
  wp (fun _ => True) (flush : Program Log ε Unit)
    (fun r t => r = .ok () ∧ t.Open m ∧ t.SameSegments l ∧ t.back = l.back
      ∧ t.nextOffset = l.nextOffset) l
  := by
  have hback := l.flushedBack_back
  simp only [flush, wp_bind, wp_onBack_flush h.toAttached, orElse_ok, wp_update]
  refine ⟨fun _ => trivial, trivial, ?_, ⟨?_, ?_⟩, hback, rfl⟩
  · have hformed : l.flushedBack.Open m :=
      ⟨h.toFormed.flushedBack, h.size, by rw [hback, h.opened]⟩
    exact hformed.of_eq rfl rfl rfl
  · change l.older ++ [l.flushedBack.back] = _
    rw [hback]
    rfl
  · intro base
    change ((l.dir.put l.back.baseOffset l.handle.flushed.file).find? base).map File.bytes = _
    rcases eq_or_ne base l.back.baseOffset with rfl | hne
    · obtain ⟨f, hf⟩ := SortedMap.find?_of_mem_keys h.mem
      rw [SortedMap.find?_put_self, Option.map_some, Handle.flushed_bytes, hf, Option.map_some,
        handle, file, hf]
      rfl
    · rw [SortedMap.find?_put_of_ne hne]

/-- What a batch does that is not rejected. -/
theorem wp_appendBatch (h : l.Open m) (hfit : ¬ CannotFit m payloads) (hne : payloads ≠ [])
    (flushAfter : Bool) :
  wp (fun _ => True) (appendBatch payloads flushAfter)
    (fun r t => r = .ok l.back.nextOffset ∧ t.Open m
      ∧ t.SameSegments (l.grownAll payloads).storeNextOffset
      ∧ t.back = (l.grownAll payloads).back
      ∧ t.nextOffset = (l.grownAll payloads).back.nextOffset) l
  := by
  have hopen : (l.grownAll payloads).storeNextOffset.Open m := (h.grownAll hfit).1.of_eq rfl rfl rfl
  rw [← h.size] at hfit
  simp only [appendBatch, wp_bind, wp_gets, orElse_ok, if_neg hfit, if_neg hne]
  rw [wp_onError]
  rw [h.size] at hfit
  apply wp_mono (h.wp_appendLoop hfit)
  · exact fun _ hc => hc
  · rintro r t ⟨rfl, rfl⟩
    simp only [orElse_ok, wp_bind, wp_update]
    cases flushAfter with
    | false =>
      simp only [Bool.false_eq_true, if_false, wp_pure]
      exact ⟨trivial, hopen, ⟨rfl, fun _ => rfl⟩, rfl, rfl⟩
    | true =>
      simp only [if_true, wp_bind]
      apply wp_mono hopen.wp_flush
      · exact fun _ hc => hc
      · rintro r t ⟨rfl, hu, hsame, hback, hnext⟩
        rw [orElse_ok, wp_pure]
        exact ⟨rfl, hu, hsame, hback, hnext⟩

end Open

/-! ### Reachable logs -/

/-- The state of a log between two operations. -/
structure Steady (m : ℕ) (l : Log) : Prop extends l.Open m where
  stored : l.nextOffset = l.back.nextOffset

namespace Steady

variable {l : Log} {m : ℕ}

theorem storeNextOffset_eq (h : l.Steady m) :
  l.storeNextOffset = l
  := by
  rw [storeNextOffset, ← h.stored]

theorem fresh (m : ℕ) :
  (fresh m).Steady m
  := by
  refine ⟨⟨fresh_formed m, rfl, rfl⟩, ?_⟩
  exact (fresh_settled m).back_nextOffset.symm

theorem append (h : l.Steady m) (p : Payload) :
  wp (fun _ => True) (Log.append p) (fun _ t => t.Steady m) l
  := by
  apply wp_mono (h.wp_append p)
  · exact fun _ hc => hc
  · intro r t hr
    split at hr
    · rename_i hle
      obtain ⟨-, rfl⟩ := hr
      exact ⟨(h.grown hle).1.of_eq rfl rfl rfl, rfl⟩
    · obtain ⟨-, rfl⟩ := hr
      obtain ⟨hopen, -, hnext⟩ := h.rolledOver
      exact ⟨hopen, h.stored.trans hnext.symm⟩

theorem appendBatch (h : l.Steady m) (payloads : List (List UInt8)) (flushAfter : Bool) :
  wp (fun _ => True) (Log.appendBatch payloads flushAfter) (fun _ t => t.Steady m) l
  := by
  by_cases hfit : CannotFit l.maxSegmentBytes payloads
  · simp only [Log.appendBatch, wp_bind, wp_gets, orElse_ok, if_pos hfit, wp_raise]
    exact h
  · by_cases hnil : payloads = []
    · simp only [Log.appendBatch, wp_bind, wp_gets, orElse_ok, if_neg hfit, if_pos hnil, wp_pure]
      exact h
    · rw [h.size] at hfit
      apply wp_mono (h.wp_appendBatch hfit hnil flushAfter)
      · exact fun _ hc => hc
      · rintro r t ⟨-, hopen, -, hback, hnext⟩
        exact ⟨hopen, by rw [hnext, hback]⟩

theorem perform (h : l.Steady m) (op : Op) :
  wp (fun _ => True) op.perform (fun _ t => t.Steady m) l
  := by
  have hreturn : ∀ {α : Type} {x : Program Log Error α} (f : α → Reply),
      wp (fun _ => True) x (fun _ t => t.Steady m) l →
        wp (fun _ => True) (do return f (← x)) (fun _ t => t.Steady m) l := by
    intro α x f hx
    rw [wp_bind]
    apply wp_mono hx
    · exact fun _ hc => hc
    · rintro (e | a) t ht
      · exact ht
      · rw [orElse_ok, wp_pure]
        exact ht
  cases op with
  | append p => exact hreturn Reply.offset (h.append p)
  | appendBatch payloads flushAfter =>
    exact hreturn Reply.offset (h.appendBatch payloads flushAfter)
  | flush =>
    apply hreturn (fun _ => Reply.done)
    apply wp_mono h.wp_flush
    · exact fun _ hc => hc
    · rintro r t ⟨-, hopen, -, hback, hnext⟩
      exact ⟨hopen, by rw [hnext, hback, h.stored]⟩
  | read o =>
    apply hreturn Reply.record
    rw [wp_gets]
    exact h

/-- A log that is closed and reopened with the same size finds its last file of full size. -/
theorem recover (h : l.Steady m) :
  (Log.recover m l.dir).Steady m
  := by
  obtain ⟨hhandle, -, hmax, hnext⟩ := h.toFormed.recover_handle m
  have hback : (Log.recover m l.dir).back
      = Segment.constructed l.back.baseOffset m (some (l.file l.back.baseOffset)) :=
    congrArg Handle.seg hhandle
  refine ⟨⟨(h.toFormed.recover m).1, hmax, ?_⟩, hnext⟩
  rw [hback, ← Bool.not_eq_true, Segment.constructed_isSealed_iff]
  rintro ⟨-, -, hlt⟩
  have hle : l.maxSegmentBytes ≤ (l.file l.back.baseOffset).bytes.length :=
    (h.handle.opened h.opened).2
  rw [h.size] at hle
  exact absurd hlt (Nat.not_lt.mpr hle)

theorem after (h : l.Steady m) {s : Session} (hs : s.KeepsSize m) :
  (l.after s).Steady m
  := by
  cases s with
  | op op => exact wp_final (h.perform op)
  | reopen k =>
    obtain rfl : k = m := hs
    exact h.recover

theorem afterAll (h : l.Steady m) {ss : List Session} (hss : ∀ s ∈ ss, s.KeepsSize m) :
  (l.afterAll ss).Steady m
  := by
  induction ss generalizing l with
  | nil => exact h
  | cons s ss ih =>
    obtain ⟨hs, hss⟩ := List.forall_mem_cons.mp hss
    exact ih (h.after hs) hss

end Steady

theorem ReachedWith.steady {l : Log} {m : ℕ} (h : l.ReachedWith m) :
  l.Steady m
  := by
  obtain ⟨ss, hss, rfl⟩ := h
  exact (Steady.fresh m).afterAll hss

/-- A batch of payloads that fit leaves the same segments, with the same bytes in their files, and
the same next offset as appending the payloads one by one, and returns the offset that the first of
these appends returns, which the others follow. A batch with a payload that does not fit throws, and
leaves the log as it is. -/
theorem batch_eq_singles {l : Log} {m : ℕ} (h : l.ReachedWith m) {payloads : List (List UInt8)}
    (hne : payloads ≠ []) (flushAfter : Bool) :
  let batch := appendBatch payloads flushAfter l
  let singles := appendEach payloads l
  (¬ CannotFit m payloads →
      batch.final.SameSegments singles.final
        ∧ batch.final.nextOffset = singles.final.nextOffset
        ∧ ∃ first, batch.value = .ok first
          ∧ singles.value = .ok (List.range' first payloads.length))
    ∧ (CannotFit m payloads → batch.value = .error batchCannotFit ∧ batch.final = l)
  := by
  intro batch singles
  have hsteady := h.steady
  constructor
  · intro hfit
    obtain ⟨hbatch, -, hsame, -, hnext⟩ := wp_final (hsteady.wp_appendBatch hfit hne flushAfter)
    obtain ⟨hsingles, hfinal⟩ :=
      wp_final (hsteady.wp_appendEach hfit hsteady.storeNextOffset_eq)
    refine ⟨?_, ?_, l.back.nextOffset, hbatch, hsingles⟩
    · rw [hfinal]
      exact hsame
    · rw [hfinal]
      exact hnext
  · intro hfit
    rw [← hsteady.size] at hfit
    have hreject : wp (fun _ => True) (appendBatch payloads flushAfter)
        (fun r t => r = .error batchCannotFit ∧ t = l) l := by
      simp only [appendBatch, wp_bind, wp_gets, orElse_ok, if_pos hfit, wp_raise]
      exact ⟨trivial, trivial⟩
    exact wp_final hreject

/-- A log with one record is reopened, and gets three more, for which it rolls over. -/
theorem batch_eq_singles_rolling :
  let l := (fresh 40).afterAll [.op (.append ⟨[1, 2, 3, 4], by decide⟩), .reopen 40]
  let payloads : List (List UInt8) := [[5, 6, 7, 8], [9], []]
  l.ReachedWith 40 ∧ ¬ CannotFit 40 payloads
    ∧ (appendBatch payloads true l).final.SameSegments (appendEach payloads l).final
    ∧ (appendBatch payloads true l).final.segments.length = 2
  := by
  intro l payloads
  have hreached : l.ReachedWith 40 := ⟨_, by decide, rfl⟩
  have hfit : ¬ CannotFit 40 payloads := by decide
  have heq := (batch_eq_singles hreached (by decide : payloads ≠ []) true).1 hfit
  exact ⟨hreached, hfit, heq.1, by decide +kernel⟩

end Log

end Storage
