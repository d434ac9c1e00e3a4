import Cascade.Storage.Recovery

/-!
# Availability

Whether a log accepts a record that is not too large, in every state that is reached by appends,
batches and flushes, successful or not, and by closing and reopening with any sizes.

Almost always it does. A segment that lacks room is sealed and followed by a new one, whose file
does not exist yet or is empty. The exception is a log whose last segment was taken to be sealed
and has no records (`Log.Stuck`): the new segment has the name of the old one, finds the file of
it and is taken to be sealed in turn. Only reopening leads there.
-/

open Bytes Crash Crash.Program

namespace Storage

/-! ### The last segment -/

/-- The segment is taken to be sealed, but has no records. -/
def Segment.Stuck (s : Segment) : Prop := s.isSealed = true ∧ s.nextOffset = s.baseOffset

instance (s : Segment) : Decidable s.Stuck :=
  inferInstanceAs (Decidable (_ ∧ _))

theorem Segment.not_stuck_of_open {s : Segment} (h : s.isSealed = false) :
  ¬ s.Stuck
  := by
  rintro ⟨hsealed, -⟩
  rw [h] at hsealed
  exact nomatch hsealed

/-- The file is neither empty nor of full size, and starts with no record. -/
def File.Strands (base maxBytes : ℕ) (f : File) : Prop :=
  0 < f.bytes.length ∧ f.bytes.length < maxBytes ∧ Stops base f.bytes

instance (base maxBytes : ℕ) (f : File) : Decidable (f.Strands base maxBytes) :=
  inferInstanceAs (Decidable (_ ∧ _ ∧ _))

/-- What is known of the last segment of a log, whatever its file contained when it was
opened. -/
structure Handle.Formed (maxBytes : ℕ) (h : Handle) : Prop where
  ordered : h.seg.baseOffset ≤ h.seg.nextOffset
  start : h.seg.nextOffset = h.seg.baseOffset → h.seg.writePos = 0
  opened : h.seg.isSealed = false →
    h.seg.mappedLen = maxBytes ∧ maxBytes ≤ h.file.bytes.length
  stuck : h.seg.Stuck → h.file.Strands h.seg.baseOffset maxBytes

theorem Segment.constructed_isSealed_iff (base maxBytes : ℕ) (file : Option File) :
  (constructed base maxBytes file).isSealed = true ↔ TakenAsSealed maxBytes file
  := by
  rw [constructed]
  split
  · rename_i hs
    exact ⟨fun _ => hs, fun _ => rfl⟩
  · rename_i hs
    exact ⟨Bool.noConfusion, fun h => absurd h hs⟩

/-- A segment that is taken to be sealed replays its whole file. -/
theorem Segment.TakenAsSealed.toTally_eq {maxBytes : ℕ} {f : File}
    (hs : TakenAsSealed maxBytes (some f)) (base : ℕ) :
  (constructed base maxBytes (some f)).toTally = replay f.bytes (Tally.start base)
  := by
  rw [(constructed_toTally base maxBytes (some f)).1, constructedFile, if_neg hs.not_resizes,
    constructed, if_pos hs]
  simp only [mapping, Option.getD_some, List.take_length]

/-- A segment is stuck after its construction if its file makes it so. -/
theorem Segment.constructed_stuck_iff (base maxBytes : ℕ) (file : Option File) :
  (constructed base maxBytes file).Stuck ↔ ∃ f, file = some f ∧ f.Strands base maxBytes
  := by
  rw [Stuck, constructed_isSealed_iff, constructed_baseOffset]
  constructor
  · rintro ⟨hs, hnext⟩
    obtain ⟨f, rfl⟩ := Option.isSome_iff_exists.mp hs.1
    rw [hs.toTally_eq] at hnext
    have hdata : f.bytes = frames base [] ++ f.bytes := rfl
    refine ⟨f, rfl, hs.2.1, hs.2.2, ?_⟩
    exact (replay_nextOffset_iff hdata (fun _ _ hnone => nomatch hnone)).mp hnext
  · rintro ⟨f, rfl, hpos, hlt, hstop⟩
    have hs : TakenAsSealed maxBytes (some f) := ⟨rfl, hpos, hlt⟩
    have hdata : f.bytes = frames base [] ++ f.bytes := rfl
    refine ⟨hs, ?_⟩
    rw [hs.toTally_eq]
    exact (replay_nextOffset_iff hdata (fun _ _ hnone => nomatch hnone)).mpr hstop

theorem Segment.constructed_formed (base maxBytes : ℕ) (file : Option File) :
  Handle.Formed maxBytes ⟨constructedFile maxBytes file, constructed base maxBytes file⟩
  := by
  obtain ⟨htally, -⟩ := constructed_toTally base maxBytes file
  obtain ⟨ps, rest, -, -, -, hreplay⟩ := exists_replay
    ((constructedFile maxBytes file).bytes.take (constructed base maxBytes file).mappedLen) base
  rw [hreplay] at htally
  have hnext : (constructed base maxBytes file).nextOffset = base + ps.length := by
    rw [htally, Tally.after_nextOffset]
    rfl
  constructor
  · simp only [hnext, constructed_baseOffset]
    omega
  · intro hstart
    simp only [hnext, constructed_baseOffset, Nat.add_eq_left, List.length_eq_zero_iff] at hstart
    simp only [htally, hstart]
    rfl
  · exact constructed_mapped
  · intro hstuck
    obtain ⟨f, rfl, hf⟩ := (constructed_stuck_iff base maxBytes file).mp hstuck
    have hs : TakenAsSealed maxBytes (some f) := ⟨rfl, hf.1, hf.2.1⟩
    simp only [constructed_baseOffset, constructedFile, if_neg hs.not_resizes]
    exact hf

/-- A segment that is constructed on an empty file is open and has no records. -/
theorem Segment.constructed_empty {base maxBytes : ℕ} {file : Option File}
    (hfile : (file.getD File.empty).bytes = []) :
  (constructed base maxBytes file).isSealed = false
    ∧ (constructed base maxBytes file).writePos = 0
  := by
  constructor
  · rw [← Bool.not_eq_true, constructed_isSealed_iff]
    rintro ⟨-, hpos, -⟩
    rw [hfile] at hpos
    exact absurd hpos (Nat.lt_irrefl 0)
  · have hzeros : (file.getD File.empty).bytes = List.replicate 0 0 := hfile
    exact (constructed_zeros base maxBytes hzeros).writePos_eq

namespace Handle.Formed

variable {m : ℕ} {h : Handle}

theorem pushed (hf : h.Formed m) {p : Payload} (hfits : Fits p h.seg) :
  (h.pushed p).Formed m
  := by
  obtain ⟨hopen, hroom⟩ := hfits
  obtain ⟨hmapped, hsize⟩ := hf.opened hopen
  have hnext : (h.pushed p).seg.nextOffset = h.seg.nextOffset + 1 := Tally.advance_nextOffset _ _
  have hbase : (h.pushed p).seg.baseOffset = h.seg.baseOffset := rfl
  have hord := hf.ordered
  constructor
  · omega
  · intro hstart
    omega
  · intro _
    refine ⟨hmapped, ?_⟩
    simp only [Handle.pushed, File.write]
    rw [length_overwrite]
    · exact hsize
    · rw [length_frame]
      omega
  · exact fun hstuck => absurd hstuck (Segment.not_stuck_of_open hopen)

theorem flushed (hf : h.Formed m) :
  h.flushed.Formed m
  := by
  rw [Handle.flushed]
  split
  · exact ⟨hf.ordered, hf.start, hf.opened, hf.stuck⟩
  · exact hf

end Handle.Formed

/-! ### The log -/

namespace Log

/-- The last segment is the last in the directory, and is formed. -/
structure Formed (l : Log) : Prop extends l.Attached where
  below : ∀ k ∈ l.dir.keys, k ≤ l.back.baseOffset
  handle : l.handle.Formed l.maxSegmentBytes

variable {l : Log}

theorem Formed.putBack (h : l.Formed) {t : Handle} (ht : t.Formed l.maxSegmentBytes)
    (hbase : t.seg.baseOffset = l.back.baseOffset) :
  (l.putBack t).Formed
  := by
  refine ⟨h.toAttached.putBack hbase, ?_, ?_⟩
  · intro k hk
    rw [Log.putBack, h.sorted.keys_put_of_mem h.mem] at hk
    exact (h.below k hk).trans hbase.ge
  · rw [handle_putBack hbase]
    exact ht

theorem Formed.pushed (h : l.Formed) {p : Payload} (hfits : Handle.Fits p l.back) :
  (l.pushed p).Formed
  := h.putBack (h.handle.pushed hfits) rfl

theorem Formed.flushedBack (h : l.Formed) :
  l.flushedBack.Formed
  := by
  apply h.putBack h.handle.flushed
  rw [Handle.flushed_seg]
  rfl

theorem rolledOver_baseOffset (l : Log) :
  l.rolledOver.back.baseOffset = l.back.nextOffset
  := by
  rw [Log.rolledOver, rolled, Segment.constructed_baseOffset, sealedBack_nextOffset]

/-- The file of a new segment is the one that it has constructed. -/
theorem rolledOver_handle (l : Log) :
  l.rolledOver.handle
    = ⟨Segment.constructedFile l.maxSegmentBytes
        (l.sealedBack.dir.find? l.sealedBack.back.nextOffset), l.rolledOver.back⟩
  := by
  rw [Log.handle, rolledOver_baseOffset, ← sealedBack_nextOffset, file, Log.rolledOver, rolled,
    SortedMap.find?_put_self, Option.getD_some]
  rfl

/-- Whatever a new segment finds, the log is formed. -/
theorem Formed.rolledOver (h : l.Formed) :
  l.rolledOver.Formed
  := by
  have hord : l.back.baseOffset ≤ l.back.nextOffset := h.handle.ordered
  refine ⟨h.toAttached.sealedBack.rolled, ?_, ?_⟩
  · intro k hk
    rw [rolledOver_baseOffset]
    rcases SortedMap.mem_keys_put.mp hk with hk | hk
    · rw [hk, sealedBack_nextOffset]
    · rw [sealedBack, Log.putBack, h.sorted.keys_put_of_mem h.mem] at hk
      exact (h.below k hk).trans hord
  · rw [rolledOver_handle]
    apply Segment.constructed_formed

/-- A new segment finds nothing, unless the last segment is stuck. -/
theorem Formed.find?_next (h : l.Formed) (hstuck : ¬ l.back.Stuck) :
  ((l.sealedBack.dir.find? l.sealedBack.back.nextOffset).getD File.empty).bytes = []
  := by
  have hord : l.back.baseOffset ≤ l.back.nextOffset := h.handle.ordered
  rw [sealedBack_nextOffset]
  by_cases heq : l.back.nextOffset = l.back.baseOffset
  · -- The file of the last segment, cut down to no bytes when it was sealed.
    have hopen : l.back.isSealed = false := by
      rw [← Bool.not_eq_true]
      exact fun hsealed => hstuck ⟨hsealed, heq⟩
    have hpos : l.back.writePos = 0 := h.handle.start heq
    simp [heq, sealedBack, Log.putBack, Handle.sealed, Log.handle, hopen, hpos, File.truncate,
      resize]
  · have hkey : l.back.nextOffset ∉ l.sealedBack.dir.keys := by
      rw [sealedBack, Log.putBack, h.sorted.keys_put_of_mem h.mem]
      intro hmem
      have := h.below _ hmem
      omega
    rw [SortedMap.find?_eq_none hkey]
    rfl

/-- After a roll the last segment is stuck only if it was before; otherwise it is open and has no
records. -/
theorem Formed.rolledOver_back (h : l.Formed) :
  if l.back.Stuck then l.rolledOver.back.Stuck
  else l.rolledOver.back.isSealed = false ∧ l.rolledOver.back.writePos = 0
  := by
  split
  · rename_i hstuck
    obtain ⟨f, hf⟩ := SortedMap.find?_of_mem_keys h.mem
    have hfile : l.file l.back.baseOffset = f := by
      rw [file, hf]
      rfl
    have hstrands := h.handle.stuck hstuck
    have hsealed : l.sealedBack = l := by
      rw [sealedBack, Handle.sealed, if_pos (show l.handle.seg.isSealed = true from hstuck.1),
        h.putBack_handle]
    rw [Log.rolledOver, rolled, hsealed, Segment.constructed_stuck_iff, hstuck.2]
    refine ⟨f, hf, ?_⟩
    rw [← hfile]
    exact hstrands
  · rename_i hstuck
    exact Segment.constructed_empty (h.find?_next hstuck)

/-- A new segment has no records yet, unless the last one is stuck. -/
theorem Formed.rolledOver_nextOffset (h : l.Formed) (hstuck : ¬ l.back.Stuck) :
  l.rolledOver.back.nextOffset = l.back.nextOffset
  := by
  have hcontains : Handle.Contains ⟨_, l.rolledOver.back⟩ [] :=
    Segment.constructed_zeros (z := 0) _ _ (h.find?_next hstuck)
  exact hcontains.nextOffset_eq.trans l.rolledOver_baseOffset

/-- An append succeeds if and only if the record is not too large and the log not stuck, and it
leaves no log stuck that was not before. -/
theorem Formed.wp_appendRolling (h : l.Formed) (p : Payload) :
  wp (fun _ => True) (appendRolling p)
    (fun r t => t.Formed ∧ t.maxSegmentBytes = l.maxSegmentBytes
      ∧ (t.back.Stuck → l.back.Stuck)
      ∧ ((∃ o, r = .ok o) ↔ kRecordHeaderSize + p.len ≤ l.maxSegmentBytes ∧ ¬ l.back.Stuck)) l
  := by
  rw [wp_appendRolling_final h.toAttached]
  split
  · rename_i hfits
    obtain ⟨hopen, hroom⟩ := hfits
    have hmapped : l.back.mappedLen = l.maxSegmentBytes := (h.handle.opened hopen).1
    have hfree := Segment.not_stuck_of_open hopen
    refine ⟨h.pushed ⟨hopen, hroom⟩, rfl, ?_, ?_⟩
    · exact fun hstuck => absurd hstuck (Segment.not_stuck_of_open hopen)
    · exact ⟨fun _ => ⟨by omega, hfree⟩, fun _ => ⟨_, rfl⟩⟩
  · have hroll := h.rolledOver_back
    by_cases hstuck : l.back.Stuck
    · rw [if_pos hstuck] at hroll
      have hfull : ¬ Handle.Fits p l.rolledOver.back :=
        fun hfits => Segment.not_stuck_of_open hfits.1 hroll
      rw [if_neg hfull]
      refine ⟨h.rolledOver, rfl, fun _ => hstuck, ?_⟩
      simp [hstuck]
    · rw [if_neg hstuck] at hroll
      obtain ⟨hopen, hpos⟩ := hroll
      have hmapped : l.rolledOver.back.mappedLen = l.maxSegmentBytes :=
        (h.rolledOver.handle.opened hopen).1
      split
      · rename_i hfits
        have hroom := hfits.2
        refine ⟨h.rolledOver.pushed hfits, rfl, ?_, ?_⟩
        · exact fun hst => absurd hst (Segment.not_stuck_of_open hopen)
        · exact ⟨fun _ => ⟨by omega, hstuck⟩, fun _ => ⟨_, rfl⟩⟩
      · rename_i hfull
        refine ⟨h.rolledOver, rfl, fun hst => absurd hst (Segment.not_stuck_of_open hopen), ?_⟩
        constructor
        · exact fun ⟨_, herr⟩ => nomatch herr
        · rintro ⟨hle, -⟩
          exact absurd ⟨hopen, by omega⟩ hfull

/-- The next offset that a log has stored does not matter. -/
theorem Formed.of_eq (h : l.Formed) {t : Log} (hdir : t.dir = l.dir)
    (hmax : t.maxSegmentBytes = l.maxSegmentBytes) (hback : t.back = l.back) :
  t.Formed
  := by
  obtain ⟨dir, max, older, back, next, calls⟩ := t
  obtain rfl : dir = l.dir := hdir
  obtain rfl : max = l.maxSegmentBytes := hmax
  obtain rfl : back = l.back := hback
  exact ⟨⟨h.sorted, h.mem⟩, h.below, h.handle⟩

/-- What the steps of the operations keep: appending to the last segment or to a new one, forcing
the last segment to the device, and counting. -/
structure Kept (I : Log → Prop) : Prop where
  attached : ∀ t, I t → t.Attached
  rolling : ∀ p, Preserves I (appendRolling p)
  flushedBack : ∀ t, I t → I t.flushedBack
  counters : ∀ t nextOffset flushCalls, I t → I { t with nextOffset, flushCalls }

namespace Kept

variable {I : Log → Prop}

/-- What is appended to a new segment is appended after a roll. -/
theorem of_steps (attached : ∀ t, I t → t.Attached)
    (pushed : ∀ t p, Handle.Fits p t.back → I t → I (t.pushed p))
    (rolledOver : ∀ t, I t → I t.rolledOver) (flushedBack : ∀ t, I t → I t.flushedBack)
    (counters : ∀ t nextOffset flushCalls, I t → I { t with nextOffset, flushCalls }) :
  Kept I
  := by
  refine ⟨attached, fun p => ?_, flushedBack, counters⟩
  apply Preserves.of_wp
  intro t ht
  rw [wp_appendRolling_final (attached t ht)]
  split
  · rename_i hfits
    exact pushed t p hfits ht
  · split
    · rename_i hfits
      exact pushed _ p hfits (rolledOver t ht)
    · exact rolledOver t ht

theorem flush {ε : Type} (h : Kept I) :
  Preserves I (flush : Program Log ε Unit)
  := by
  apply Preserves.bind
  · apply Preserves.of_wp
    intro t ht
    rw [wp_onBack_flush (h.attached t ht)]
    exact ⟨fun _ => trivial, h.flushedBack t ht⟩
  · exact fun _ => preserves_update (fun t ht => h.counters t _ _ ht)

theorem append (h : Kept I) (p : Payload) :
  Preserves I (append p)
  := by
  apply (h.rolling p).bind
  intro o
  apply Preserves.bind
  · exact preserves_update (fun t ht => h.counters t _ _ ht)
  · exact fun _ => preserves_pure o

theorem appendBatch (h : Kept I) (payloads : List (List UInt8)) (flushAfter : Bool) :
  Preserves I (appendBatch payloads flushAfter)
  := by
  have hstore : ∀ t : Log, I t → I t.storeNextOffset := fun t ht => h.counters t _ _ ht
  refine (preserves_gets _).bind (fun m => ?_)
  split
  · exact preserves_raise _
  · refine (preserves_gets _).bind (fun first => ?_)
    split
    · exact preserves_pure first
    · apply Preserves.bind
      · apply Preserves.onError _ hstore
        apply Preserves.forEach
        exact fun p => (h.rolling _).bind (fun _ => preserves_pure _)
      · intro _
        refine (preserves_update hstore).bind (fun _ => ?_)
        cases flushAfter with
        | false => exact preserves_pure first
        | true => exact h.flush.bind (fun _ => preserves_pure first)

/-- Every operation keeps it, whether it throws or not. -/
theorem perform (h : Kept I) (op : Op) :
  Preserves I op.perform
  := by
  cases op with
  | append p => exact (h.append p).bind (fun _ => preserves_pure _)
  | appendBatch payloads flushAfter =>
      exact (h.appendBatch payloads flushAfter).bind (fun _ => preserves_pure _)
  | flush => exact h.flush.bind (fun _ => preserves_pure _)
  | read o => exact (preserves_gets _).bind (fun _ => preserves_pure _)

theorem run (h : Kept I) (ops : List Op) (t : Log) (ht : I t) :
  I (t.run ops)
  := by
  induction ops generalizing t with
  | nil => exact ht
  | cons op ops ih =>
      apply ih
      exact h.perform op t ht

end Kept

/-- What every operation keeps: the log is formed, of the same size, and stuck only if it was. -/
structure Keeps (l t : Log) : Prop where
  formed : t.Formed
  size : t.maxSegmentBytes = l.maxSegmentBytes
  stuck : t.back.Stuck → l.back.Stuck

theorem Keeps.of_eq {t u : Log} (h : l.Keeps t) (hdir : u.dir = t.dir)
    (hmax : u.maxSegmentBytes = t.maxSegmentBytes) (hback : u.back = t.back) :
  l.Keeps u
  := ⟨h.formed.of_eq hdir hmax hback, hmax.trans h.size, by rw [hback]; exact h.stuck⟩

theorem Formed.keeps_self (h : l.Formed) :
  l.Keeps l
  := ⟨h, rfl, id⟩

theorem kept_keeps (l : Log) :
  Kept l.Keeps
  := by
  constructor
  · exact fun _ h => h.formed.toAttached
  · intro p
    apply Preserves.of_wp
    intro t h
    apply wp_mono (h.formed.wp_appendRolling p)
    · exact fun _ hc => hc
    · rintro r u ⟨hu, hsize, hstuck, -⟩
      exact ⟨hu, hsize.trans h.size, fun hst => h.stuck (hstuck hst)⟩
  · intro t h
    refine ⟨h.formed.flushedBack, h.size, ?_⟩
    rw [flushedBack_back]
    exact h.stuck
  · exact fun _ _ _ h => h.of_eq rfl rfl rfl

/-- An append succeeds if and only if the record is not too large and the log is not stuck. -/
theorem Formed.append_ok_iff (h : l.Formed) (p : Payload) :
  (∃ o, (append p l).value = .ok o)
    ↔ kRecordHeaderSize + p.len ≤ l.maxSegmentBytes ∧ ¬ l.back.Stuck
  := by
  suffices hwp : wp (fun _ => True) (append p) (fun r _ => (∃ o, r = .ok o)
      ↔ kRecordHeaderSize + p.len ≤ l.maxSegmentBytes ∧ ¬ l.back.Stuck) l from wp_final hwp
  rw [append, wp_bind]
  apply wp_mono (h.wp_appendRolling p)
  · exact fun _ hc => hc
  · rintro r t ⟨-, -, -, hiff⟩
    cases r with
    | error e => exact hiff
    | ok o =>
        simp only [orElse_ok, wp_bind, wp_update, wp_pure]
        exact hiff

/-- The last segment of a log after it was reopened is made of the last file. -/
theorem Formed.recover_handle (h : l.Formed) (m : ℕ) :
  (recover m l.dir).handle = reopened m (l.back.baseOffset, l.file l.back.baseOffset)
    ∧ (recover m l.dir).dir.keys = l.dir.keys
    ∧ (recover m l.dir).maxSegmentBytes = m
    ∧ (recover m l.dir).nextOffset = (recover m l.dir).back.nextOffset
  := by
  obtain ⟨es, f, hdir⟩ := h.sorted.eq_concat h.mem h.below
  have hsorted : SortedMap.Sorted (es ++ [(l.back.baseOffset, f)]) := hdir ▸ h.sorted
  have hfile : l.file l.back.baseOffset = f := by
    rw [file, hdir, hsorted.find?_mid]
    rfl
  rw [hfile, hdir]
  refine ⟨Log.recover_handle m hsorted, recover_keys m hsorted, ?_, ?_⟩
  · rw [recover_eq m hsorted]
  · rw [recover_eq m hsorted]

/-- Reopening a log leaves it formed, and stuck if the file of the last segment makes it so. -/
theorem Formed.recover (h : l.Formed) (m : ℕ) :
  (recover m l.dir).Formed ∧ (recover m l.dir).maxSegmentBytes = m
    ∧ ((recover m l.dir).back.Stuck
      ↔ (l.file l.back.baseOffset).Strands l.back.baseOffset m)
  := by
  obtain ⟨hhandle, hkeys, hmax, -⟩ := h.recover_handle m
  have hback : (Log.recover m l.dir).back
      = Segment.constructed l.back.baseOffset m (some (l.file l.back.baseOffset)) :=
    congrArg Handle.seg hhandle
  have hbase : (Log.recover m l.dir).back.baseOffset = l.back.baseOffset := by
    rw [hback, Segment.constructed_baseOffset]
  refine ⟨⟨⟨?_, ?_⟩, ?_, ?_⟩, hmax, ?_⟩
  · rw [SortedMap.Sorted, hkeys]
    exact h.sorted
  · rw [hbase, hkeys]
    exact h.mem
  · rw [hbase, hkeys]
    exact h.below
  · rw [hhandle, hmax]
    apply Segment.constructed_formed
  · rw [hback, Segment.constructed_stuck_iff]
    simp

end Log

/-! ### Sessions -/

/-- A step in the life of a directory. -/
inductive Session where
  /-- An operation on the log. -/
  | op (op : Op)
  /-- The log is closed, and the directory reopened with the given size. -/
  | reopen (maxSegmentBytes : ℕ)

/-- The step keeps the size of segments. -/
def Session.KeepsSize (m : ℕ) : Session → Prop
  | .op _ => True
  | .reopen maxSegmentBytes => maxSegmentBytes = m

instance (m : ℕ) (s : Session) : Decidable (s.KeepsSize m) :=
  match s with
  | .op _ => .isTrue trivial
  | .reopen maxSegmentBytes => inferInstanceAs (Decidable (maxSegmentBytes = m))

namespace Log

/-- The log after a step. -/
def after (l : Log) : Session → Log
  | .op op => (op.perform l).final
  | .reopen maxSegmentBytes => recover maxSegmentBytes l.dir

/-- The log after some steps. -/
def afterAll (l : Log) (ss : List Session) : Log := ss.foldl after l

/-- The states that are reached in the course of some steps. -/
def reached (l : Log) : List Session → List Log
  | [] => [l]
  | s :: ss => l :: (l.after s).reached ss

theorem mem_reached_self (l : Log) (ss : List Session) :
  l ∈ l.reached ss
  := by
  cases ss with
  | nil => exact List.mem_singleton_self l
  | cons s ss => exact List.mem_cons_self

/-- The log accepts the records that are not too large, and throws for the others. -/
def Available (l : Log) : Prop :=
  ∀ p : Payload, (∃ o, (append p l).value = .ok o)
    ↔ kRecordHeaderSize + p.len ≤ l.maxSegmentBytes

/-- Reopening the log with the given size leaves it stuck, and there are records that are not too
large. -/
def StrandedBy (l : Log) (maxSegmentBytes : ℕ) : Prop :=
  (l.file l.back.baseOffset).Strands l.back.baseOffset maxSegmentBytes
    ∧ kRecordHeaderSize ≤ maxSegmentBytes

instance (l : Log) (maxSegmentBytes : ℕ) : Decidable (l.StrandedBy maxSegmentBytes) :=
  inferInstanceAs (Decidable (_ ∧ _))

/-- No reopening among the steps strands the log. -/
def NeverStranded (l : Log) : List Session → Prop
  | [] => True
  | .op op :: ss => (l.after (.op op)).NeverStranded ss
  | .reopen m :: ss => ¬ l.StrandedBy m ∧ (l.after (.reopen m)).NeverStranded ss

variable {l : Log}

theorem Formed.available_iff (h : l.Formed) :
  l.Available ↔ ¬ (l.back.Stuck ∧ kRecordHeaderSize ≤ l.maxSegmentBytes)
  := by
  constructor
  · rintro havailable ⟨hstuck, hsize⟩
    -- Not even an empty record is accepted.
    have hiff := (h.append_ok_iff ⟨[], by decide⟩).symm.trans (havailable ⟨[], by decide⟩)
    exact (hiff.mpr hsize).2 hstuck
  · intro hfree p
    rw [h.append_ok_iff]
    constructor
    · exact fun hok => hok.1
    · exact fun hle => ⟨hle, fun hstuck => hfree ⟨hstuck, by omega⟩⟩

theorem Formed.reopen_available_iff (h : l.Formed) (m : ℕ) :
  (Log.recover m l.dir).Available ↔ ¬ l.StrandedBy m
  := by
  obtain ⟨hformed, hmax, hstuck⟩ := h.recover m
  rw [hformed.available_iff, hmax, hstuck]
  rfl

theorem Formed.reached_available_iff (h : l.Formed) (havailable : l.Available)
    (ss : List Session) :
  (∀ t ∈ l.reached ss, t.Available) ↔ l.NeverStranded ss
  := by
  induction ss generalizing l with
  | nil => simp [reached, NeverStranded, havailable]
  | cons s ss ih =>
      rw [reached, List.forall_mem_cons, and_iff_right havailable]
      cases s with
      | op op =>
          have hkeep := l.kept_keeps.perform op l h.keeps_self
          apply ih hkeep.formed
          rw [hkeep.formed.available_iff, hkeep.size]
          exact fun hstuck => h.available_iff.mp havailable ⟨hkeep.stuck hstuck.1, hstuck.2⟩
      | reopen m =>
          rw [NeverStranded, ← h.reopen_available_iff m]
          constructor
          · intro hreached
            have hhead := hreached _ (mem_reached_self _ _)
            exact ⟨hhead, (ih (h.recover m).1 hhead).mp hreached⟩
          · rintro ⟨hhead, hnever⟩
            exact (ih (h.recover m).1 hhead).mpr hnever

theorem fresh_formed (m : ℕ) :
  (fresh m).Formed
  := by
  have hnew := Segment.constructed_formed 0 m none
  rw [fresh_eq]
  refine ⟨⟨?_, ?_⟩, ?_, hnew⟩
  · simp [SortedMap.Sorted, SortedMap.keys]
  · simp [SortedMap.keys]
  · simp [SortedMap.keys]

/-- In every run from a fresh directory, all states that are reached accept exactly the records
that are not too large, if and only if no reopening finds in the last segment a file that is
shorter than the new size and starts with no record. -/
theorem available_iff_never_stranded (m : ℕ) (ss : List Session) :
  (∀ l ∈ (fresh m).reached ss, l.Available) ↔ (fresh m).NeverStranded ss
  := by
  apply (fresh_formed m).reached_available_iff
  rw [(fresh_formed m).available_iff, fresh_eq]
  rintro ⟨⟨hsealed, -⟩, -⟩
  exact nomatch hsealed

/-- After an append the log can be reopened with a larger size. -/
theorem available_after_append :
  ∀ l ∈ (fresh 64).reached [.op (.append ⟨[1], by decide⟩), .reopen 128], l.Available
  := (available_iff_never_stranded 64 _).mpr ⟨by decide +kernel, trivial⟩

/-- A log that is reopened with a larger size before anything was appended accepts no record. -/
theorem reopen_empty_rejects :
  let l := recover 128 (fresh 64).dir
  l ∈ (fresh 64).reached [.reopen 128] ∧ kRecordHeaderSize + 1 ≤ l.maxSegmentBytes
    ∧ (append ⟨[1], by decide⟩ l).value = .error recordTooLarge
  := by
  refine ⟨List.mem_cons_of_mem _ (List.mem_singleton_self _), by decide, ?_⟩
  decide +kernel

end Log

end Storage
