import Cascade.Storage.Reading
import Cascade.Storage.Transition

/-!
# What a log holds

`Log.Holds l ps` says that the log `l` represents the list `ps` of all payloads that were
appended to it: its segments tile the offsets, each has counted its share of the payloads and
finds it at the start of its file, and the rest of the file is zeros. Such a log returns at each
offset the payload at that place of the list (`Holds.read_eq`). Appending to the last segment,
sealing it and adding a new one keep the representation.

A segment that was sealed without a record has the same base offset as the one behind it, which
took over its file. The segments that have a file of their own are those in `Log.live`.
-/

open Bytes Crash Crash.Program Tiling

namespace Storage

/-! ### One segment -/

/-- The segment has counted the records with payloads `ps`, and its file consists of them and
zeros. -/
structure Handle.Contains (h : Handle) (ps : List Payload) : Prop where
  tally : h.seg.toTally = (Tally.start h.seg.baseOffset).after ps
  file : ∃ z, h.file.bytes = frames h.seg.baseOffset ps ++ List.replicate z 0

namespace Handle.Contains

variable {h : Handle} {ps : List Payload}

theorem nextOffset_eq (hc : h.Contains ps) :
  h.seg.nextOffset = h.seg.baseOffset + ps.length
  := by
  rw [hc.tally, Tally.after_nextOffset]
  rfl

theorem writePos_eq (hc : h.Contains ps) :
  h.seg.writePos = (frames h.seg.baseOffset ps).length
  := by
  rw [hc.tally, Tally.after_writePos _ h.seg.baseOffset]
  apply Nat.zero_add

theorem pushed (hc : h.Contains ps) (p : Payload) :
  (h.pushed p).Contains (ps ++ [p])
  := by
  obtain ⟨z, hz⟩ := hc.file
  constructor
  · rw [Tally.after_concat]
    simp only [Handle.pushed, Segment.advance]
    rw [hc.tally]
  · use z - (frame h.seg.nextOffset p).length
    simp only [Handle.pushed, Segment.advance, File.write]
    rw [hz, hc.writePos_eq, overwrite_append, List.drop_replicate, frames_concat,
      ← hc.nextOffset_eq, List.append_assoc]

theorem sealed (hc : h.Contains ps) :
  h.sealed.Contains ps
  := by
  rw [Handle.sealed]
  split
  · exact hc
  · obtain ⟨z, hz⟩ := hc.file
    constructor
    · exact hc.tally
    · use 0
      simp only [File.truncate, File.msync]
      rw [hz, hc.writePos_eq, resize_append, List.replicate_zero, List.append_nil]

/-- Only the bytes of the file matter. -/
theorem of_bytes_eq (hc : h.Contains ps) {f : File} (hf : f.bytes = h.file.bytes) :
  Handle.Contains ⟨f, h.seg⟩ ps
  := by
  constructor
  · exact hc.tally
  · simpa only [hf] using hc.file

/-- Reading finds the record with the target as its offset. -/
theorem read_eq (hc : h.Contains ps) {target : ℕ} (hbase : h.seg.baseOffset ≤ target)
    (htarget : target < 2 ^ 64) :
  h.read target = ps[target - h.seg.baseOffset]?.map (fun p => ⟨target, p.bytes⟩)
  := by
  obtain ⟨z, hz⟩ := hc.file
  rw [Handle.read, hc.tally]
  apply readFrom_hint hz hbase htarget

end Handle.Contains

/-- The segment that the constructor makes of a file of zeros. -/
theorem Segment.constructed_zeros {file : Option File} {z : ℕ} (base maxBytes : ℕ)
    (hfile : (file.getD File.empty).bytes = List.replicate z 0) :
  Handle.Contains ⟨constructedFile maxBytes file, constructed base maxBytes file⟩ []
  := by
  have hzeros : ∀ k n, replay ((List.replicate k 0).take n) (Tally.start base)
      = (Tally.start base).after [] := by
    intro k n
    rw [List.take_replicate]
    apply replay_of_stops
    rw [List.drop_replicate]
    apply stops_zeros
  have hbytes : ∃ k, (constructedFile maxBytes file).bytes = List.replicate k 0 := by
    rw [constructedFile]
    split
    · simp only [File.truncate, hfile, resize, List.take_replicate, List.length_replicate,
        List.replicate_append_replicate]
      exact ⟨_, rfl⟩
    · exact ⟨z, hfile⟩
  obtain ⟨k, hk⟩ := hbytes
  constructor
  · simp only [constructed]
    split
    · simp only [mapping, hfile]
      apply hzeros
    · simp only [mapping, hk]
      apply hzeros
  · use k
    exact hk

@[simp]
theorem Segment.constructed_baseOffset (base maxBytes : ℕ) (file : Option File) :
  (constructed base maxBytes file).baseOffset = base
  := by
  rw [constructed]
  split
  · rfl
  · rfl

/-- A segment that the constructor leaves open maps the full size, and its file has it. -/
theorem Segment.constructed_mapped {base maxBytes : ℕ} {file : Option File}
    (h : (constructed base maxBytes file).isSealed = false) :
  (constructed base maxBytes file).mappedLen = maxBytes
    ∧ maxBytes ≤ (constructedFile maxBytes file).bytes.length
  := by
  have hsealed : ¬ TakenAsSealed maxBytes file := by
    intro hs
    simp [constructed, hs, mapping] at h
  constructor
  · simp [constructed, hsealed, mapping]
  · rw [constructedFile]
    split
    · simp [File.truncate]
    · rename_i hkeep
      apply (size_of_not_sealed hsealed hkeep).2

/-! ### A whole log -/

/-- The payloads with the offsets from the base offset of a segment up to its next offset. -/
def Segment.share (s : Segment) (ps : List Payload) : List Payload :=
  slice ps s.baseOffset (s.nextOffset - s.baseOffset)

namespace Log

/-- The segments that have a file of their own. -/
def live (l : Log) : List Segment :=
  l.older.filter (fun s => s.baseOffset < s.nextOffset) ++ [l.back]

/-- The log represents the list of payloads. -/
structure Holds (l : Log) (ps : List Payload) : Prop where
  /-- The segments tile the offsets. -/
  tiles : Tiles (fun s => s.baseOffset) (fun s => s.nextOffset) 0 l.segments ps.length
  /-- The files are those of the live segments. -/
  keys : l.dir.keys = l.live.map (fun s => s.baseOffset)
  /-- Every live segment has its share. -/
  contains : ∀ s ∈ l.live, Handle.Contains ⟨l.file s.baseOffset, s⟩ (s.share ps)
  /-- No share exceeds the size of a segment. -/
  room : ∀ s ∈ l.live, s.writePos ≤ l.maxSegmentBytes
  /-- The last segment is mapped in full while it is open. -/
  mapped : l.back.isSealed = false → l.back.mappedLen = l.maxSegmentBytes
    ∧ l.maxSegmentBytes ≤ (l.file l.back.baseOffset).bytes.length

theorem back_mem_live (l : Log) :
  l.back ∈ l.live
  := by
  simp [live]

variable {s : Segment}

theorem mem_live {l : Log} :
  s ∈ l.live ↔ (s ∈ l.older ∧ s.baseOffset < s.nextOffset) ∨ s = l.back
  := by
  simp [live]

theorem live_subset {l : Log} (hs : s ∈ l.live) :
  s ∈ l.segments
  := by
  rw [segments, List.mem_append, List.mem_singleton]
  rcases mem_live.mp hs with h | h
  · exact .inl h.1
  · exact .inr h

namespace Holds

variable {l : Log} {ps qs : List Payload}

/-- The older segments end where the last one starts. -/
theorem split (h : l.Holds ps) :
  Tiles (fun s => s.baseOffset) (fun s => s.nextOffset) 0 l.older l.back.baseOffset
    ∧ l.back.baseOffset ≤ l.back.nextOffset ∧ l.back.nextOffset = ps.length
  := by
  obtain ⟨c, holder, hbase, hle, hnext⟩ := tiles_append.mp h.tiles
  subst hbase
  exact ⟨holder, hle, hnext⟩

theorem back_nextOffset (h : l.Holds ps) :
  l.back.nextOffset = ps.length
  := h.split.2.2

theorem back_baseOffset_le (h : l.Holds ps) :
  l.back.baseOffset ≤ ps.length
  := by
  obtain ⟨-, hle, hnext⟩ := h.split
  omega

/-- What a live segment has counted. -/
theorem toTally_eq (h : l.Holds ps) (hs : s ∈ l.live) :
  s.toTally = (Tally.start s.baseOffset).after (s.share ps)
  := (h.contains s hs).tally

theorem nextOffset_eq (h : l.Holds ps) (hs : s ∈ l.live) :
  s.nextOffset = s.baseOffset + (s.share ps).length
  := (h.contains s hs).nextOffset_eq

theorem writePos_eq (h : l.Holds ps) (hs : s ∈ l.live) :
  s.writePos = (frames s.baseOffset (s.share ps)).length
  := (h.contains s hs).writePos_eq

/-- The file of a live segment. -/
theorem exists_zeros (h : l.Holds ps) (hs : s ∈ l.live) :
  ∃ z, (l.file s.baseOffset).bytes
    = frames s.baseOffset (s.share ps) ++ List.replicate z 0
  := (h.contains s hs).file

theorem share_back (h : l.Holds ps) :
  l.back.share ps = ps.drop l.back.baseOffset
  := by
  have := h.split
  apply slice_eq_drop
  omega

theorem contains_back (h : l.Holds ps) :
  l.handle.Contains (ps.drop l.back.baseOffset)
  := by
  rw [← h.share_back]
  apply h.contains _ l.back_mem_live

theorem back_writePos (h : l.Holds ps) (hle : l.back.nextOffset ≤ l.back.baseOffset) :
  l.back.writePos = 0
  := by
  have hpos := h.contains_back.writePos_eq
  have hnil : ps.drop l.back.baseOffset = [] := by
    rw [List.drop_eq_nil_iff, ← h.back_nextOffset]
    exact hle
  rw [hnil] at hpos
  exact hpos

/-- The base offsets of the live segments increase. -/
theorem sorted (h : l.Holds ps) :
  l.dir.Sorted
  := by
  rw [SortedMap.Sorted, h.keys, List.pairwise_map]
  obtain ⟨holder, -⟩ := h.split
  rw [live, List.pairwise_append]
  refine ⟨?_, List.pairwise_singleton _ _, ?_⟩
  · rw [List.pairwise_filter]
    apply holder.pairwise.imp
    intro s t hst hs _
    simp only [decide_eq_true_eq] at hs
    omega
  · intro s hs t ht
    obtain ⟨hs, hlt⟩ := List.mem_filter.mp hs
    rw [List.mem_singleton.mp ht]
    have := (holder.bounds hs).2.2
    simp only [decide_eq_true_eq] at hlt
    omega

theorem attached (h : l.Holds ps) :
  l.Attached
  := by
  constructor
  · exact h.sorted
  · rw [h.keys]
    apply List.mem_map_of_mem l.back_mem_live

/-- A segment in front of the last one starts and ends before it. -/
theorem older_bounds (h : l.Holds ps) (hs : s ∈ l.older) :
  s.baseOffset ≤ s.nextOffset ∧ s.nextOffset ≤ l.back.baseOffset
  := (h.split.1.bounds hs).2

/-- The live segments tile the offsets as well. -/
theorem live_tiles (h : l.Holds ps) :
  Tiles (fun s => s.baseOffset) (fun s => s.nextOffset) 0 l.live ps.length
  := by
  obtain ⟨holder, hback⟩ := h.split
  rw [live, tiles_append]
  refine ⟨l.back.baseOffset, ?_, rfl, hback⟩
  apply holder.filter
  intro s hs hempty
  have := (h.older_bounds hs).1
  simp only [decide_eq_false_iff_not, not_lt] at hempty
  omega

/-- The first file is that of offset zero. -/
theorem zero_mem_keys (h : l.Holds ps) :
  0 ∈ l.dir.keys
  := by
  have htiles := h.live_tiles
  have hback := l.back_mem_live
  rw [h.keys]
  cases hlive : l.live with
  | nil => simp [hlive] at hback
  | cons s rest =>
      rw [hlive] at htiles
      have hbase : s.baseOffset = 0 := htiles.1
      simp [hbase]

/-- The share of a segment stays the same when more payloads follow. -/
theorem share_older (h : l.Holds ps) (hs : s ∈ l.older) (hqs : ps <+: qs) :
  s.share qs = s.share ps
  := by
  obtain ⟨rest, rfl⟩ := hqs
  have hb := h.older_bounds hs
  have := h.back_baseOffset_le
  apply slice_append_left
  omega

/-- Reading a log that holds `ps`. -/
theorem read_eq (h : l.Holds ps) {o : ℕ} (ho : o < 2 ^ 64) :
  l.read o = ps[o]?.map (fun p => ⟨o, p.bytes⟩)
  := by
  by_cases hlt : o < ps.length
  · obtain ⟨s, hs, hbase, hnext, hfind⟩ := h.tiles.elementBefore_of_lt (Nat.zero_le o) hlt
    have hlive : s ∈ l.live := by
      rcases List.mem_append.mp hs with hs | hs
      · apply mem_live.mpr
        exact .inl ⟨hs, by omega⟩
      · rw [List.mem_singleton.mp hs]
        exact l.back_mem_live
    have hread := (h.contains s hlive).read_eq hbase ho
    rw [read, hfind]
    simp only [hread]
    rw [Segment.share, getElem?_slice (by omega), Nat.add_sub_cancel' hbase]
  · have hfind := h.tiles.elementBefore_of_le (Nat.not_lt.mp hlt)
    have hbase := h.back_baseOffset_le
    have hread := h.contains_back.read_eq (by simp only [handle]; omega) ho
    have hlast : l.segments.getLast? = some l.back := by simp [segments]
    have hnone : ps[o]? = none := List.getElem?_eq_none (by omega)
    rw [read, hfind, hlast]
    simp only [handle] at hread
    simp only [hread]
    rw [List.getElem?_drop, Nat.add_sub_cancel' (by omega)]

/-- The stored next offset and the count of flushes do not matter. -/
theorem of_eq (h : l.Holds ps) {l' : Log} (hdir : l'.dir = l.dir)
    (hmax : l'.maxSegmentBytes = l.maxSegmentBytes) (holder : l'.older = l.older)
    (hback : l'.back = l.back) :
  l'.Holds ps
  := by
  cases l
  cases l'
  simp only at hdir hmax holder hback
  subst hdir hmax holder hback
  exact ⟨h.tiles, h.keys, h.contains, h.room, h.mapped⟩

/-- Replacing the last segment by one that holds more payloads. -/
theorem putBack (h : l.Holds ps) (hqs : ps <+: qs) {t : Handle}
    (hbase : t.seg.baseOffset = l.back.baseOffset)
    (hc : t.Contains (qs.drop l.back.baseOffset))
    (hroom : t.seg.writePos ≤ l.maxSegmentBytes)
    (hmapped : t.seg.isSealed = false → t.seg.mappedLen = l.maxSegmentBytes
      ∧ l.maxSegmentBytes ≤ t.file.bytes.length) :
  (l.putBack t).Holds qs
  := by
  have hle : l.back.baseOffset ≤ qs.length := by
    have := h.back_baseOffset_le
    have := hqs.length_le
    omega
  have hnext : t.seg.nextOffset = qs.length := by
    rw [hc.nextOffset_eq, List.length_drop, hbase]
    omega
  have hself : (l.putBack t).file l.back.baseOffset = t.file := by
    simp [Log.putBack, file]
  have hother : ∀ s ∈ l.older, s.baseOffset < s.nextOffset →
      (l.putBack t).file s.baseOffset = l.file s.baseOffset := by
    intro s hs hlt
    have := h.older_bounds hs
    simp only [Log.putBack, file]
    rw [SortedMap.find?_put_of_ne (by omega)]
  constructor
  case tiles =>
    rw [segments, tiles_append]
    use l.back.baseOffset
    refine ⟨h.split.1, hbase, ?_, hnext⟩
    simp only [Log.putBack]
    omega
  case keys =>
    simp only [Log.putBack, live, List.map_append, List.map_cons, List.map_nil, hbase]
    rw [h.sorted.keys_put_of_mem h.attached.mem, h.keys, live, List.map_append, List.map_cons,
      List.map_nil]
  case contains =>
    intro s hs
    rcases mem_live.mp hs with ⟨hs, hlt⟩ | rfl
    · rw [hother s hs hlt, h.share_older hs hqs]
      apply h.contains s (mem_live.mpr (.inl ⟨hs, hlt⟩))
    · have hshare : t.seg.share qs = qs.drop l.back.baseOffset := by
        rw [← hbase]
        apply slice_eq_drop
        omega
      simp only [show (l.putBack t).back = t.seg from rfl, hshare, hbase, hself]
      exact hc
  case room =>
    intro s hs
    rcases mem_live.mp hs with hs | rfl
    · apply h.room s (mem_live.mpr (.inl hs))
    · exact hroom
  case mapped =>
    simp only [show (l.putBack t).back = t.seg from rfl, hbase, hself]
    exact hmapped

/-- Appending to the last segment. -/
theorem pushed (h : l.Holds ps) {p : Payload} (hp : Handle.Fits p l.back) :
  (l.pushed p).Holds (ps ++ [p])
  := by
  obtain ⟨hopen, hfits⟩ := hp
  obtain ⟨hlen, hsize⟩ := h.mapped hopen
  apply h.putBack (List.prefix_append _ _) rfl
  · rw [List.drop_append_of_le_length h.back_baseOffset_le]
    apply h.contains_back.pushed
  · simp only [Handle.pushed, Segment.advance, Tally.advance_writePos, handle]
    omega
  · intro _
    simp only [Handle.pushed, Segment.advance, File.write, handle]
    rw [length_overwrite]
    · exact ⟨hlen, hsize⟩
    · rw [length_frame]
      omega

/-- Sealing the last segment. -/
theorem sealedBack (h : l.Holds ps) :
  l.sealedBack.Holds ps
  := by
  apply h.putBack (List.prefix_refl ps)
  · apply Handle.sealed_baseOffset
  · apply h.contains_back.sealed
  · have hroom := h.room _ l.back_mem_live
    rw [Handle.sealed]
    split
    · exact hroom
    · exact hroom
  · rw [Handle.sealed]
    split
    · exact h.mapped
    · simp

/-- Changing nothing but how many bytes of the last file are on the device. -/
theorem putBack_of_bytes_eq (h : l.Holds ps) {f : File}
    (hf : f.bytes = (l.file l.back.baseOffset).bytes) :
  (l.putBack ⟨f, l.back⟩).Holds ps
  := by
  apply h.putBack (List.prefix_refl ps) rfl
  · apply h.contains_back.of_bytes_eq hf
  · apply h.room _ l.back_mem_live
  · simp only [hf]
    exact h.mapped

/-- Forcing the last segment to the device. -/
theorem flushedBack (h : l.Holds ps) :
  l.flushedBack.Holds ps
  := by
  rw [Log.flushedBack, Handle.flushed]
  split
  · apply h.putBack_of_bytes_eq
    rfl
  · apply h.putBack_of_bytes_eq
    rfl

/-- A segment that is not empty starts before the offset behind the last record. -/
theorem baseOffset_lt (h : l.Holds ps) (hs : s ∈ l.segments) (hlt : s.baseOffset < s.nextOffset) :
  s.baseOffset < l.back.nextOffset
  := by
  have := (h.tiles.bounds hs).2.2
  rw [h.back_nextOffset]
  omega

/-- All files are named by offsets in front of the end of a last segment that is not empty. -/
theorem lt_of_mem_keys (h : l.Holds ps) (hlt : l.back.baseOffset < l.back.nextOffset) {k : ℕ}
    (hk : k ∈ l.dir.keys) :
  k < l.back.nextOffset
  := by
  rw [h.keys] at hk
  obtain ⟨s, hs, rfl⟩ := List.mem_map.mp hk
  rcases mem_live.mp hs with hs' | rfl
  · apply h.baseOffset_lt (live_subset hs) hs'.2
  · exact hlt

/-- No record stands in a file at the offset behind the last record. -/
theorem file_next (h : l.Holds ps) :
  ∃ z, ((l.dir.find? l.back.nextOffset).getD File.empty).bytes = List.replicate z 0
  := by
  by_cases hlt : l.back.baseOffset < l.back.nextOffset
  · use 0
    rw [SortedMap.find?_eq_none]
    · rfl
    · intro hmem
      have := h.lt_of_mem_keys hlt hmem
      omega
  · have heq : l.back.nextOffset = l.back.baseOffset := by
      have := h.split
      omega
    obtain ⟨z, hz⟩ := h.contains_back.file
    use z
    have hnil : ps.drop l.back.baseOffset = [] := by
      rw [List.drop_eq_nil_iff, ← heq, h.back_nextOffset]
    rw [hnil, frames_nil, List.nil_append] at hz
    rw [heq]
    exact hz

/-- Adding an empty segment with the given file behind the last one. -/
theorem addBack (h : l.Holds ps) {t : Handle} (hbase : t.seg.baseOffset = l.back.nextOffset)
    (hc : t.Contains [])
    (hmapped : t.seg.isSealed = false → t.seg.mappedLen = l.maxSegmentBytes
      ∧ l.maxSegmentBytes ≤ t.file.bytes.length) :
  ({ l with
    dir := l.dir.put l.back.nextOffset t.file
    older := l.older ++ [l.back]
    back := t.seg } : Log).Holds ps
  := by
  have hnext : t.seg.nextOffset = l.back.nextOffset := by
    rw [hc.nextOffset_eq, hbase]
    rfl
  set l' : Log := { l with
    dir := l.dir.put l.back.nextOffset t.file
    older := l.older ++ [l.back]
    back := t.seg } with hl'
  have hself : l'.file l.back.nextOffset = t.file := by
    simp [hl', file]
  -- A live segment of the new log is a segment of the old one that is not empty, or the new one.
  have hmem : ∀ s ∈ l'.live, (s ∈ l.live ∧ s.baseOffset < s.nextOffset) ∨ s = t.seg := by
    intro s hs
    rcases mem_live.mp hs with ⟨hs, hlt⟩ | hs
    · left
      refine ⟨?_, hlt⟩
      rcases List.mem_append.mp hs with hs | hs
      · apply mem_live.mpr (.inl ⟨hs, hlt⟩)
      · apply mem_live.mpr (.inr (List.mem_singleton.mp hs))
    · exact .inr hs
  constructor
  case tiles =>
    rw [segments, tiles_append]
    use ps.length
    refine ⟨h.tiles, ?_⟩
    rw [tiles_singleton, hbase, hnext, h.back_nextOffset]
    exact ⟨rfl, le_rfl, rfl⟩
  case keys =>
    rw [live, List.map_append, List.map_singleton, hbase]
    by_cases hlt : l.back.baseOffset < l.back.nextOffset
    · have hkeys : ∀ k ∈ l.dir.keys, k < l.back.nextOffset := fun k => h.lt_of_mem_keys hlt
      simp only [hl']
      rw [SortedMap.put_of_lt hkeys, SortedMap.keys_append, h.keys, live, List.filter_append,
        List.filter_cons_of_pos (by simpa using hlt), List.filter_nil]
      rfl
    · have heq : l.back.nextOffset = l.back.baseOffset := by
        have := h.split
        omega
      have hdir : l'.dir.keys = l.dir.keys := by
        apply h.sorted.keys_put_of_mem
        rw [heq]
        exact h.attached.mem
      have holder : l'.older.filter (fun s => s.baseOffset < s.nextOffset)
          = l.older.filter (fun s => s.baseOffset < s.nextOffset) := by
        simp only [hl']
        rw [List.filter_append, List.filter_cons_of_neg (by simpa using hlt), List.filter_nil,
          List.append_nil]
      rw [hdir, h.keys, holder, live, List.map_append, List.map_singleton, heq]
  case contains =>
    intro s hs
    rcases hmem s hs with ⟨hs, hlt⟩ | rfl
    · have hother : l'.file s.baseOffset = l.file s.baseOffset := by
        have := h.baseOffset_lt (live_subset hs) hlt
        simp only [hl', file]
        rw [SortedMap.find?_put_of_ne (by omega)]
      rw [hother]
      apply h.contains s hs
    · have hshare : t.seg.share ps = [] := by
        rw [Segment.share, hnext, hbase, Nat.sub_self]
        rfl
      rw [hshare, hbase, hself]
      exact hc
  case room =>
    intro s hs
    rcases hmem s hs with ⟨hs, -⟩ | rfl
    · apply h.room s hs
    · rw [hc.writePos_eq]
      apply Nat.zero_le
  case mapped =>
    intro hopen
    have hfile : l'.file t.seg.baseOffset = t.file := by rw [hbase, hself]
    rw [show l'.back = t.seg from rfl, hfile]
    exact hmapped hopen

/-- Adding a new last segment. -/
theorem rolled (h : l.Holds ps) :
  l.rolled.Holds ps
  := by
  obtain ⟨z, hz⟩ := h.file_next
  have hnew := Segment.constructed_zeros l.back.nextOffset l.maxSegmentBytes hz
  apply h.addBack _ hnew
  · intro hopen
    apply Segment.constructed_mapped hopen
  · apply Segment.constructed_baseOffset

end Holds

end Log

end Storage
