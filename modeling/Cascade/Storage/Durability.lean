import Cascade.Storage.Retention

/-!
# Durability

Which segments of a log are on the device. Appending only writes to the page cache, and a flush
forces the last segment alone to the device. The other segments need none if it was the log that
sealed them, since a segment is forced to the device when it is sealed. A file that the constructor
takes to be sealed is not: what of it is not on the device by then never gets there. So at all times
the records of all segments but the last are on the device, except for those of such files
(`Log.Sound`).
-/

open Bytes Crash Crash.Program

namespace Storage

/-- What the segment has written is on the device. -/
def Handle.OnDevice (h : Handle) : Prop := h.seg.writePos ≤ h.file.synced

theorem Handle.OnDevice.flushed {h : Handle} (hd : h.OnDevice) :
  h.flushed.OnDevice
  := by
  rw [Handle.flushed]
  split
  · apply le_max_right
  · exact hd

/-- Sealing forces a segment to the device, unless it is taken to be sealed already. -/
theorem Handle.onDevice_sealed {h : Handle} (hd : h.seg.isSealed = true → h.OnDevice) :
  h.sealed.OnDevice
  := by
  rw [Handle.sealed]
  split
  · rename_i hsealed
    exact hd hsealed
  · simp [OnDevice, File.truncate, File.msync]

/-- The base offsets of the files that the constructor takes to be sealed although they are not on
the device as a whole. -/
def Directory.unsynced (m : ℕ) (d : Directory) : Set ℕ :=
  {base | ∃ f, d.find? base = some f ∧ Segment.TakenAsSealed m (some f)
    ∧ f.synced < f.bytes.length}

theorem reopened_onDevice {m : ℕ} {d : Directory} {e : ℕ × File} (he : d.find? e.1 = some e.2)
    (hsynced : e.1 ∉ d.unsynced m) (hsealed : (reopened m e).seg.isSealed = true) :
  (reopened m e).OnDevice
  := by
  have htaken := (Segment.constructed_isSealed_iff _ _ _).mp hsealed
  obtain ⟨ps, hps⟩ := Segment.constructed_begins e.1 m (some e.2)
  have hfile : (reopened m e).file = e.2 := if_neg htaken.not_resizes
  have hpos : (reopened m e).seg.writePos ≤ (reopened m e).file.bytes.length :=
    hps.writePos_eq.trans_le hps.file.length_le
  have hall : e.2.bytes.length ≤ e.2.synced := by
    apply Nat.le_of_not_lt
    exact fun hlt => hsynced ⟨e.2, he, htaken, hlt⟩
  rw [Handle.OnDevice, hfile] at *
  exact hpos.trans hall

namespace Log

/-- The records of all segments but the last are in front of it and on the device, except for
the segments with a base offset in `lost`. -/
structure Sound (lost : Set ℕ) (l : Log) : Prop extends l.Ordered where
  last : l.back.isSealed = true → l.back.baseOffset ∉ lost → l.handle.OnDevice
  front : ∀ s ∈ l.older, s.baseOffset < s.nextOffset →
    s.baseOffset < l.back.baseOffset ∧ (∃ ps, Handle.Begins ⟨l.file s.baseOffset, s⟩ ps)
      ∧ (s.baseOffset ∉ lost → Handle.OnDevice ⟨l.file s.baseOffset, s⟩)

variable {lost : Set ℕ} {l : Log}

/-- Changing the last segment and its file does not touch the others. -/
theorem Sound.putBack (h : l.Sound lost) {t : Handle} (ht : (l.putBack t).Ordered)
    (hbase : t.seg.baseOffset = l.back.baseOffset)
    (hlast : t.seg.isSealed = true → l.back.baseOffset ∉ lost → t.OnDevice) :
  (l.putBack t).Sound lost
  := by
  refine ⟨ht, ?_, ?_⟩
  · intro hsealed hlost
    rw [handle_putBack hbase]
    exact hlast hsealed (hbase ▸ hlost)
  · intro s hs hlt
    have hfront := h.front s hs hlt
    have hfile : (l.putBack t).file s.baseOffset = l.file s.baseOffset := by
      simp only [file, Log.putBack]
      rw [SortedMap.find?_put_of_ne hfront.1.ne]
    rw [hfile]
    exact ⟨hfront.1.trans_eq hbase.symm, hfront.2⟩

theorem Sound.pushed (h : l.Sound lost) {p : Payload} (hfits : Handle.Fits p l.back) :
  (l.pushed p).Sound lost
  := by
  apply h.putBack (h.gains_pushed hfits).ordered rfl
  intro hsealed
  rw [show (l.handle.pushed p).seg.isSealed = false from hfits.1] at hsealed
  cases hsealed

/-- Rolling over leaves the sealed segment on the device. -/
theorem Sound.rolledOver (h : l.Sound lost) :
  l.rolledOver.Sound lost
  := by
  have hord := h.extends_rolledOver.ordered
  refine ⟨hord, ?_, ?_⟩
  · -- A new segment is taken to be sealed only if it is stuck, and then it has no records.
    intro hsealed _
    have hroll := h.toFormed.rolledOver_back
    split at hroll
    · have hzero : l.rolledOver.handle.seg.writePos = 0 := hord.handle.start hroll.2
      rw [Handle.OnDevice, hzero]
      apply Nat.zero_le
    · rw [hroll.1] at hsealed
      cases hsealed
  · intro s hs hlt
    have hbase : l.back.baseOffset ≤ l.back.nextOffset := h.handle.ordered
    have hfront : s.baseOffset < l.back.nextOffset
        ∧ (∃ ps, Handle.Begins ⟨l.sealedBack.file s.baseOffset, s⟩ ps)
        ∧ (s.baseOffset ∉ lost → Handle.OnDevice ⟨l.sealedBack.file s.baseOffset, s⟩) := by
      rcases List.mem_append.mp hs with hs | hs
      · obtain ⟨hbelow, hrest⟩ := h.front s hs hlt
        have hfile : l.sealedBack.file s.baseOffset = l.file s.baseOffset := by
          simp only [file, Log.sealedBack, Log.putBack]
          rw [SortedMap.find?_put_of_ne hbelow.ne]
        rw [hfile]
        exact ⟨hbelow.trans_le hbase, hrest⟩
      · obtain rfl := List.mem_singleton.mp hs
        have hhandle : l.sealedBack.handle = l.handle.sealed :=
          handle_putBack (Handle.sealed_baseOffset l.handle)
        rw [sealedBack_baseOffset, sealedBack_nextOffset] at hlt
        rw [show Handle.mk (l.sealedBack.file l.sealedBack.back.baseOffset) l.sealedBack.back
          = l.handle.sealed from hhandle, sealedBack_baseOffset]
        obtain ⟨ps, hps⟩ := h.begins
        refine ⟨hlt, ⟨ps, hps.sealed⟩, fun hlost => ?_⟩
        apply Handle.onDevice_sealed
        exact fun hsealed => h.last hsealed hlost
    have hfile : l.rolledOver.file s.baseOffset = l.sealedBack.file s.baseOffset := by
      simp only [file, Log.rolledOver, Log.rolled]
      rw [sealedBack_nextOffset, SortedMap.find?_put_of_ne hfront.1.ne]
    rw [rolledOver_baseOffset, hfile]
    exact hfront

theorem kept_sound (lost : Set ℕ) :
  Kept (Sound lost)
  := by
  apply Kept.of_steps
  · exact fun _ h => h.toAttached
  · exact fun _ _ hfits h => h.pushed hfits
  · exact fun _ h => h.rolledOver
  · intro t h
    have hseg := Handle.flushed_seg t.handle
    apply h.putBack h.extends_flushedBack.ordered
    · rw [hseg]
      rfl
    · intro hsealed hlost
      rw [hseg] at hsealed
      exact (h.last hsealed hlost).flushed
  · intro t nextOffset flushCalls h
    have hsame : t.Extends { t with nextOffset, flushCalls } :=
      h.extends_self.of_eq rfl rfl rfl rfl
    exact ⟨hsame.ordered, h.last, h.front⟩

/-- Only the files are lost that the constructor takes to be sealed. -/
theorem recover_sound (m : ℕ) {d : Directory} (hd : d.Sorted) :
  (recover m d).Sound (d.unsynced m)
  := by
  have hord := recover_ordered m hd
  rcases List.eq_nil_or_concat d with rfl | ⟨es, e, rfl⟩
  · change (fresh m).Ordered at hord
    change (fresh m).Sound _
    rw [fresh_eq] at hord ⊢
    refine ⟨hord, ?_, fun _ hs => absurd hs List.not_mem_nil⟩
    rintro ⟨⟩
  · rw [List.concat_eq_append] at hd hord ⊢
    have hback : (recover m (es ++ [e])).back = (reopened m e).seg := by
      rw [recover_eq m hd]
    refine ⟨hord, ?_, ?_⟩
    · intro hsealed hlost
      rw [hback, reopened_baseOffset] at hlost
      rw [recover_handle m hd]
      rw [hback] at hsealed
      exact reopened_onDevice (hd.find?_of_mem (by simp)) hlost hsealed
    · intro s hs _
      have holder : (recover m (es ++ [e])).older
          = es.map (fun e => (reopened m e).sealed.seg) := by
        rw [recover_eq m hd]
      rw [holder] at hs
      obtain ⟨e', he', rfl⟩ := List.mem_map.mp hs
      have hbase : (reopened m e').sealed.seg.baseOffset = e'.1 := by
        rw [Handle.sealed_baseOffset, reopened_baseOffset]
      have hfile := file_of_mem_handles (l := recover m (es ++ [e])) (t := (reopened m e').sealed)
        (by rw [recover_handles m hd]; exact List.mem_append_left _ (List.mem_map_of_mem he'))
      rw [hfile, hbase, hback, reopened_baseOffset]
      obtain ⟨ps, hps⟩ := Segment.constructed_begins e'.1 m (some e'.2)
      refine ⟨?_, ⟨ps, Handle.Begins.sealed hps⟩, ?_⟩
      · rw [SortedMap.Sorted, SortedMap.keys_append, List.pairwise_append] at hd
        exact hd.2.2 e'.1 (List.mem_map_of_mem he') e.1 (by simp [SortedMap.keys])
      · intro hlost
        apply Handle.onDevice_sealed
        apply reopened_onDevice (hd.find?_of_mem _) hlost
        exact List.mem_append_left _ he'

/-- The records of a segment in front are on the device. -/
theorem Sound.durable (h : l.Sound lost) {s : Segment} (hs : s ∈ l.older)
    (hlost : s.baseOffset ∉ lost) {o : ℕ} (ho : o < 2 ^ 64) (hbase : s.baseOffset ≤ o)
    (hnext : o < s.nextOffset) :
  ∃ bytes, Handle.read ⟨l.file s.baseOffset, s⟩ o = some ⟨o, bytes⟩ ∧ l.Durable o bytes
  := by
  obtain ⟨-, ⟨ps, hps⟩, hdevice⟩ := h.front s hs (by omega)
  have hlen : s.nextOffset = s.baseOffset + ps.length := hps.nextOffset_eq
  have hi : o - s.baseOffset < ps.length := by omega
  have hsplit : ps = ps.take (o - s.baseOffset) ++ ps[o - s.baseOffset]
      :: ps.drop (o - s.baseOffset + 1) := by
    rw [List.getElem_cons_drop, List.take_append_drop]
  refine ⟨ps[o - s.baseOffset].bytes, ?_, ps[o - s.baseOffset], rfl, ?_⟩
  · rw [hps.read_eq hbase ho, List.getElem?_eq_getElem hi, Option.map_some]
  · rw [hsplit] at hps
    have hframes := hps.device (hdevice hlost)
    cases hfind : l.dir.find? s.baseOffset with
    | some f =>
        rw [file, hfind] at hframes
        refine ⟨s.baseOffset, f, ps.take (o - s.baseOffset), hfind, ?_, hframes⟩
        rw [List.length_take_of_le hi.le]
        omega
    | none =>
        rw [file, hfind] at hframes
        have hzero := hframes.length_le
        rw [frames_concat, List.length_append, length_frame, kRecordHeaderSize] at hzero
        simp [File.device, File.empty] at hzero

end Log

end Storage
