import Cascade.Storage.Recovery

/-!
# Reopening with another size

The constructor of a segment tells a sealed file from an active one by comparing its size with
the size of a segment, which may differ from the one the file was written with. A directory that
is reopened with a smaller size than the records of some segment take loses records: only a part
of the file is mapped and replayed, and unless it is the last one it is then cut to that part.
-/

open Bytes Crash Tiling

namespace Storage

/-- A file that is not taken to be sealed is mapped up to the size of a segment. -/
theorem reopened_of_not_sealed {m : ℕ} {e : ℕ × File}
    (h : ¬ Segment.TakenAsSealed m (some e.2)) :
  (reopened m e).seg
    = Segment.mapping e.1 m m false (Segment.constructedFile m (some e.2))
  := by
  rw [reopened, Segment.constructed, if_neg h]

/-- No more is replayed than was mapped. -/
theorem Segment.mapping_writePos_le (base m mapLen : ℕ) (isSealed : Bool) (f : File) :
  (Segment.mapping base m mapLen isSealed f).writePos ≤ mapLen
  := by
  apply (replay_writePos_le _ _).trans
  rw [List.length_take]
  omega

namespace Log.Holds

variable {l : Log} {ps : List Payload} {m : ℕ}

theorem take_writePos (h : l.Holds ps) {s : Segment} (hs : s ∈ l.live) :
  (l.file s.baseOffset).bytes.take s.writePos = frames s.baseOffset (s.share ps)
  := by
  obtain ⟨z, hz⟩ := h.exists_zeros hs
  rw [hz, h.writePos_eq hs, List.take_left]

/-- The bytes of the records of a live segment are those in front of `writePos`. -/
theorem writePos_le_length (h : l.Holds ps) {s : Segment} (hs : s ∈ l.live) :
  s.writePos ≤ (l.file s.baseOffset).bytes.length
  := by
  obtain ⟨z, hz⟩ := h.exists_zeros hs
  rw [hz, h.writePos_eq hs, List.length_append]
  apply Nat.le_add_right

/-- A segment in front of the last one keeps its records only if they fit in the mapping. -/
theorem room_of_older (h : l.Holds ps) {s : Segment} (hs : s ∈ l.older)
    (hlt : s.baseOffset < s.nextOffset)
    (hkeep : (l.file s.baseOffset).bytes.take s.writePos
      <+: ((Log.recover m l.dir).file s.baseOffset).bytes) :
  s.writePos ≤ m
  := by
  have hlive : s ∈ l.live := mem_live.mpr (.inl ⟨hs, hlt⟩)
  have hlen := h.writePos_le_length hlive
  by_cases hsealed : Segment.TakenAsSealed m (some (l.file s.baseOffset))
  · have hlt : (l.file s.baseOffset).bytes.length < m := hsealed.2.2
    omega
  · -- The file was cut to what was replayed of its mapped part.
    have hmem : (reopened m (s.baseOffset, l.file s.baseOffset)).sealed
        ∈ (Log.recover m l.dir).handles := by
      rw [h.recover_handles]
      apply List.mem_append_left
      rw [List.mem_map]
      exact ⟨s, by simpa using ⟨hs, hlt⟩, rfl⟩
    have hfile := file_of_mem_handles hmem
    have hseg := reopened_of_not_sealed (e := (s.baseOffset, l.file s.baseOffset)) hsealed
    have hopen : (reopened m (s.baseOffset, l.file s.baseOffset)).seg.isSealed = false := by
      rw [hseg]
      rfl
    rw [Handle.sealed_baseOffset, reopened_baseOffset] at hfile
    have hle := hkeep.length_le
    rw [List.length_take_of_le hlen, hfile, Handle.sealed, if_neg (by simp [hopen])] at hle
    simp only [File.truncate, length_resize] at hle
    apply hle.trans
    rw [hseg]
    apply Segment.mapping_writePos_le

/-- The last segment keeps its records only if they fit in the mapping. -/
theorem room_of_back (h : l.Holds ps)
    (hkeep : (Log.recover m l.dir).back.nextOffset = l.back.nextOffset) :
  l.back.writePos ≤ m
  := by
  have hlen := h.writePos_le_length l.back_mem_live
  by_cases hsealed : Segment.TakenAsSealed m (some (l.file l.back.baseOffset))
  · have hlt : (l.file l.back.baseOffset).bytes.length < m := hsealed.2.2
    omega
  · by_cases hresize : Segment.Resizes (some (l.file l.back.baseOffset))
    · rcases hresize with hnone | hzero
      · simp at hnone
      · simp only [Option.getD_some] at hzero
        omega
    · -- As many records were replayed as there are, so they are the same ones.
      rw [(h.recover_back m).1, reopened_of_not_sealed hsealed, Segment.mapping,
        Segment.constructedFile, if_neg hresize, Option.getD_some] at hkeep
      obtain ⟨qs, rest, hdata, -, -, hreplay⟩ :=
        exists_replay ((l.file l.back.baseOffset).bytes.take m) l.back.baseOffset
      rw [hreplay, Tally.after_nextOffset, h.nextOffset_eq l.back_mem_live] at hkeep
      have hprefix : frames l.back.baseOffset (l.back.share ps)
          <+: (l.file l.back.baseOffset).bytes := by
        rw [← h.take_writePos l.back_mem_live]
        apply List.take_prefix
      have hqs : frames l.back.baseOffset qs <+: (l.file l.back.baseOffset).bytes := by
        apply List.IsPrefix.trans _ (List.take_prefix m _)
        rw [hdata]
        apply List.prefix_append
      have heq := frames_inj hqs hprefix (Nat.add_left_cancel hkeep)
      have hle := congrArg List.length hdata
      rw [List.length_append, List.length_take, heq, ← h.writePos_eq l.back_mem_live] at hle
      omega

/-- Reopening keeps the bytes of records that fit in the mappings. -/
theorem recover_keeps_bytes (h : l.Holds ps) (hps : AllVisible 0 ps)
    (hm : ∀ s ∈ l.live, s.writePos ≤ m) {s : Segment} (hs : s ∈ l.live) :
  (l.file s.baseOffset).bytes.take s.writePos
    <+: ((Log.recover m l.dir).file s.baseOffset).bytes
  := by
  have hmem := List.mem_map_of_mem (f := fun s => (s.baseOffset, s.toTally)) hs
  rw [← h.recover_segments hps hm] at hmem
  obtain ⟨s', hs', heq⟩ := List.mem_map.mp hmem
  rw [Prod.mk.injEq] at heq
  have hc := h.recover_contains hps hm (List.mem_map_of_mem hs')
  obtain ⟨z, hz⟩ := hc.file
  have hshare : s'.share ps = s.share ps := by
    rw [Segment.share, Segment.share, heq.1, heq.2]
  simp only [heq.1, hshare] at hz
  rw [h.take_writePos hs, hz]
  apply List.prefix_append

end Log.Holds

/-- A log that is reopened with another size keeps its next offset, its payloads and the bytes of
its records if and only if the records of every segment fit in a segment of the new size. -/
theorem Log.reopen_keeps_iff (m₁ m₂ : ℕ) (ops : List Op)
    (h : NoneEmptyAtZero 0 (appended ((Log.fresh m₁).history ops))) :
  let l := (Log.fresh m₁).run ops
  let r := Log.recover m₂ l.dir
  (r.nextOffset = l.nextOffset
      ∧ (∀ o : UInt64, r.read o.toNat = l.read o.toNat)
      ∧ ∀ s ∈ l.live, (l.file s.baseOffset).bytes.take s.writePos
          <+: (r.file s.baseOffset).bytes)
    ↔ ∀ s ∈ l.live, s.writePos ≤ m₂
  := by
  obtain ⟨ps, hmap, -, hrun, -⟩ := Log.fresh_run m₁ ops
  rw [← hmap, ← allVisible_iff] at h
  intro l r
  constructor
  · rintro ⟨hnext, -, hbytes⟩ s hs
    rcases Log.mem_live.mp hs with ⟨holder, hlt⟩ | rfl
    · apply hrun.room_of_older holder hlt (hbytes s hs)
    · apply hrun.room_of_back
      rw [← (hrun.recover_fields m₂).2, hrun.back_nextOffset, ← hrun.stored]
      exact hnext
  · intro hroom
    have hrecover := hrun.recover h hroom
    refine ⟨?_, ?_, ?_⟩
    · rw [(hrun.recover_fields m₂).2, hrecover.back_nextOffset, hrun.stored]
    · intro o
      rw [hrecover.read_eq o.toNat_lt, hrun.read_eq o.toNat_lt]
    · intro s hs
      apply hrun.recover_keeps_bytes h hroom hs

/-- Three records in two segments, reopened with a larger size. -/
theorem Log.reopen_keeps_larger :
  let ops : List Op := [.append ⟨[1, 2, 3, 4], by decide⟩, .append ⟨[5, 6, 7, 8], by decide⟩,
    .append ⟨[9], by decide⟩]
  let l := (Log.fresh 40).run ops
  let r := Log.recover 100 l.dir
  NoneEmptyAtZero 0 (appended ((Log.fresh 40).history ops))
    ∧ r.nextOffset = l.nextOffset
    ∧ ∀ o : UInt64, r.read o.toNat = l.read o.toNat
  := by
  intro ops l r
  have h : NoneEmptyAtZero 0 (appended ((Log.fresh 40).history ops)) := by decide +kernel
  have hkeep := (Log.reopen_keeps_iff 40 100 ops h).mpr (by decide +kernel)
  exact ⟨h, hkeep.1, hkeep.2.1⟩

/-- The same records, reopened with a size that one of them fills: the second one is cut from
its file. -/
theorem Log.reopen_smaller_loses :
  let ops : List Op := [.append ⟨[1, 2, 3, 4], by decide⟩, .append ⟨[5, 6, 7, 8], by decide⟩,
    .append ⟨[9], by decide⟩]
  let l := (Log.fresh 40).run ops
  let r := Log.recover 20 l.dir
  NoneEmptyAtZero 0 (appended ((Log.fresh 40).history ops))
    ∧ l.read 1 = some ⟨1, [5, 6, 7, 8]⟩ ∧ r.read 1 = none
    ∧ (l.file 0).bytes.length = 40 ∧ (r.file 0).bytes.length = 20
  := by
  decide +kernel

end Storage
