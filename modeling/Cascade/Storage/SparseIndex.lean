import Cascade.Storage.Lifetime

/-!
# The sparse index

The index of a segment is fed by `replay` when the segment is opened and by `append` afterwards,
and it leaves out most records. What it does contain is in order and right: each entry gives the
position at which the record with its offset starts (`recordStart`). Hence reading by way of the
index is the same as scanning the segment from its start (`Segment.index_agrees`).
-/

open Bytes Crash Crash.Program

namespace Storage

/-- The position of the header of the `k`-th of records with the given payloads. -/
def recordStart (payloads : List (List UInt8)) (k : ℕ) : ℕ :=
  ((payloads.take k).map (fun bytes => kRecordHeaderSize + bytes.length)).sum

theorem length_frames (base : ℕ) (ps : List Payload) :
  (frames base ps).length
    = ((ps.map Payload.bytes).map (fun bytes => kRecordHeaderSize + bytes.length)).sum
  := by
  induction ps generalizing base with
  | nil => rfl
  | cons p ps ih =>
      rw [frames, List.length_append, length_frame, ih (base + 1)]
      rfl

theorem length_frames_take (base : ℕ) (ps : List Payload) (k : ℕ) :
  (frames base (ps.take k)).length = recordStart (ps.map Payload.bytes) k
  := by
  rw [length_frames, List.map_take]
  rfl

theorem length_frames_lt (base : ℕ) {ps : List Payload} {k : ℕ} (hk : k < ps.length) :
  (frames base (ps.take k)).length < (frames base ps).length
  := by
  conv_rhs => rw [← List.take_append_drop k ps, List.drop_eq_getElem_cons hk]
  rw [frames_append, List.length_append, frames, List.length_append, length_frame,
    kRecordHeaderSize]
  omega

/-- One entry of the index stands in front of another, by offset and by position. -/
def IndexEntry.Before (e e' : IndexEntry) : Prop :=
  e.offset < e'.offset ∧ e.pos < e'.pos

/-- The index grows at its end only, by records that start behind all that it has. -/
theorem index_after_pairwise (base : ℕ) (ps : List Payload) :
  ((Tally.start base).after ps).index.Pairwise IndexEntry.Before
  := by
  induction ps using List.reverseRecOn with
  | nil => exact List.Pairwise.nil
  | append_singleton ps p ih =>
      rw [Tally.after_concat, Tally.advance, Tally.maybeIndex]
      split
      · simp only
        rw [List.pairwise_append]
        refine ⟨ih, List.pairwise_singleton _ _, ?_⟩
        intro e he e' he'
        obtain ⟨i, hi, rfl⟩ := index_after he
        rw [List.mem_singleton.mp he']
        have hlt := length_frames_lt base hi
        constructor
        · rw [Tally.after_nextOffset]
          simp only [Tally.start]
          omega
        · rw [Tally.after_writePos _ base]
          simp only [Tally.start]
          omega
      · exact ih

/-- A scan for an offset below that of the first record ends at the first record. -/
theorem readFrom_below {data rest : List UInt8} {base target : ℕ} {ps : List Payload}
    (hdata : data = frames base ps ++ rest) (hbase : base < 2 ^ 64) (htarget : target < base) :
  readFrom data (frames base ps).length target 0 = none
  := by
  rw [readFrom]
  split
  · rename_i hroom
    cases ps with
    | nil =>
        rw [frames_nil, List.length_nil, kRecordHeaderSize] at hroom
        omega
    | cons p ps =>
        have hscan := scan_frame (show data = frames base ([] ++ p :: ps) ++ rest from hdata)
        rw [frames_nil, List.length_nil, List.length_nil, Nat.add_zero,
          Nat.mod_eq_of_lt hbase] at hscan
        obtain ⟨hload, -, hnext, hend⟩ := hscan
        have hinside : ¬ (frames base (p :: ps)).length < 0 + kRecordHeaderSize + p.len := by
          rw [hnext]
          exact Nat.not_lt.mpr hend
        simp only [hload, if_neg hinside]
        rw [if_neg (by omega), if_pos htarget]
  · rfl

/-- For an offset below all entries of the index the scan starts at the first record. -/
theorem positionHintFor_below {base target : ℕ} (ps : List Payload) (h : target < base) :
  positionHintFor ((Tally.start base).after ps).index target = 0
  := by
  rw [positionHintFor]
  split
  · rename_i e he
    obtain ⟨hmem, hle⟩ := mem_of_elementBefore he
    obtain ⟨i, -, rfl⟩ := index_after hmem
    simp only [decide_eq_false_iff_not, not_lt] at hle
    omega
  · rfl

namespace Handle.Shows

variable {h : Handle} {old : List UInt8} {ps : List Payload}

/-- Reading an offset, from the start of the segment or by way of the index. -/
theorem readFrom_eq (hs : h.Shows old ps) (hwrap : h.seg.nextOffset ≤ 2 ^ 64) {target : ℕ}
    (htarget : target < 2 ^ 64) :
  readFrom h.file.bytes h.seg.writePos target 0
      = (if h.seg.baseOffset ≤ target then
          h.records[target - h.seg.baseOffset]?.map (fun bytes => ⟨target, bytes⟩)
        else none)
    ∧ readFrom h.file.bytes h.seg.writePos target (positionHintFor h.seg.index target)
      = readFrom h.file.bytes h.seg.writePos target 0
  := by
  by_cases hbase : h.seg.baseOffset ≤ target
  · have hscan := readFrom_frames htarget [] ps hs.bytes hbase
    have hhint := readFrom_hint hs.bytes hbase htarget
    rw [← hs.tally] at hhint
    rw [List.nil_append, frames_nil, List.length_nil, List.length_nil, Nat.add_zero,
      ← hs.writePos_eq] at hscan
    rw [if_pos hbase, hscan, hhint, hs.records_eq, List.getElem?_map, Option.map_map]
    exact ⟨rfl, rfl⟩
  · have hlt : h.seg.baseOffset < 2 ^ 64 ∨ ps = [] := by
      rw [hs.nextOffset_eq] at hwrap
      rcases Nat.eq_zero_or_pos ps.length with hz | hpos
      · exact .inr (List.length_eq_zero_iff.mp hz)
      · exact .inl (by omega)
    have hbelow : target < h.seg.baseOffset := Nat.lt_of_not_le hbase
    have hzero : positionHintFor h.seg.index target = 0 := by
      rw [hs.tally]
      apply positionHintFor_below ps hbelow
    rw [hzero, if_neg hbase]
    refine ⟨?_, rfl⟩
    rcases hlt with hlt | rfl
    · rw [hs.writePos_eq]
      apply readFrom_below hs.bytes hlt hbelow
    · rw [hs.writePos_eq, frames_nil, readFrom, dif_neg (by simp [kRecordHeaderSize])]

/-- An entry of the index gives the place of its record. -/
theorem index_entry (hs : h.Shows old ps) (hwrap : h.seg.nextOffset ≤ 2 ^ 64) {e : IndexEntry}
    (he : e ∈ h.seg.index) :
  h.seg.baseOffset ≤ e.offset ∧ e.offset < h.seg.nextOffset
    ∧ e.pos = recordStart h.records (e.offset - h.seg.baseOffset)
    ∧ (Header.load h.file.bytes e.pos).offset = e.offset
  := by
  rw [hs.tally] at he
  obtain ⟨i, hi, rfl⟩ := index_after he
  have hnext := hs.nextOffset_eq
  have hlen : (ps.take i).length = i := List.length_take_of_le hi.le
  have hsplit : ps = ps.take i ++ ps[i] :: ps.drop (i + 1) := by
    rw [← List.drop_eq_getElem_cons hi, List.take_append_drop]
  have hdata := hs.bytes
  rw [hsplit] at hdata
  have hload := (scan_frame hdata).1
  refine ⟨Nat.le_add_right _ _, ?_, ?_, ?_⟩
  · simp only
    omega
  · simp only [Nat.add_sub_cancel_left]
    rw [hs.records_eq, ← length_frames_take h.seg.baseOffset]
  · simp only
    rw [hload, hlen]
    apply Nat.mod_eq_of_lt
    omega

end Handle.Shows

/-- In a segment that was opened on any file and appended to, the index agrees with a scan of
the whole segment. -/
theorem Segment.index_agrees (base m : ℕ) (file : Option File) (ps : List Payload)
    (hwrap : ((openFile base m file).appendAll ps).seg.nextOffset ≤ 2 ^ 64) :
  let h := (openFile base m file).appendAll ps
  h.records = (openFile base m file).records
      ++ ((openFile base m file).accepted ps).map Payload.bytes
    ∧ h.seg.nextOffset = base + h.records.length
    ∧ (∀ t : UInt64,
        readFrom h.file.bytes h.seg.writePos t.toNat (positionHintFor h.seg.index t.toNat)
            = readFrom h.file.bytes h.seg.writePos t.toNat 0
          ∧ readFrom h.file.bytes h.seg.writePos t.toNat 0
            = if base ≤ t.toNat then
                h.records[t.toNat - base]?.map (fun bytes => ⟨t.toNat, bytes⟩)
              else none)
    ∧ h.seg.index.Pairwise (fun e e' => e.offset < e'.offset ∧ e.pos < e'.pos)
    ∧ ∀ e ∈ h.seg.index, base ≤ e.offset ∧ e.offset < h.seg.nextOffset
      ∧ e.pos = recordStart h.records (e.offset - base)
      ∧ (Header.load h.file.bytes e.pos).offset = e.offset
  := by
  intro h
  obtain ⟨qs, hqs, -⟩ := openFile_shows base m file
  obtain ⟨hs, hbase, -, -⟩ := hqs.appendAll ps
  rw [openFile_baseOffset] at hbase
  refine ⟨?_, ?_, ?_, ?_, ?_⟩
  · rw [hs.records_eq, hqs.records_eq, List.map_append]
  · rw [hs.nextOffset_eq, hbase, hs.records_eq, List.length_map]
  · intro t
    obtain ⟨hscan, hhint⟩ := hs.readFrom_eq hwrap t.toNat_lt
    rw [hbase] at hscan
    exact ⟨hhint, hscan⟩
  · rw [show h.seg.toTally = _ from hs.tally]
    apply index_after_pairwise
  · intro e he
    have hentry := hs.index_entry hwrap he
    rwa [hbase] at hentry

/-- A file of two records with bytes of no record behind them, and one record appended. -/
theorem Segment.index_agrees_reopened :
  let file : File := ⟨frames 5 [⟨[1], by decide⟩, ⟨[2, 3], by decide⟩] ++ List.replicate 45 9, 0⟩
  let h := (openFile 5 80 (some file)).appendAll [⟨[4], by decide⟩]
  h.seg.nextOffset = 8 ∧ h.records = [[1], [2, 3], [4]] ∧ h.seg.index = [⟨5, 0⟩]
    ∧ ∀ t : UInt64,
        readFrom h.file.bytes h.seg.writePos t.toNat (positionHintFor h.seg.index t.toNat)
          = readFrom h.file.bytes h.seg.writePos t.toNat 0
  := by
  intro file h
  have hnext : h.seg.nextOffset = 8 := by decide +kernel
  refine ⟨hnext, by decide +kernel, by decide +kernel, ?_⟩
  intro t
  apply ((index_agrees 5 80 (some file) [⟨[4], by decide⟩] (by rw [hnext]; decide)).2.2.1 t).1

end Storage
