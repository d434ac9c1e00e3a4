import Cascade.Storage.Contents

/-!
# The life of one segment

A segment is opened on a file, records are appended to it, and it is closed and opened again.
What the second opening finds is what was there before the close, unless the bytes right behind
the last record happen to spell a record with the next offset. Such bytes can be left from a
time before the first opening, which had discarded them (`reopen_same_iff`).
-/

open Bytes Crash Crash.Program

namespace Storage

/-- The segment that is opened on a file, with the file. -/
def Segment.openFile (baseOffset maxBytes : ℕ) (file : Option File) : Handle where
  file := ((construct baseOffset maxBytes : Program _ Empty _) file).final.getD File.empty
  seg := output (construct baseOffset maxBytes) file

/-- Append payloads one after the other. -/
def Handle.appendAll (h : Handle) : List Payload → Handle
  | [] => h
  | p :: ps => Handle.appendAll ((append p : Program _ Empty _) h).final ps

/-- Those of the payloads for which there was room. -/
def Handle.accepted (h : Handle) : List Payload → List Payload
  | [] => []
  | p :: ps =>
      match output (append p) h with
      | some _ => p :: Handle.accepted ((append p : Program _ Empty _) h).final ps
      | none => Handle.accepted ((append p : Program _ Empty _) h).final ps

theorem Segment.openFile_eq (baseOffset maxBytes : ℕ) (file : Option File) :
  openFile baseOffset maxBytes file
    = ⟨constructedFile maxBytes file, constructed baseOffset maxBytes file⟩
  := by
  have h : wp (fun _ => True) (construct baseOffset maxBytes : Program _ Empty _)
      (fun r f => r = .ok (constructed baseOffset maxBytes file)
        ∧ f = some (constructedFile maxBytes file)) file := by
    rw [wp_construct]
    exact ⟨trivial, fun _ => trivial, rfl, rfl⟩
  have hfile := (wp_final h).2
  have hseg : output (construct baseOffset maxBytes) file
      = constructed baseOffset maxBytes file := by
    apply output_eq (wp_mono h (fun _ hc => hc) (fun _ _ hq => hq.1))
  rw [openFile, hfile, hseg]
  rfl

theorem Handle.append_final (h : Handle) (p : Payload) :
  ((append p : Program _ Empty _) h).final = (if Fits p h.seg then h.pushed p else h)
    ∧ output (append p) h = if Fits p h.seg then some h.seg.nextOffset else none
  := by
  have hwp : wp (fun _ => True) (append p : Program _ Empty _)
      (fun r t => t = (if Fits p h.seg then h.pushed p else h)
        ∧ r = .ok (if Fits p h.seg then some h.seg.nextOffset else none)) h := by
    rw [wp_append]
    split
    · exact ⟨trivial, rfl, rfl⟩
    · exact ⟨rfl, rfl⟩
  refine ⟨(wp_final hwp).1, ?_⟩
  apply output_eq (wp_mono hwp (fun _ hc => hc) (fun _ _ hq => hq.2))

/-! ### A segment over a file with old bytes -/

/-- The segment shows the records with payloads `ps`: they stand at the start of the file, which
is otherwise as `old` was. -/
structure Handle.Shows (h : Handle) (old : List UInt8) (ps : List Payload) : Prop where
  tally : h.seg.toTally = (Tally.start h.seg.baseOffset).after ps
  bytes : h.file.bytes
    = frames h.seg.baseOffset ps ++ old.drop (frames h.seg.baseOffset ps).length
  inside : (frames h.seg.baseOffset ps).length ≤ h.seg.mappedLen
  mapped : h.seg.mappedLen ≤ old.length

namespace Handle.Shows

variable {h : Handle} {old : List UInt8} {ps : List Payload}

theorem nextOffset_eq (hs : h.Shows old ps) :
  h.seg.nextOffset = h.seg.baseOffset + ps.length
  := by
  rw [hs.tally, Tally.after_nextOffset]
  rfl

theorem writePos_eq (hs : h.Shows old ps) :
  h.seg.writePos = (frames h.seg.baseOffset ps).length
  := by
  rw [hs.tally, Tally.after_writePos _ h.seg.baseOffset]
  apply Nat.zero_add

theorem length_bytes (hs : h.Shows old ps) :
  h.file.bytes.length = old.length
  := by
  have := hs.inside
  have := hs.mapped
  rw [hs.bytes, List.length_append, List.length_drop]
  omega

theorem records_eq (hs : h.Shows old ps) :
  h.records = ps.map Payload.bytes
  := by
  have hscan := recordsFrom_frames [] ps hs.bytes
  rw [Handle.records, hs.writePos_eq]
  exact hscan

/-- The mapped bytes. -/
theorem take_mappedLen (hs : h.Shows old ps) :
  h.file.bytes.take h.seg.mappedLen
    = frames h.seg.baseOffset ps ++ (old.take h.seg.mappedLen).drop h.seg.writePos
  := by
  rw [hs.bytes, hs.writePos_eq, List.take_append, List.take_of_length_le hs.inside,
    List.drop_take]

theorem pushed (hs : h.Shows old ps) {p : Payload} (hp : Fits p h.seg) :
  (h.pushed p).Shows old (ps ++ [p])
  := by
  have hlen : (frames h.seg.baseOffset (ps ++ [p])).length
      = (frames h.seg.baseOffset ps).length + (kRecordHeaderSize + p.len) := by
    rw [frames_concat, List.length_append, length_frame]
  constructor
  case tally =>
    rw [Tally.after_concat]
    simp only [Handle.pushed, Segment.advance]
    rw [hs.tally]
  case bytes =>
    simp only [Handle.pushed, Segment.advance, File.write]
    rw [hs.writePos_eq, hs.bytes, overwrite_append, hlen, frames_concat, ← hs.nextOffset_eq,
      length_frame, List.drop_drop, List.append_assoc]
  case inside =>
    have := hp.2
    rw [hs.writePos_eq] at this
    simp only [Handle.pushed, Segment.advance]
    omega
  case mapped => exact hs.mapped

/-- Appending payloads adds those that find room. -/
theorem appendAll (hs : h.Shows old ps) (qs : List Payload) :
  (h.appendAll qs).Shows old (ps ++ h.accepted qs)
    ∧ (h.appendAll qs).seg.baseOffset = h.seg.baseOffset
    ∧ (h.appendAll qs).seg.mappedLen = h.seg.mappedLen
    ∧ (h.appendAll qs).seg.isSealed = h.seg.isSealed
  := by
  induction qs generalizing h ps with
  | nil =>
      rw [Handle.accepted, List.append_nil]
      exact ⟨hs, rfl, rfl, rfl⟩
  | cons q qs ih =>
      obtain ⟨hfinal, houtput⟩ := h.append_final q
      rw [Handle.appendAll, Handle.accepted, hfinal, houtput]
      by_cases hq : Fits q h.seg
      · simp only [if_pos hq]
        obtain ⟨hshows, hbase, hmapped, hsealed⟩ := ih (hs.pushed hq)
        rw [List.append_assoc] at hshows
        exact ⟨hshows, hbase, hmapped, hsealed⟩
      · simp only [if_neg hq]
        apply ih hs

end Handle.Shows

@[simp]
theorem Segment.openFile_baseOffset (base m : ℕ) (file : Option File) :
  (openFile base m file).seg.baseOffset = base
  := by
  rw [openFile_eq, constructed_baseOffset]

/-- What opening a file shows. -/
theorem Segment.openFile_shows (base m : ℕ) (file : Option File) :
  ∃ ps, (openFile base m file).Shows (openFile base m file).file.bytes ps ∧ AllVisible base ps
  := by
  obtain ⟨htally, hmapped⟩ := constructed_toTally base m file
  obtain ⟨ps, rest, hdata, hps, -, hreplay⟩ := exists_replay
    ((constructedFile m file).bytes.take (constructed base m file).mappedLen) base
  have hlen := congrArg List.length hdata
  rw [List.length_append, List.length_take_of_le hmapped] at hlen
  use ps
  refine ⟨?_, hps⟩
  constructor
  case tally => rw [openFile_baseOffset, openFile_eq, htally, hreplay]
  case bytes =>
    have htake : (constructedFile m file).bytes.take (frames base ps).length = frames base ps := by
      have := congrArg (List.take (frames base ps).length) hdata
      rwa [List.take_take, List.take_left, Nat.min_eq_left (by omega)] at this
    rw [openFile_baseOffset, openFile_eq]
    conv_lhs => rw [← List.take_append_drop (frames base ps).length
      (constructedFile m file).bytes, htake]
  case inside =>
    rw [openFile_baseOffset, openFile_eq]
    simp only
    omega
  case mapped =>
    rw [openFile_eq]
    exact hmapped

/-- Opening a file, appending to it, and opening it again with the same base offset and size: the
second opening shows the records that were there before it if and only if the bytes that the
first one found behind their end do not start with a record that continues them. -/
theorem Segment.reopen_same_iff (base m : ℕ) (f : File) (ps : List Payload)
    (hfirst : NoneEmptyAtZero base ((openFile base m (some f)).appendAll ps).records) :
  let h := openFile base m (some f)
  let h' := h.appendAll ps
  let r := openFile base m (some h'.file)
  h'.records = h.records ++ (h.accepted ps).map Payload.bytes
    ∧ ((r.records = h'.records ∧ r.seg.nextOffset = h'.seg.nextOffset)
      ↔ Stops h'.seg.nextOffset
          ((h.file.bytes.take h.seg.mappedLen).drop h'.seg.writePos))
  := by
  intro h h' r
  obtain ⟨qs, hqs, -⟩ := openFile_shows base m (some f)
  obtain ⟨hshows, hbase, hmapped, -⟩ := hqs.appendAll ps
  have hbase' : h'.seg.baseOffset = base := by rw [hbase, openFile_baseOffset]
  have hvisible : AllVisible base (qs ++ h.accepted ps) := by
    rw [allVisible_iff, ← hshows.records_eq]
    exact hfirst
  -- The second opening maps the same part of the same bytes as the first.
  have hsize : h'.file.bytes.length = (constructedFile m (some f)).bytes.length := by
    rw [hshows.length_bytes, openFile_eq]
  obtain ⟨hbytes, hlen⟩ := constructed_same_size base hsize
  have hdata : h'.file.bytes.take h.seg.mappedLen
      = frames base (qs ++ h.accepted ps)
        ++ (h.file.bytes.take h.seg.mappedLen).drop h'.seg.writePos := by
    have htake := hshows.take_mappedLen
    rwa [hmapped, hbase'] at htake
  have hfile : r.file.bytes = h'.file.bytes := by
    rw [show r = _ from openFile_eq base m (some h'.file)]
    exact hbytes
  have htally : r.seg.toTally
      = replay (h'.file.bytes.take h.seg.mappedLen) (Tally.start base) := by
    rw [show r = _ from openFile_eq base m (some h'.file),
      show h = _ from openFile_eq base m (some f)]
    simp only [(constructed_toTally base m (some h'.file)).1, hbytes, hlen]
  refine ⟨?_, ?_⟩
  · rw [hshows.records_eq, hqs.records_eq, List.map_append]
  · have hnext := hshows.nextOffset_eq
    rw [hbase'] at hnext
    rw [hnext]
    constructor
    · rintro ⟨-, hr⟩
      rw [htally] at hr
      apply (replay_nextOffset_iff hdata hvisible).mp hr
    · intro hstop
      have heq : r.seg.toTally = h'.seg.toTally := by
        rw [htally, replay_eq hdata hvisible hstop, hshows.tally, hbase']
      refine ⟨?_, by rw [heq, hnext]⟩
      rw [Handle.records, Handle.records, hfile, heq]

/-- Three records, the payload of the second one damaged. -/
def damagedFile : File :=
  ⟨overwrite (frames 0 [⟨[1], by decide⟩, ⟨[2], by decide⟩, ⟨[3], by decide⟩]
    ++ List.replicate 13 0) 33 [9], 0⟩

/-- A payload of another length than the damaged one covers the header behind it. -/
theorem Segment.reopen_same_longer :
  let h' := (openFile 0 64 (some damagedFile)).appendAll [⟨[7, 7], by decide⟩]
  NoneEmptyAtZero 0 h'.records
    ∧ (openFile 0 64 (some h'.file)).records = h'.records
  := by
  intro h'
  have hfirst : NoneEmptyAtZero 0 h'.records := by decide +kernel
  refine ⟨hfirst, ?_⟩
  apply ((reopen_same_iff 0 64 damagedFile [⟨[7, 7], by decide⟩] hfirst).2.mpr ?_).1
  decide +kernel

/-- A payload of the same length as the damaged one leads on to the third record, which was
discarded before. -/
theorem Segment.reopen_resurrects :
  let h := openFile 0 64 (some damagedFile)
  let h' := h.appendAll [⟨[7], by decide⟩]
  let r := openFile 0 64 (some h'.file)
  NoneEmptyAtZero 0 h'.records
    ∧ h.records = [[1]] ∧ h'.records = [[1], [7]] ∧ r.records = [[1], [7], [3]]
    ∧ h'.seg.nextOffset = 2 ∧ r.seg.nextOffset = 3
  := by
  decide +kernel

end Storage
