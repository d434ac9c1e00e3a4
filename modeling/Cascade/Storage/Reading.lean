import Cascade.Storage.Frame
import Mathlib.Data.List.Induction

/-!
# Reading records

A segment whose file starts with records `ps` and that has counted just these finds each of
them by its offset (`readFrom_hint`), whatever part of them its sparse index skips. The scan of
`readFrom` without a target gives the whole contents of a segment (`records`).
-/

open Bytes

namespace Storage

/-- The payloads of the records between `pos` and `writePos`, found as `readFrom` finds them. -/
def recordsFrom (data : List UInt8) (writePos pos : ℕ) : List (List UInt8) :=
  if _ : pos + kRecordHeaderSize ≤ writePos then
    let h := Header.load data pos
    if writePos < pos + kRecordHeaderSize + h.len then []
    else slice data (pos + kRecordHeaderSize) h.len
      :: recordsFrom data writePos (pos + kRecordHeaderSize + h.len)
  else []
termination_by writePos - pos
decreasing_by
  simp only [kRecordHeaderSize] at *
  omega

/-- The payloads of all records of a segment. -/
def Handle.records (h : Handle) : List (List UInt8) :=
  recordsFrom h.file.bytes h.seg.writePos 0

section Scan

variable {data rest : List UInt8} {base : ℕ}

/-- What a scan finds at the start of the first of the records `p :: suf` behind `pre`. -/
theorem scan_frame {pre suf : List Payload} {p : Payload}
    (hdata : data = frames base (pre ++ p :: suf) ++ rest) :
  Header.load data (frames base pre).length
      = ⟨(base + pre.length) % 2 ^ 64, p.len, (crc32 p.bytes).toNat⟩
    ∧ slice data ((frames base pre).length + kRecordHeaderSize) p.len = p.bytes
    ∧ (frames base pre).length + kRecordHeaderSize + p.len
        = (frames base (pre ++ [p])).length
    ∧ (frames base (pre ++ [p])).length ≤ (frames base (pre ++ p :: suf)).length
  := by
  have hsplit : data = frames base pre ++ (frame (base + pre.length) p
      ++ (frames (base + pre.length + 1) suf ++ rest)) := by
    rw [hdata, frames_append, frames]
    simp only [List.append_assoc]
  have hconcat : frames base (pre ++ p :: suf)
      = frames base (pre ++ [p]) ++ frames (base + (pre ++ [p]).length) suf := by
    rw [← frames_append, List.append_assoc]
    rfl
  refine ⟨Header.load_frame hsplit, slice_payload hsplit, ?_, ?_⟩
  · rw [frames_concat, List.length_append, length_frame, Nat.add_assoc]
  · rw [hconcat, List.length_append]
    omega

/-- A scan that starts at a record no later than the target finds the target. -/
theorem readFrom_frames {target : ℕ} (htarget : target < 2 ^ 64) (pre suf : List Payload)
    (hdata : data = frames base (pre ++ suf) ++ rest) (hle : base + pre.length ≤ target) :
  readFrom data (frames base (pre ++ suf)).length target (frames base pre).length
    = suf[target - (base + pre.length)]?.map (fun p => ⟨target, p.bytes⟩)
  := by
  induction suf generalizing pre with
  | nil =>
      rw [readFrom, dif_neg]
      · simp
      · rw [List.append_nil, kRecordHeaderSize]
        omega
  | cons p suf ih =>
      obtain ⟨hload, hslice, hnext, hend⟩ := scan_frame hdata
      have hmod : (base + pre.length) % 2 ^ 64 = base + pre.length :=
        Nat.mod_eq_of_lt (Nat.lt_of_le_of_lt hle htarget)
      rw [readFrom, dif_pos (by omega)]
      simp only [hload, hslice, hmod, hnext, if_neg hend.not_gt]
      by_cases heq : base + pre.length = target
      · rw [if_pos heq, heq, Nat.sub_self]
        rfl
      · have hgt : ¬ target < base + pre.length := by omega
        have hassoc : pre ++ p :: suf = (pre ++ [p]) ++ suf := by simp
        have hih := ih (pre ++ [p]) (hassoc ▸ hdata)
          (by rw [List.length_append, List.length_singleton]; omega)
        rw [if_neg heq, if_neg hgt, hassoc, hih, List.length_append,
          List.length_singleton,
          show target - (base + pre.length) = target - (base + (pre.length + 1)) + 1 by omega,
          List.getElem?_cons_succ]

/-- A scan gives the payloads of the records it passes. -/
theorem recordsFrom_frames (pre suf : List Payload)
    (hdata : data = frames base (pre ++ suf) ++ rest) :
  recordsFrom data (frames base (pre ++ suf)).length (frames base pre).length
    = suf.map Payload.bytes
  := by
  induction suf generalizing pre with
  | nil =>
      rw [recordsFrom, dif_neg]
      · rfl
      · rw [List.append_nil, kRecordHeaderSize]
        omega
  | cons p suf ih =>
      obtain ⟨hload, hslice, hnext, hend⟩ := scan_frame hdata
      have hassoc : pre ++ p :: suf = (pre ++ [p]) ++ suf := by simp
      have hih := ih (pre ++ [p]) (hassoc ▸ hdata)
      rw [recordsFrom, dif_pos (by omega)]
      simp only [hload, hslice, hnext, if_neg hend.not_gt]
      rw [hassoc, hih, List.map_cons]

end Scan

/-! ### The sparse index -/

/-- Every entry of the index gives the position of a record. -/
theorem index_after {base : ℕ} {ps : List Payload} {e : IndexEntry}
    (h : e ∈ ((Tally.start base).after ps).index) :
  ∃ i < ps.length, e = ⟨base + i, (frames base (ps.take i)).length⟩
  := by
  induction ps using List.reverseRecOn with
  | nil => simp [Tally.after, Tally.start] at h
  | append_singleton ps p ih =>
      have hlift : e ∈ ((Tally.start base).after ps).index →
          ∃ i < (ps ++ [p]).length, e = ⟨base + i, (frames base ((ps ++ [p]).take i)).length⟩ := by
        intro he
        obtain ⟨i, hi, heq⟩ := ih he
        use i
        rw [List.take_append_of_le_length hi.le, List.length_append]
        exact ⟨by omega, heq⟩
      rw [Tally.after_concat, Tally.advance, Tally.maybeIndex] at h
      split at h
      · rcases List.mem_append.mp h with he | he
        · apply hlift he
        · use ps.length
          rw [List.length_append, List.take_left]
          refine ⟨by simp, ?_⟩
          rw [List.mem_singleton.mp he, Tally.after_nextOffset, Tally.after_writePos _ base]
          simp [Tally.start]
      · apply hlift h

/-- The hint of the index is the position of a record no later than the target. -/
theorem positionHintFor_after {base target : ℕ} (ps : List Payload) (h : base ≤ target) :
  ∃ i ≤ ps.length, base + i ≤ target
    ∧ positionHintFor ((Tally.start base).after ps).index target
      = (frames base (ps.take i)).length
  := by
  rw [positionHintFor]
  split
  · rename_i e he
    obtain ⟨hmem, hle⟩ := mem_of_elementBefore he
    obtain ⟨i, hi, rfl⟩ := index_after hmem
    use i
    simp only [decide_eq_false_iff_not, not_lt] at hle
    exact ⟨hi.le, hle, rfl⟩
  · use 0
    exact ⟨Nat.zero_le _, h, rfl⟩

/-- Reading by way of the index finds the record with the target as its offset. -/
theorem readFrom_hint {data rest : List UInt8} {base target : ℕ} {ps : List Payload}
    (hdata : data = frames base ps ++ rest) (hbase : base ≤ target) (htarget : target < 2 ^ 64) :
  readFrom data ((Tally.start base).after ps).writePos target
      (positionHintFor ((Tally.start base).after ps).index target)
    = ps[target - base]?.map (fun p => ⟨target, p.bytes⟩)
  := by
  obtain ⟨i, hi, hle, hpos⟩ := positionHintFor_after ps hbase
  have hlen : (ps.take i).length = i := List.length_take_of_le hi
  have hwrite : ((Tally.start base).after ps).writePos = (frames base ps).length := by
    rw [Tally.after_writePos _ base]
    apply Nat.zero_add
  have hsplit : ps.take i ++ ps.drop i = ps := List.take_append_drop i ps
  rw [← hsplit] at hdata
  have hread := readFrom_frames htarget (ps.take i) (ps.drop i) hdata (by rwa [hlen])
  rw [hsplit] at hread
  rw [hpos, hwrite, hread, hlen, List.getElem?_drop]
  congr 2
  omega

end Storage
