import Cascade.Storage.Lifetime

/-!
# Torn writes

A process that is killed inside `Segment::append` leaves the first bytes of a record in a file
of zeros. The fields of the header that were not reached read as zeros, or as the low bytes of
their values. `TornSafe` lists the ways in which this is harmless: the header is all zeros, its
offset is not the expected one, the checksum does not match, or what reads as the payload is the
payload. It is necessary and sufficient (`torn_write_iff`), and it fails when the offset is
complete and not zero while the length still reads as zero: an empty record appears.
-/

open Bytes Crash Crash.Program

namespace Storage

/-- The file of a segment in which an append was stopped after `j` bytes. -/
def Handle.tornFile (h : Handle) (p : Payload) (j : ℕ) : File :=
  h.file.write h.seg.writePos ((frame h.seg.nextOffset p).take j)

/-- The header of a record of which the first `j` bytes were written over zeros. -/
def tornHeader (offset : ℕ) (p : Payload) (j : ℕ) : Header where
  offset := offset % 256 ^ min j 8
  len := p.len % 256 ^ min (j - 8) 4
  crc := (crc32 p.bytes).toNat % 256 ^ min (j - 12) 4

/-- What reads as the payload of such a record. -/
def tornPayload (offset : ℕ) (p : Payload) (j : ℕ) : List UInt8 :=
  (torn p.bytes (j - 16)).take (tornHeader offset p j).len

/-- Replaying such a record stops at it. -/
def TornRejected (offset : ℕ) (p : Payload) (j : ℕ) : Prop :=
  ((tornHeader offset p j).offset = 0 ∧ (tornHeader offset p j).len = 0
      ∧ (tornHeader offset p j).crc = 0)
    ∨ (tornHeader offset p j).offset ≠ offset % 2 ^ 64
    ∨ (crc32 (tornPayload offset p j)).toNat ≠ (tornHeader offset p j).crc

/-- Replaying such a record stops at it or gives its payload. -/
def TornSafe (offset : ℕ) (p : Payload) (j : ℕ) : Prop :=
  TornRejected offset p j ∨ tornPayload offset p j = p.bytes

instance (offset : ℕ) (p : Payload) (j : ℕ) : Decidable (TornRejected offset p j) :=
  inferInstanceAs (Decidable (_ ∨ _))

instance (offset : ℕ) (p : Payload) (j : ℕ) : Decidable (TornSafe offset p j) :=
  inferInstanceAs (Decidable (_ ∨ _))

section Torn

variable (offset : ℕ) (p : Payload) (j : ℕ) (rest : List UInt8)

theorem torn_frame :
  torn (frame offset p) j = torn (littleEndian 8 offset) j
    ++ (torn (littleEndian 4 p.len) (j - 8)
      ++ (torn (littleEndian 4 (crc32 p.bytes).toNat) (j - 12) ++ torn p.bytes (j - 16)))
  := by
  rw [frame, torn_append, torn_append, torn_append, length_littleEndian, length_littleEndian,
    length_littleEndian, Nat.sub_sub, Nat.sub_sub]

theorem load_torn :
  Header.load (torn (frame offset p) j ++ rest) 0 = tornHeader offset p j
  := by
  have hload : Header.load ([] ++ (torn (littleEndian 8 offset) j
      ++ (torn (littleEndian 4 p.len) (j - 8)
        ++ (torn (littleEndian 4 (crc32 p.bytes).toNat) (j - 12)
          ++ (torn p.bytes (j - 16) ++ rest))))) 0 = _ :=
    Header.load_parts (by simp) (by simp) (by simp)
  rw [ofLittleEndian_torn, ofLittleEndian_torn, ofLittleEndian_torn] at hload
  rw [torn_frame]
  simp only [List.append_assoc]
  exact hload

/-- The bytes behind the header, as far as the length in it reaches. -/
theorem slice_torn :
  slice (torn (frame offset p) j ++ rest) kRecordHeaderSize (tornHeader offset p j).len
    = tornPayload offset p j
  := by
  have hle : (tornHeader offset p j).len ≤ p.bytes.length := Nat.mod_le _ _
  rw [torn_frame]
  simp only [← List.append_assoc]
  rw [List.append_assoc _ (torn p.bytes (j - 16)) rest, slice, List.drop_left' (by simp
    [kRecordHeaderSize]), List.take_append_of_le_length (by simpa using hle)]
  rfl

theorem check_torn :
  check (torn (frame offset p) j ++ rest) 0 offset
    = if TornRejected offset p j then none else some (tornHeader offset p j).len
  := by
  have hle : (tornHeader offset p j).len ≤ p.len := Nat.mod_le _ _
  have hroom : ¬ (torn (frame offset p) j ++ rest).length
      < kRecordHeaderSize + (tornHeader offset p j).len := by
    rw [List.length_append, length_torn, length_frame]
    omega
  rw [check]
  simp only [load_torn, Nat.zero_add, slice_torn]
  by_cases h₁ : (tornHeader offset p j).offset = 0 ∧ (tornHeader offset p j).len = 0
      ∧ (tornHeader offset p j).crc = 0
  · rw [if_pos h₁, if_pos (.inl h₁)]
  by_cases h₂ : (tornHeader offset p j).offset ≠ offset % 2 ^ 64
  · rw [if_neg h₁, if_pos h₂, if_pos (.inr (.inl h₂))]
  by_cases h₃ : (crc32 (tornPayload offset p j)).toNat ≠ (tornHeader offset p j).crc
  · rw [if_neg h₁, if_neg h₂, if_neg hroom, if_pos h₃, if_pos (.inr (.inr h₃))]
  · have hpass : ¬ TornRejected offset p j := by
      rintro (h | h | h)
      · exact h₁ h
      · exact h₂ h
      · exact h₃ h
    rw [if_neg h₁, if_neg h₂, if_neg hroom, if_neg h₃, if_neg hpass]

end Torn

theorem Payload.bytes_injective :
  Function.Injective Payload.bytes
  := by
  rintro ⟨a, ha⟩ ⟨b, hb⟩ h
  simp only at h
  subst h
  rfl

/-- The records found in what a torn write left, followed by zeros. -/
theorem torn_records_iff {offset : ℕ} {p : Payload} {j z : ℕ} {ts : List Payload}
    {rest : List UInt8}
    (hdata : torn (frame offset p) j ++ List.replicate z 0 = frames offset ts ++ rest)
    (hts : AllVisible offset ts) (hrest : Stops (offset + ts.length) rest) :
  (ts = [] ∨ ts = [p]) ↔ TornSafe offset p j
  := by
  have hcheck := check_torn offset p j (List.replicate z 0)
  have hroom : kRecordHeaderSize ≤ (torn (frame offset p) j ++ List.replicate z 0).length := by
    rw [List.length_append, length_torn, length_frame]
    omega
  cases ts with
  | nil =>
      -- Nothing is found, so the record was rejected.
      rw [frames_nil, List.nil_append] at hdata
      rw [List.length_nil, Nat.add_zero, ← hdata, stops_iff_check, hcheck] at hrest
      have hrejected : TornRejected offset p j := by
        by_contra hno
        rw [if_neg hno] at hrest
        rcases hrest with hlt | hnone
        · omega
        · simp at hnone
      simp only [true_or, true_iff]
      exact .inl hrejected
  | cons q ts =>
      -- A first record is found: its payload is what reads as the payload.
      rw [allVisible_cons] at hts
      rw [frames, List.append_assoc] at hdata
      have hdata' : torn (frame offset p) j ++ List.replicate z 0
          = [] ++ (frame offset q ++ (frames (offset + 1) ts ++ rest)) := hdata
      have hq := check_frame hdata' hts.1
      have hslice := slice_payload hdata'
      rw [List.length_nil, hcheck] at hq
      have hpass : ¬ TornRejected offset p j := by
        intro hrejected
        rw [if_pos hrejected] at hq
        simp at hq
      rw [if_neg hpass, Option.some_inj] at hq
      rw [List.length_nil, Nat.zero_add, ← hq, slice_torn] at hslice
      constructor
      · rintro (hnil | hone)
        · simp at hnil
        · rw [List.cons.injEq] at hone
          rw [hone.1] at hslice
          exact .inr hslice
      · rintro (hrejected | hpayload)
        · exact absurd hrejected hpass
        · right
          obtain rfl : q = p := by
            apply Payload.bytes_injective
            rw [← hslice, hpayload]
          -- Only zeros follow.
          have hlen : (torn (frame offset q) j).length = (frame offset q).length :=
            length_torn _ _
          have hzeros := List.append_inj_right hdata hlen
          cases ts with
          | nil => rfl
          | cons r ts =>
              exfalso
              apply stops_zeros (offset + 1) z r (allVisible_cons.mp hts.2).1
              rw [hzeros, frames, List.append_assoc]
              apply List.prefix_append

/-! ### A segment in a file of zeros -/

/-- A segment that was opened on a new file shows nothing. -/
theorem Segment.openFile_none (base m : ℕ) :
  (openFile base m none).Shows (List.replicate m 0) []
    ∧ (openFile base m none).seg.isSealed = false
    ∧ (openFile base m none).seg.mappedLen = m
  := by
  have hnone : ((none : Option File).getD File.empty).bytes = List.replicate 0 0 := rfl
  have hc := constructed_zeros base m hnone
  have hbytes : (constructedFile m none).bytes = List.replicate m 0 := resize_nil m
  rw [openFile_eq]
  refine ⟨⟨hc.tally, hbytes, Nat.zero_le _, ?_⟩, rfl, rfl⟩
  simp [constructed, TakenAsSealed, mapping]

/-- All payloads are accepted if there is room for all of them. -/
theorem Handle.Shows.accepted_all {h : Handle} {old : List UInt8} {ps qs : List Payload}
    (hs : h.Shows old ps) (hopen : h.seg.isSealed = false)
    (hroom : (frames h.seg.baseOffset (ps ++ qs)).length ≤ h.seg.mappedLen) :
  h.accepted qs = qs
  := by
  induction qs generalizing h ps with
  | nil => rfl
  | cons q qs ih =>
      obtain ⟨hfinal, houtput⟩ := h.append_final q
      have hfits : Fits q h.seg := by
        refine ⟨hopen, ?_⟩
        rw [frames_append, frames, List.length_append, List.length_append, length_frame] at hroom
        rw [hs.writePos_eq]
        omega
      rw [Handle.accepted, hfinal, houtput]
      simp only [if_pos hfits]
      rw [ih (hs.pushed hfits) hopen]
      rw [List.append_assoc]
      exact hroom

/-- A segment that was opened on a new file and has room for the payloads appended to it. -/
theorem Segment.appendAll_none {base m : ℕ} {ps : List Payload}
    (hroom : (frames base ps).length ≤ m) :
  ((openFile base m none).appendAll ps).Shows (List.replicate m 0) ps
    ∧ ((openFile base m none).appendAll ps).seg.baseOffset = base
  := by
  obtain ⟨hs, hopen, hmapped⟩ := openFile_none base m
  have hall : (openFile base m none).accepted ps = ps := by
    apply hs.accepted_all hopen
    rw [openFile_baseOffset, hmapped]
    exact hroom
  obtain ⟨hshows, hbase, -⟩ := hs.appendAll ps
  rw [hall] at hshows
  exact ⟨hshows, by rw [hbase, openFile_baseOffset]⟩

/-- The bytes that a torn write leaves. -/
theorem Handle.Shows.tornFile_bytes {h : Handle} {m : ℕ} {ps : List Payload} {p : Payload}
    (hs : h.Shows (List.replicate m 0) ps)
    (hroom : (frames h.seg.baseOffset (ps ++ [p])).length ≤ m) (j : ℕ) :
  (h.tornFile p j).bytes = frames h.seg.baseOffset ps
    ++ (torn (frame (h.seg.baseOffset + ps.length) p) j
      ++ List.replicate (m - (frames h.seg.baseOffset (ps ++ [p])).length) 0)
  := by
  have hlen : (frames h.seg.baseOffset (ps ++ [p])).length
      = (frames h.seg.baseOffset ps).length
        + (frame (h.seg.baseOffset + ps.length) p).length := by
    rw [frames_concat, List.length_append]
  simp only [Handle.tornFile, File.write]
  rw [hs.bytes, hs.writePos_eq, hs.nextOffset_eq, List.drop_replicate,
    overwrite_torn (by omega), hlen, Nat.sub_sub]

/-- Opening a file of the size of a segment shows the records it starts with. -/
theorem Segment.openFile_records {base m : ℕ} {f : File} {ps : List Payload} {rest : List UInt8}
    (hsize : f.bytes.length = m) (hdata : f.bytes = frames base ps ++ rest)
    (hps : AllVisible base ps) (hrest : Stops (base + ps.length) rest) :
  (openFile base m (some f)).records = ps.map Payload.bytes
  := by
  have hnone : f.bytes.length = (constructedFile m none).bytes.length := by
    rw [hsize]
    exact (length_resize [] m).symm
  obtain ⟨hbytes, hlen⟩ := constructed_same_size base hnone
  have hlen : (constructed base m (some f)).mappedLen = m := hlen
  have htally : (openFile base m (some f)).seg.toTally = (Tally.start base).after ps := by
    rw [openFile_eq, (constructed_toTally base m (some f)).1, hbytes, hlen,
      List.take_of_length_le hsize.le, replay_eq hdata hps hrest]
  have hfile : (openFile base m (some f)).file.bytes = f.bytes := by
    rw [openFile_eq]
    exact hbytes
  rw [Handle.records, htally, hfile, Tally.after_writePos _ base]
  have hscan := recordsFrom_frames [] ps hdata
  rw [List.nil_append] at hscan
  simpa [Tally.start] using hscan

/-- Opening a segment in which an append was stopped after `j` bytes recovers the complete
records, or these and the payload being appended, if and only if `TornSafe` holds. -/
theorem Segment.torn_write_iff (base m : ℕ) (ps : List Payload) (p : Payload) (j : ℕ)
    (hfirst : NoneEmptyAtZero base (ps.map Payload.bytes))
    (hroom : (frames base (ps ++ [p])).length ≤ m) :
  let h := (openFile base m none).appendAll ps
  let r := openFile base m (some (h.tornFile p j))
  (r.records = ps.map Payload.bytes ∨ r.records = (ps ++ [p]).map Payload.bytes)
    ↔ TornSafe (base + ps.length) p j
  := by
  intro h r
  have hlen : (frames base (ps ++ [p])).length
      = (frames base ps).length + (frame (base + ps.length) p).length := by
    rw [frames_concat, List.length_append]
  have hps : (frames base ps).length ≤ m := by omega
  obtain ⟨hshows, hbase⟩ := appendAll_none hps
  have hbytes := hshows.tornFile_bytes (p := p) (by rwa [hbase]) j
  rw [hbase] at hbytes
  obtain ⟨ts, rest, hts, hvisible, hstop⟩ := exists_frames
    (torn (frame (base + ps.length) p) j
      ++ List.replicate (m - (frames base (ps ++ [p])).length) 0) (base + ps.length)
  have hsize : (h.tornFile p j).bytes.length = m := by
    rw [hbytes, List.length_append, List.length_append, length_torn, List.length_replicate]
    omega
  have hdata : (h.tornFile p j).bytes = frames base (ps ++ ts) ++ rest := by
    rw [hbytes, hts, frames_append, List.append_assoc]
  have hrecords : r.records = (ps ++ ts).map Payload.bytes := by
    apply openFile_records hsize hdata
    · rw [allVisible_append, allVisible_iff]
      exact ⟨hfirst, hvisible⟩
    · rwa [List.length_append, ← Nat.add_assoc]
  have hinj := List.map_injective_iff.mpr Payload.bytes_injective
  rw [hrecords, ← torn_records_iff hts hvisible hstop, hinj.eq_iff, hinj.eq_iff,
    List.append_right_inj]
  simp

/-- A payload of which the offset field and a part of the length field were written. -/
theorem Segment.torn_write_length :
  let ps : List Payload := [⟨[1], by decide⟩]
  let p : Payload := ⟨[2], by decide⟩
  let h := (openFile 0 64 none).appendAll ps
  let r := openFile 0 64 (some (h.tornFile p 9))
  NoneEmptyAtZero 0 (ps.map Payload.bytes) ∧ (frames 0 (ps ++ [p])).length ≤ 64
    ∧ (r.records = ps.map Payload.bytes ∨ r.records = (ps ++ [p]).map Payload.bytes)
  := by
  intro ps p h r
  have hfirst : NoneEmptyAtZero 0 (ps.map Payload.bytes) := by decide
  have hroom : (frames 0 (ps ++ [p])).length ≤ 64 := by decide
  exact ⟨hfirst, hroom, (torn_write_iff 0 64 ps p 9 hfirst hroom).mpr (by decide +kernel)⟩

/-- Killed after the offset field was written: an empty record appears that was never
appended. -/
theorem Segment.torn_write_phantom :
  let ps : List Payload := [⟨[1], by decide⟩]
  let p : Payload := ⟨[2], by decide⟩
  let h := (openFile 0 64 none).appendAll ps
  let r := openFile 0 64 (some (h.tornFile p 8))
  NoneEmptyAtZero 0 (ps.map Payload.bytes) ∧ (frames 0 (ps ++ [p])).length ≤ 64
    ∧ crc32 [0] ≠ crc32 p.bytes
    ∧ r.records = [[1], []] ∧ r.seg.nextOffset = 2 ∧ r.read 1 = some ⟨1, []⟩
  := by
  decide +kernel

end Storage
