import Cascade.Storage.Checksum
import Cascade.Storage.SparseIndex
import Cascade.Storage.TornWrite

/-!
# Corruption

What opening a segment finds in a file in which something was changed since it was written. The
checksum is the contents of a shift register (`toBitVec_crc32Byte`), so a change of at most four
consecutive bytes of a payload is always found out (`crc32_ne`, `Segment.payload_damage`). It
covers the payload only. A flipped bit in the length field of a header makes other bytes the
payload, and whether these are rejected depends on them (`Segment.header_flip_iff`).

An empty record at offset zero looks like the untouched part of a file. If it is the first one
of a segment, opening the segment again finds nothing at all (`Segment.empty_first_iff`).
-/

open Bytes Crash Crash.Program

namespace Storage

/-! ### Damaged bytes -/

/-- A change of at most four consecutive bytes changes the checksum. -/
theorem crc32_ne (pre post : List UInt8) {bs bs' : List UInt8} (hlen : bs.length = bs'.length)
    (hfour : bs.length ≤ 4) (hne : bs ≠ bs') :
  crc32 (pre ++ (bs ++ post)) ≠ crc32 (pre ++ (bs' ++ post))
  := by
  intro heq
  rw [crc32, crc32, UInt32.xor_left_inj, ← UInt32.toBitVec_inj, toBitVec_foldl_crc32Byte,
    toBitVec_foldl_crc32Byte] at heq
  simp only [List.map_append] at heq
  apply ShiftRegister.foldl_feed_ne rfl _ _ _ _ _ _ heq
  · rw [List.length_map, List.length_map, hlen]
  · rw [List.length_map]
    omega
  · intro hmap
    apply hne
    apply List.map_injective_iff.mpr _ hmap
    intro a b hab
    apply UInt8.toBitVec_inj.mp hab

/-- Other bytes in at most four places change the checksum. -/
theorem crc32_overwrite_ne {bytes new : List UInt8} {i : ℕ} (hfour : new.length ≤ 4)
    (hin : i + new.length ≤ bytes.length) (hne : overwrite bytes i new ≠ bytes) :
  crc32 (overwrite bytes i new) ≠ crc32 bytes
  := by
  have hsplit : bytes = bytes.take i
      ++ (slice bytes i new.length ++ bytes.drop (i + new.length)) := by
    rw [slice, ← List.drop_drop, List.take_append_drop, List.take_append_drop]
  have hlen : (slice bytes i new.length).length = new.length := length_slice hin
  have hchanged : new ≠ slice bytes i new.length := by
    intro heq
    apply hne
    rw [overwrite, heq, length_slice hin]
    exact hsplit.symm
  nth_rewrite 2 [hsplit]
  apply crc32_ne _ _ hlen.symm hfour hchanged

/-! ### Opening a changed file -/

/-- What opening a file of the size of an earlier one finds. -/
theorem Segment.reopen_found {base m : ℕ} {file : Option File} {f : File} {ps : List Payload}
    {rest : List UInt8} (hsize : f.bytes.length = (openFile base m file).file.bytes.length)
    (hdata : f.bytes.take (openFile base m file).seg.mappedLen = frames base ps ++ rest)
    (hps : AllVisible base ps) (hrest : Stops (base + ps.length) rest) :
  (openFile base m (some f)).seg.toTally = (Tally.start base).after ps
    ∧ (openFile base m (some f)).records = ps.map Payload.bytes
  := by
  rw [openFile_eq base m file] at hsize hdata
  obtain ⟨hbytes, hlen⟩ := constructed_same_size base hsize
  have htally : (openFile base m (some f)).seg.toTally = (Tally.start base).after ps := by
    rw [openFile_eq, (constructed_toTally base m (some f)).1, hbytes, hlen]
    apply replay_eq hdata hps hrest
  refine ⟨htally, ?_⟩
  have hsplit : f.bytes = frames base ps
      ++ (rest ++ f.bytes.drop (constructed base m file).mappedLen) := by
    rw [← List.append_assoc, ← hdata, List.take_append_drop]
  have hscan := recordsFrom_frames [] ps hsplit
  rw [Handle.records, htally, Tally.after_writePos _ base, openFile_eq]
  simp only [hbytes, Tally.start, Nat.zero_add]
  exact hscan

/-- The header of a record. -/
def frameHeader (offset : ℕ) (p : Payload) : List UInt8 :=
  littleEndian 8 offset ++ (littleEndian 4 p.len ++ littleEndian 4 (crc32 p.bytes).toNat)

theorem frame_eq (offset : ℕ) (p : Payload) :
  frame offset p = frameHeader offset p ++ p.bytes
  := by
  simp only [frame, frameHeader, List.append_assoc]

theorem length_frameHeader (offset : ℕ) (p : Payload) :
  (frameHeader offset p).length = kRecordHeaderSize
  := by
  simp only [frameHeader, List.length_append, length_littleEndian, kRecordHeaderSize]

/-- The record number `k` of a segment, with its bytes and those around it. -/
structure Handle.Stands (h : Handle) (k : ℕ) (pre : List Payload) (p : Payload)
    (rest : List UInt8) : Prop where
  records : h.records.take k = pre.map Payload.bytes
  position : (frames h.seg.baseOffset pre).length = recordStart h.records k
  length : pre.length = k
  visible : AllVisible h.seg.baseOffset (pre ++ [p])
  bytes : h.file.bytes
    = frames h.seg.baseOffset pre ++ (frame (h.seg.baseOffset + k) p ++ rest)
  inside : (frames h.seg.baseOffset pre).length + (kRecordHeaderSize + p.len) ≤ h.seg.mappedLen
  mapped : h.seg.mappedLen ≤ h.file.bytes.length

theorem Handle.Shows.stands {h : Handle} {old : List UInt8} {ps : List Payload}
    (hs : h.Shows old ps) (hfirst : NoneEmptyAtZero h.seg.baseOffset h.records) {k : ℕ}
    {bytes : List UInt8} (hk : h.records[k]? = some bytes) :
  ∃ pre p rest, p.bytes = bytes ∧ h.Stands k pre p rest
  := by
  rw [hs.records_eq, List.getElem?_map, Option.map_eq_some_iff] at hk
  obtain ⟨p, hp, rfl⟩ := hk
  obtain ⟨hlt, rfl⟩ := List.getElem?_eq_some_iff.mp hp
  have hlen : (ps.take k).length = k := List.length_take_of_le hlt.le
  have hsplit : ps = ps.take k ++ ps[k] :: ps.drop (k + 1) := by
    rw [← List.drop_eq_getElem_cons hlt, List.take_append_drop]
  have hframes : frames h.seg.baseOffset ps = frames h.seg.baseOffset (ps.take k)
      ++ (frame (h.seg.baseOffset + k) ps[k]
        ++ frames (h.seg.baseOffset + k + 1) (ps.drop (k + 1))) := by
    conv_lhs => rw [hsplit, frames_append, frames, hlen]
  have hlength := congrArg List.length hframes
  rw [List.length_append, List.length_append, length_frame] at hlength
  have hinside := hs.inside
  use ps.take k, ps[k], frames (h.seg.baseOffset + k + 1) (ps.drop (k + 1))
    ++ old.drop (frames h.seg.baseOffset ps).length
  refine ⟨rfl, ?_⟩
  constructor
  case records => rw [hs.records_eq, List.map_take]
  case position => rw [length_frames_take, hs.records_eq]
  case length => exact hlen
  case visible =>
    rw [hs.records_eq, ← allVisible_iff] at hfirst
    rw [List.take_concat_get' ps k hlt]
    apply hfirst.take
  case bytes =>
    rw [hs.bytes]
    nth_rewrite 1 [hframes]
    simp only [List.append_assoc]
  case inside => omega
  case mapped =>
    rw [hs.length_bytes]
    exact hs.mapped

@[simp]
theorem Segment.appendAll_baseOffset (base m : ℕ) (file : Option File) (ps : List Payload) :
  ((openFile base m file).appendAll ps).seg.baseOffset = base
  := by
  obtain ⟨qs, hqs, -⟩ := openFile_shows base m file
  rw [(hqs.appendAll ps).2.1, openFile_baseOffset]

theorem Segment.exists_stands {base m : ℕ} {file : Option File} {ps : List Payload}
    (hfirst : NoneEmptyAtZero base ((openFile base m file).appendAll ps).records)
    {k : ℕ} {bytes : List UInt8}
    (hk : ((openFile base m file).appendAll ps).records[k]? = some bytes) :
  ∃ pre p rest, p.bytes = bytes ∧ ((openFile base m file).appendAll ps).Stands k pre p rest
  := by
  obtain ⟨qs, hqs, -⟩ := openFile_shows base m file
  apply (hqs.appendAll ps).1.stands _ hk
  rwa [appendAll_baseOffset]

/-- The bytes behind the header of the record. -/
theorem Handle.Stands.slice_eq {h : Handle} {k : ℕ} {pre : List Payload} {p : Payload}
    {rest : List UInt8} (hst : h.Stands k pre p rest) (len : ℕ) :
  slice h.file.bytes (recordStart h.records k + kRecordHeaderSize) len = (p.bytes ++ rest).take len
  := by
  have hfront : (frames h.seg.baseOffset pre ++ frameHeader (h.seg.baseOffset + k) p).length
      = recordStart h.records k + kRecordHeaderSize := by
    rw [List.length_append, length_frameHeader, hst.position]
  have hbytes : h.file.bytes = (frames h.seg.baseOffset pre
      ++ frameHeader (h.seg.baseOffset + k) p) ++ (p.bytes ++ rest) := by
    rw [hst.bytes, frame_eq]
    simp only [List.append_assoc]
  rw [slice, hbytes, List.drop_left' hfront]

section Damaged

variable {base m : ℕ} {file : Option File} {ps pre : List Payload} {k : ℕ} {p : Payload}
  {rest : List UInt8}

/-- With other bytes in the place of record `k`, the records in front of it are recovered, and
these only if and only if no record is found in its place. -/
theorem Segment.reopen_damaged_iff
    (hst : ((openFile base m file).appendAll ps).Stands k pre p rest)
    {f : File} {cell : List UInt8} (hcell : cell.length = kRecordHeaderSize + p.len)
    (hf : f.bytes = frames base pre ++ (cell ++ rest)) :
  let h := (openFile base m file).appendAll ps
  let r := openFile base m (some f)
  let found := cell ++ rest.take (h.seg.mappedLen - ((frames base pre).length + cell.length))
  (r.records = h.records.take k ↔ Stops (base + k) found)
    ∧ (Stops (base + k) found →
        r.seg.nextOffset = base + k ∧ r.seg.writePos = recordStart h.records k)
  := by
  intro h r found
  obtain ⟨qs, hqs, -⟩ := openFile_shows base m file
  obtain ⟨hs, -, hmapped, -⟩ := hqs.appendAll ps
  have hbytes := hst.bytes
  have hvisible := hst.visible
  have hinside := hst.inside
  have hposition := hst.position
  rw [appendAll_baseOffset] at hbytes hvisible hinside hposition
  have hpre : AllVisible base pre := (allVisible_append.mp hvisible).1
  have hsize : f.bytes.length = (openFile base m file).file.bytes.length := by
    rw [← hs.length_bytes, hbytes, hf]
    simp only [List.length_append, length_frame, hcell]
  have hdata : f.bytes.take (openFile base m file).seg.mappedLen = frames base pre ++ found := by
    rw [← hmapped, hf, List.take_append, List.take_of_length_le (by omega), List.take_append,
      List.take_of_length_le (by omega), Nat.sub_sub]
  -- What is found behind the records in front.
  obtain ⟨ts, rest', hts, htsv, hstop⟩ := exists_frames found (base + k)
  have hall : f.bytes.take (openFile base m file).seg.mappedLen
      = frames base (pre ++ ts) ++ rest' := by
    rw [hdata, hts, frames_append, hst.length, List.append_assoc]
  have hallv : AllVisible base (pre ++ ts) := by
    rw [allVisible_append, hst.length]
    exact ⟨hpre, htsv⟩
  have hstop' : Stops (base + (pre ++ ts).length) rest' := by
    rwa [List.length_append, hst.length, ← Nat.add_assoc]
  obtain ⟨htally, hrecords⟩ := reopen_found hsize hall hallv hstop'
  have hnil : ts = [] ↔ Stops (base + k) found := by
    constructor
    · rintro rfl
      rw [hts]
      exact hstop
    · intro hno
      cases ts with
      | nil => rfl
      | cons t ts =>
          exfalso
          apply hno t (allVisible_cons.mp htsv).1
          rw [hts, frames, List.append_assoc]
          apply List.prefix_append
  refine ⟨?_, ?_⟩
  · rw [show r.records = _ from hrecords, hst.records, ← hnil,
      (List.map_injective_iff.mpr Payload.bytes_injective).eq_iff]
    simp
  · intro hno
    rw [hnil.mpr hno, List.append_nil] at htally
    rw [show r.seg.toTally = _ from htally, Tally.after_nextOffset, Tally.after_writePos _ base,
      hst.length, ← hposition]
    exact ⟨rfl, Nat.zero_add _⟩

end Damaged

/-- A record is not found where one of the checks fails. -/
theorem stops_parts {a b c tail : List UInt8} (ha : a.length = 8) (hb : b.length = 4)
    (hc : c.length = 4) (offset : ℕ) :
  Stops offset (a ++ (b ++ (c ++ tail)))
    ↔ (ofLittleEndian a = 0 ∧ ofLittleEndian b = 0 ∧ ofLittleEndian c = 0)
      ∨ ofLittleEndian a ≠ offset % 2 ^ 64
      ∨ tail.length < ofLittleEndian b
      ∨ (crc32 (tail.take (ofLittleEndian b))).toNat ≠ ofLittleEndian c
  := by
  have hload : Header.load ([] ++ (a ++ (b ++ (c ++ tail)))) 0 = _ := Header.load_parts ha hb hc
  rw [List.nil_append] at hload
  have hheader : (a ++ (b ++ c)).length = kRecordHeaderSize := by
    rw [List.length_append, List.length_append, ha, hb, hc]
    rfl
  have hdata : a ++ (b ++ (c ++ tail)) = (a ++ (b ++ c)) ++ tail := by
    simp only [List.append_assoc]
  have hlen : (a ++ (b ++ (c ++ tail))).length = kRecordHeaderSize + tail.length := by
    rw [hdata, List.length_append, hheader]
  have hslice : ∀ n, slice (a ++ (b ++ (c ++ tail))) kRecordHeaderSize n = tail.take n := by
    intro n
    rw [hdata, slice, ← hheader, List.drop_left]
  have hroom : ¬ kRecordHeaderSize + tail.length < kRecordHeaderSize := by omega
  have hshort : kRecordHeaderSize + tail.length < kRecordHeaderSize + ofLittleEndian b
      ↔ tail.length < ofLittleEndian b := by omega
  rw [stops_iff_check, check]
  simp only [hload, hlen, Nat.zero_add, hslice, hroom, hshort, false_or]
  by_cases h₁ : ofLittleEndian a = 0 ∧ ofLittleEndian b = 0 ∧ ofLittleEndian c = 0
  · simp only [if_pos h₁, true_iff]
    exact .inl h₁
  by_cases h₂ : ofLittleEndian a ≠ offset % 2 ^ 64
  · simp only [if_neg h₁, if_pos h₂, true_iff]
    exact .inr (.inl h₂)
  by_cases h₃ : tail.length < ofLittleEndian b
  · simp only [if_neg h₁, if_neg h₂, if_pos h₃, true_iff]
    exact .inr (.inr (.inl h₃))
  · simp only [h₁, h₂, h₃, ite_false, false_or]
    exact ite_eq_left_iff.trans (by simp)

theorem ofLittleEndian_len (p : Payload) :
  ofLittleEndian (littleEndian 4 p.len) = p.len
  := by
  rw [ofLittleEndian_littleEndian]
  apply Nat.mod_eq_of_lt p.length_lt

theorem ofLittleEndian_crc32 (bytes : List UInt8) :
  ofLittleEndian (littleEndian 4 (crc32 bytes).toNat) = (crc32 bytes).toNat
  := by
  rw [ofLittleEndian_littleEndian]
  apply Nat.mod_eq_of_lt (crc32 bytes).toNat_lt

/-! ### Damaged payloads -/

/-- A record with another payload of the same length but another checksum is not found. -/
theorem stops_payload {offset : ℕ} {p : Payload} {payload : List UInt8}
    (hlen : payload.length = p.len) (hcrc : crc32 payload ≠ crc32 p.bytes) (rest : List UInt8) :
  Stops offset (frameHeader offset p ++ (payload ++ rest))
  := by
  rw [frameHeader, List.append_assoc, List.append_assoc,
    stops_parts (length_littleEndian 8 _) (length_littleEndian 4 _) (length_littleEndian 4 _)]
  right; right; right
  rw [ofLittleEndian_len, ofLittleEndian_crc32, List.take_left' hlen]
  intro heq
  apply hcrc (UInt32.toNat_inj.mp heq)

/-- After a change of at most four consecutive bytes in the payload of record `k`, exactly the
records in front of it are recovered. -/
theorem Segment.payload_damage (base m : ℕ) (file : Option File) (ps : List Payload)
    (hfirst : NoneEmptyAtZero base ((openFile base m file).appendAll ps).records)
    {k : ℕ} {bytes : List UInt8}
    (hk : ((openFile base m file).appendAll ps).records[k]? = some bytes)
    {i : ℕ} {new : List UInt8} (hfour : new.length ≤ 4) (hin : i + new.length ≤ bytes.length)
    {f : File}
    (hf : f.bytes = overwrite ((openFile base m file).appendAll ps).file.bytes
      (recordStart ((openFile base m file).appendAll ps).records k + kRecordHeaderSize + i) new)
    (hne : f.bytes ≠ ((openFile base m file).appendAll ps).file.bytes) :
  let h := (openFile base m file).appendAll ps
  let r := openFile base m (some f)
  r.records = h.records.take k ∧ r.seg.nextOffset = base + k
    ∧ r.seg.writePos = recordStart h.records k
  := by
  intro h r
  obtain ⟨pre, p, rest, rfl, hst⟩ := exists_stands hfirst hk
  have hbytes := hst.bytes
  have hposition := hst.position
  rw [appendAll_baseOffset] at hbytes hposition
  -- Only the payload is changed.
  have hfile : h.file.bytes
      = (frames base pre ++ frameHeader (base + k) p) ++ (p.bytes ++ rest) := by
    rw [show h.file.bytes = _ from hbytes, frame_eq]
    simp only [List.append_assoc]
  have hat : recordStart h.records k + kRecordHeaderSize
      = (frames base pre ++ frameHeader (base + k) p).length := by
    rw [List.length_append, length_frameHeader, hposition]
  have hchanged : f.bytes
      = (frames base pre ++ frameHeader (base + k) p) ++ (overwrite p.bytes i new ++ rest) := by
    rw [hf, show ((openFile base m file).appendAll ps).file.bytes = _ from hfile, hat,
      overwrite_mid _ hin]
  have hlen : (overwrite p.bytes i new).length = p.len := length_overwrite hin
  have hcrc : crc32 (overwrite p.bytes i new) ≠ crc32 p.bytes := by
    apply crc32_overwrite_ne hfour hin
    intro heq
    apply hne
    rw [hchanged, heq, ← hfile]
  have hcell : (frameHeader (base + k) p ++ overwrite p.bytes i new).length
      = kRecordHeaderSize + p.len := by
    rw [List.length_append, length_frameHeader, hlen]
  obtain ⟨hiff, hplace⟩ := reopen_damaged_iff hst hcell (f := f)
    (by rw [hchanged]; simp only [List.append_assoc])
  have hstop : Stops (base + k) (frameHeader (base + k) p ++ (overwrite p.bytes i new
      ++ rest.take (h.seg.mappedLen - ((frames base pre).length
        + (frameHeader (base + k) p ++ overwrite p.bytes i new).length)))) :=
    stops_payload hlen hcrc _
  rw [← List.append_assoc] at hstop
  exact ⟨hiff.mpr hstop, hplace hstop⟩

/-- One byte of the second of three records. -/
theorem Segment.payload_damage_second :
  let h := (openFile 0 80 none).appendAll [⟨[1], by decide⟩, ⟨[2, 3], by decide⟩, ⟨[4], by decide⟩]
  let f : File := ⟨overwrite h.file.bytes (17 + 16 + 1) [9], 0⟩
  let r := openFile 0 80 (some f)
  h.records = [[1], [2, 3], [4]] ∧ f.bytes ≠ h.file.bytes
    ∧ r.records = [[1]] ∧ r.seg.nextOffset = 1 ∧ r.seg.writePos = 17
  := by
  intro h f r
  have hrecords : h.records = [[1], [2, 3], [4]] := by decide +kernel
  have hchanged : f.bytes ≠ h.file.bytes := by decide +kernel
  have hstart : recordStart h.records 1 = 17 := by
    rw [hrecords]
    rfl
  have hfound := payload_damage 0 80 none
    [⟨[1], by decide⟩, ⟨[2, 3], by decide⟩, ⟨[4], by decide⟩]
    (k := 1) (i := 1) (f := f) (by decide +kernel)
    (show h.records[1]? = some [2, 3] by rw [hrecords]; rfl) (by decide) (by decide)
    (show f.bytes = overwrite h.file.bytes (recordStart h.records 1 + 16 + 1) [9] by
      rw [hstart])
    hchanged
  refine ⟨hrecords, hchanged, ?_, hfound.2.1, ?_⟩
  · rw [show r.records = _ from hfound.1, hrecords]
    rfl
  · rw [show r.seg.writePos = _ from hfound.2.2, hstart]

/-! ### Damaged headers -/

/-- The bytes behind the header of record `k`, with another length than that of the record,
pass the checks of `replay`. -/
def Handle.PassesAs (h : Handle) (k : ℕ) (bytes : List UInt8) (len : ℕ) : Prop :=
  recordStart h.records k + kRecordHeaderSize + len ≤ h.seg.mappedLen
    ∧ crc32 (slice h.file.bytes (recordStart h.records k + kRecordHeaderSize) len) = crc32 bytes
    ∧ ¬ ((h.seg.baseOffset + k) % 2 ^ 64 = 0 ∧ len = 0 ∧ crc32 bytes = 0)

instance (h : Handle) (k : ℕ) (bytes : List UInt8) (len : ℕ) :
    Decidable (h.PassesAs k bytes len) :=
  inferInstanceAs (Decidable (_ ∧ _))

theorem xor_two_pow_ne (n e : ℕ) :
  n ^^^ 2 ^ e ≠ n
  := by
  intro h
  have hbit := congrArg (fun x => x.testBit e) h
  simp [Nat.testBit_xor] at hbit

section Flipped

variable (offset : ℕ) (p : Payload) (rest : List UInt8) {i j : ℕ}

/-- With a flipped bit in its offset a record is not found. -/
theorem stops_flip_offset (hi : i < 8) (hj : j < 8) :
  Stops offset (flipBit (frame offset p) i j ++ rest)
  := by
  have ha := length_littleEndian 8 offset
  have hoff : ofLittleEndian (littleEndian 8 offset) = offset % 2 ^ 64 :=
    ofLittleEndian_littleEndian 8 offset
  rw [frame, flipBit_append_left (by rwa [ha])]
  simp only [List.append_assoc]
  rw [stops_parts (by rw [length_flipBit, ha]) (length_littleEndian 4 _)
    (length_littleEndian 4 _), ofLittleEndian_flipBit (by rwa [ha]) hj, hoff]
  exact .inr (.inl (xor_two_pow_ne _ _))

/-- With a flipped bit in its checksum a record is not found. -/
theorem stops_flip_crc (hi : i < 4) (hj : j < 8) :
  Stops offset (flipBit (frame offset p) (12 + i) j ++ rest)
  := by
  have hc := length_littleEndian 4 (crc32 p.bytes).toNat
  have hfront : (littleEndian 8 offset ++ littleEndian 4 p.len).length = 12 := by
    rw [List.length_append, length_littleEndian, length_littleEndian]
  rw [frame, ← List.append_assoc, ← hfront, flipBit_mid _ (by rwa [hc])]
  simp only [List.append_assoc]
  rw [stops_parts (length_littleEndian 8 _) (length_littleEndian 4 _)
    (by rw [length_flipBit, hc]), ofLittleEndian_flipBit (by rwa [hc]) hj, ofLittleEndian_len,
    ofLittleEndian_crc32, List.take_left' (show p.bytes.length = p.len from rfl)]
  exact .inr (.inr (.inr (xor_two_pow_ne _ _).symm))

/-- With a flipped bit in its length, a record is found if the bytes of that length pass the
checks. -/
theorem stops_flip_len (hi : i < 4) (hj : j < 8) :
  Stops offset (flipBit (frame offset p) (8 + i) j ++ rest)
    ↔ ¬ (p.len ^^^ 2 ^ (8 * i + j) ≤ (p.bytes ++ rest).length
      ∧ crc32 ((p.bytes ++ rest).take (p.len ^^^ 2 ^ (8 * i + j))) = crc32 p.bytes
      ∧ ¬ (offset % 2 ^ 64 = 0 ∧ p.len ^^^ 2 ^ (8 * i + j) = 0 ∧ crc32 p.bytes = 0))
  := by
  have ha := length_littleEndian 8 offset
  have hb := length_littleEndian 4 p.len
  have hoff : ofLittleEndian (littleEndian 8 offset) = offset % 2 ^ 64 :=
    ofLittleEndian_littleEndian 8 offset
  have hflip := flipBit_mid (littleEndian 8 offset)
    (by rwa [hb] : i < (littleEndian 4 p.len).length)
    (littleEndian 4 (crc32 p.bytes).toNat ++ p.bytes) j
  rw [ha] at hflip
  have hzero : (crc32 p.bytes).toNat = 0 ↔ crc32 p.bytes = 0 := UInt32.toNat_inj (b := 0)
  rw [frame, hflip]
  simp only [List.append_assoc]
  rw [stops_parts ha (by rw [length_flipBit, hb]) (length_littleEndian 4 _),
    ofLittleEndian_flipBit (by rwa [hb]) hj, hoff, ofLittleEndian_len, ofLittleEndian_crc32,
    hzero, ne_eq, ne_eq, UInt32.toNat_inj]
  constructor
  · rintro hfails ⟨hle, hcrc, hzeros⟩
    rcases hfails with hz | hother | hlt | hne
    · exact hzeros hz
    · exact hother rfl
    · exact absurd hlt (Nat.not_lt.mpr hle)
    · exact hne hcrc
  · intro hfails
    by_contra hpass
    rw [not_or, not_or, not_or, not_not, not_not] at hpass
    exact hfails ⟨Nat.le_of_not_lt hpass.2.2.1, hpass.2.2.2, hpass.1⟩

end Flipped

/-- `PassesAs` in terms of what is mapped behind the header. -/
theorem Handle.Stands.passesAs_iff {h : Handle} {k : ℕ} {pre : List Payload} {p : Payload}
    {rest : List UInt8} (hst : h.Stands k pre p rest) (len : ℕ) :
  h.PassesAs k p.bytes len
    ↔ len ≤ (p.bytes ++ rest.take (h.seg.mappedLen - ((frames h.seg.baseOffset pre).length
          + (kRecordHeaderSize + p.len)))).length
      ∧ crc32 ((p.bytes ++ rest.take (h.seg.mappedLen
          - ((frames h.seg.baseOffset pre).length + (kRecordHeaderSize + p.len)))).take len)
        = crc32 p.bytes
      ∧ ¬ ((h.seg.baseOffset + k) % 2 ^ 64 = 0 ∧ len = 0 ∧ crc32 p.bytes = 0)
  := by
  have hinside := hst.inside
  have hmapped := hst.mapped
  have hposition := hst.position
  have hlen : p.bytes.length = p.len := rfl
  rw [hst.bytes, List.length_append, List.length_append, length_frame] at hmapped
  set n := h.seg.mappedLen - ((frames h.seg.baseOffset pre).length + (kRecordHeaderSize + p.len))
  have hroom : recordStart h.records k + kRecordHeaderSize + len ≤ h.seg.mappedLen
      ↔ len ≤ (p.bytes ++ rest.take n).length := by
    rw [List.length_append, List.length_take]
    omega
  rw [Handle.PassesAs, hroom, hst.slice_eq]
  apply and_congr_right
  intro hle
  have htake : (p.bytes ++ rest.take n).take len = (p.bytes ++ rest).take len := by
    rw [← List.take_length_add_append, List.take_take]
    congr 1
    rw [List.length_append, List.length_take] at hle
    omega
  rw [htake]

/-- After a single bit of the header of record `k` was flipped, exactly the records in front of
it are recovered if and only if the bit does not belong to the length or the bytes of the other
length fail a check. -/
theorem Segment.header_flip_iff (base m : ℕ) (file : Option File) (ps : List Payload)
    (hfirst : NoneEmptyAtZero base ((openFile base m file).appendAll ps).records)
    {k : ℕ} {bytes : List UInt8}
    (hk : ((openFile base m file).appendAll ps).records[k]? = some bytes)
    {i j : ℕ} (hi : i < kRecordHeaderSize) (hj : j < 8) {f : File}
    (hf : f.bytes = flipBit ((openFile base m file).appendAll ps).file.bytes
      (recordStart ((openFile base m file).appendAll ps).records k + i) j) :
  let h := (openFile base m file).appendAll ps
  let r := openFile base m (some f)
  (r.records = h.records.take k ∧ r.records <+: h.records)
    ↔ ¬ (8 ≤ i ∧ i < 12 ∧ h.PassesAs k bytes (bytes.length ^^^ 2 ^ (8 * (i - 8) + j)))
  := by
  intro h r
  obtain ⟨pre, p, rest, rfl, hst⟩ := exists_stands hfirst hk
  have hbytes := hst.bytes
  have hposition := hst.position
  rw [appendAll_baseOffset] at hbytes hposition
  have hcell : (flipBit (frame (base + k) p) i j).length = kRecordHeaderSize + p.len := by
    rw [length_flipBit, length_frame]
  have hflipped : f.bytes
      = frames base pre ++ (flipBit (frame (base + k) p) i j ++ rest) := by
    rw [hf, hbytes, ← hposition, flipBit_mid]
    rw [length_frame]
    omega
  obtain ⟨hiff, -⟩ := reopen_damaged_iff hst hcell hflipped
  have hboth : (r.records = h.records.take k ∧ r.records <+: h.records)
      ↔ r.records = h.records.take k := by
    refine ⟨And.left, fun heq => ⟨heq, ?_⟩⟩
    rw [heq]
    apply List.take_prefix
  rw [hboth, hiff]
  rcases Nat.lt_or_ge i 8 with h₈ | h₈
  · apply iff_of_true (stops_flip_offset _ _ _ h₈ hj)
    omega
  rcases Nat.lt_or_ge i 12 with h₁₂ | h₁₂
  · obtain ⟨i, rfl⟩ := Nat.exists_eq_add_of_le h₈
    rw [stops_flip_len _ _ _ (by omega) hj, hcell, Nat.add_sub_cancel_left, not_iff_not]
    simp only [h₈, h₁₂, true_and]
    rw [hst.passesAs_iff, appendAll_baseOffset]
    rfl
  · obtain ⟨i, rfl⟩ := Nat.exists_eq_add_of_le h₁₂
    rw [kRecordHeaderSize] at hi
    apply iff_of_true (stops_flip_crc _ _ _ (by omega) hj)
    omega

/-- A flipped bit in the length of the second of three records. -/
theorem Segment.header_flip_caught :
  let h := (openFile 0 80 none).appendAll [⟨[1], by decide⟩, ⟨[2, 3], by decide⟩, ⟨[4], by decide⟩]
  let f : File := ⟨flipBit h.file.bytes (17 + 8) 0, 0⟩
  let r := openFile 0 80 (some f)
  h.records = [[1], [2, 3], [4]] ∧ ¬ h.PassesAs 1 [2, 3] 3 ∧ r.records = [[1]]
  := by
  intro h f r
  have hrecords : h.records = [[1], [2, 3], [4]] := by decide +kernel
  have hfails : ¬ h.PassesAs 1 [2, 3] 3 := by decide +kernel
  have hstart : recordStart h.records 1 = 17 := by
    rw [hrecords]
    rfl
  have hfound := (header_flip_iff 0 80 none
    [⟨[1], by decide⟩, ⟨[2, 3], by decide⟩, ⟨[4], by decide⟩]
    (k := 1) (i := 8) (j := 0) (f := f) (by decide +kernel)
    (show h.records[1]? = some [2, 3] by rw [hrecords]; rfl) (by decide) (by decide)
    (show f.bytes = flipBit h.file.bytes (recordStart h.records 1 + 8) 0 by rw [hstart])).mpr
    (fun hpass => hfails hpass.2.2)
  refine ⟨hrecords, hfails, ?_⟩
  rw [show r.records = _ from hfound.1, hrecords]
  rfl

/-- The checksum of these four bytes is zero, as is that of no bytes. With bit two of its length
flipped the second record reads as an empty one, which was never appended. -/
theorem Segment.header_flip_missed :
  let h := (openFile 0 80 none).appendAll
    [⟨[1], by decide⟩, ⟨[0x9D, 0x0A, 0xD9, 0x6D], by decide⟩]
  let f : File := ⟨flipBit h.file.bytes (recordStart h.records 1 + 8) 2, 0⟩
  let r := openFile 0 80 (some f)
  NoneEmptyAtZero 0 h.records ∧ h.records = [[1], [0x9D, 0x0A, 0xD9, 0x6D]]
    ∧ r.records = [[1], []] ∧ r.seg.nextOffset = 2 ∧ r.read 1 = some ⟨1, []⟩
  := by
  decide +kernel

/-! ### An empty record at offset zero -/

theorem length_le_length_frames (base : ℕ) (ps : List Payload) :
  kRecordHeaderSize * ps.length ≤ (frames base ps).length
  := by
  induction ps generalizing base with
  | nil => exact Nat.zero_le _
  | cons p ps ih =>
      have := ih (base + 1)
      rw [frames, List.length_append, length_frame, List.length_cons, Nat.mul_succ]
      omega

/-- Nothing is found where an empty record with offset zero stands. -/
theorem stops_empty_first {p : Payload} (hp : p.bytes = []) (rest : List UInt8) :
  Stops 0 (frame 0 p ++ rest)
  := by
  intro q hq hframe
  obtain rfl := frame_unique hframe (List.prefix_append (frame 0 p) rest)
  exact hq ⟨rfl, hp⟩

/-- Of what was appended to a new segment with base offset zero, opening it again loses at most
one record if and only if there was at most one or the first one is not empty. -/
theorem Segment.empty_first_iff (m : UInt64) (ps : List Payload) :
  let h := (openFile 0 m.toNat none).appendAll ps
  let r := openFile 0 m.toNat (some h.file)
  h.records = ((openFile 0 m.toNat none).accepted ps).map Payload.bytes
    ∧ ((r.records <+: h.records ∧ h.records.length ≤ r.records.length + 1)
      ↔ (h.records.length ≤ 1 ∨ h.records.head? ≠ some []))
  := by
  intro h r
  obtain ⟨hs, -, hmapped⟩ := openFile_none 0 m.toNat
  obtain ⟨hshows, hbase, hmapped', -⟩ := hs.appendAll ps
  rw [List.nil_append] at hshows
  rw [openFile_baseOffset] at hbase
  set qs := (openFile 0 m.toNat none).accepted ps
  have hrecords : h.records = qs.map Payload.bytes := hshows.records_eq
  have hsize : h.file.bytes.length = (openFile 0 m.toNat none).file.bytes.length := by
    rw [hshows.length_bytes, hs.length_bytes]
  have hlen : h.file.bytes.length = m.toNat := by
    rw [hshows.length_bytes, List.length_replicate]
  have hdata : h.file.bytes.take (openFile 0 m.toNat none).seg.mappedLen
      = frames 0 qs ++ List.replicate (m.toNat - (frames 0 qs).length) 0 := by
    rw [hmapped, List.take_of_length_le hlen.le, hshows.bytes, hbase, List.drop_replicate]
  have hinside : (frames 0 qs).length ≤ m.toNat := by
    have := hshows.inside
    rwa [hbase, hmapped', hmapped] at this
  refine ⟨hrecords, ?_⟩
  by_cases hempty : h.records.head? = some []
  · -- Nothing is recovered.
    cases hqs : qs with
    | nil => simp [hrecords, hqs] at hempty
    | cons q qs =>
        have hq : q.bytes = [] := by simpa [hrecords, hqs] using hempty
        rw [hqs, frames, List.append_assoc, ← List.nil_append (frame 0 q ++ _),
          ← frames_nil 0] at hdata
        have hr : r.records = [] := by
          apply (reopen_found hsize hdata (allVisible_nil 0) _).2
          apply stops_empty_first hq
        rw [hr]
        simp [hempty]
  · -- Everything is recovered.
    have hvisible : AllVisible 0 qs := by
      rw [allVisible_iff, ← hrecords]
      intro i hi hzero
      have hcount := length_le_length_frames 0 qs
      have := m.toNat_lt
      rw [hrecords, List.length_map] at hi
      rw [kRecordHeaderSize] at hcount
      obtain rfl : i = 0 := by omega
      rwa [← List.head?_eq_getElem?]
    have hr : r.records = h.records := by
      rw [hrecords]
      apply (reopen_found hsize hdata hvisible (stops_zeros _ _)).2
    rw [hr]
    simp [hempty]

/-- An empty record, and two that are lost with it. -/
theorem Segment.empty_first_loses :
  let h := (openFile 0 (80 : UInt64).toNat none).appendAll
    [⟨[], by decide⟩, ⟨[1], by decide⟩, ⟨[2], by decide⟩]
  let r := openFile 0 (80 : UInt64).toNat (some h.file)
  h.records = [[], [1], [2]] ∧ h.seg.nextOffset = 3
    ∧ r.records = [] ∧ r.seg.nextOffset = 0 ∧ r.read 1 = none
  := by
  decide +kernel

end Storage
