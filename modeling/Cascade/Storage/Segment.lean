import Cascade.Library.Bytes
import Cascade.Library.Crash
import Cascade.Library.Tiling
import Cascade.Storage.Crc32

/-!
# Segments

The model of `storage/segment.hpp`: one memory-mapped, append-only file of records.

A record is a header of 16 bytes (offset, payload length and CRC-32 of the payload, in
little-endian order) followed by the payload. A segment that is constructed on a file decides
from the size of the file whether it is sealed, and replays the bytes to find its records.

Offsets are counted in `ℕ`. Only their low 64 bits reach a file, and a stored offset is
compared with the low 64 bits of the expected one. Positions are bounded by the length of a
mapping and do not overflow. System calls succeed.
-/

open Bytes Crash Crash.Program

namespace Storage

/-- The size of a record header. -/
def kRecordHeaderSize : ℕ := 16

/-- The number of bytes of records between two entries of a sparse index. -/
def kIndexIntervalBytes : ℕ := 4096

/-- What can be appended as one record: bytes whose number is a `uint32_t`. -/
structure Payload where
  bytes : List UInt8
  length_lt : bytes.length < 2 ^ 32
deriving DecidableEq

/-- The length of a payload. -/
def Payload.len (p : Payload) : ℕ := p.bytes.length

/-! ### Files -/

/-- A segment file: its bytes in the page cache, and how many of the leading ones are on the
device. -/
structure File where
  bytes : List UInt8
  synced : ℕ
deriving DecidableEq

/-- A file that was just created. -/
def File.empty : File := ⟨[], 0⟩

/-- Copy bytes into the mapping of a file. -/
def File.write (pos : ℕ) (src : List UInt8) (f : File) : File :=
  ⟨overwrite f.bytes pos src, min f.synced pos⟩

/-- `ftruncate`. -/
def File.truncate (size : ℕ) (f : File) : File :=
  ⟨resize f.bytes size, min f.synced size⟩

/-- `msync` of the first `len` bytes. -/
def File.msync (len : ℕ) (f : File) : File :=
  ⟨f.bytes, max f.synced len⟩

/-- The part of a file that survives a power failure. -/
def File.device (f : File) : List UInt8 := f.bytes.take f.synced

/-! ### Records -/

/-- The header of a record. -/
structure Header where
  offset : ℕ
  len : ℕ
  crc : ℕ
deriving DecidableEq

/-- The header at a position. -/
def Header.load (data : List UInt8) (pos : ℕ) : Header where
  offset := ofLittleEndian (slice data pos 8)
  len := ofLittleEndian (slice data (pos + 8) 4)
  crc := ofLittleEndian (slice data (pos + 12) 4)

/-- The bytes of a record, in the order in which `append` copies them. -/
def frame (offset : ℕ) (p : Payload) : List UInt8 :=
  littleEndian 8 offset ++
    (littleEndian 4 p.len ++ (littleEndian 4 (crc32 p.bytes).toNat ++ p.bytes))

/-! ### What a segment knows about its records -/

/-- An entry of the sparse index. -/
structure IndexEntry where
  offset : ℕ
  pos : ℕ
deriving DecidableEq

/-- The fields of a segment that follow its records, whether they are appended or replayed. -/
structure Tally where
  writePos : ℕ
  nextOffset : ℕ
  recordCount : ℕ
  index : List IndexEntry
  bytesSinceLastIndex : ℕ
deriving DecidableEq

/-- The fields of a segment without records. -/
def Tally.start (baseOffset : ℕ) : Tally := ⟨0, baseOffset, 0, [], 0⟩

/-- Enter a record in the sparse index if the last entry is far enough behind. -/
def Tally.maybeIndex (t : Tally) (offset pos recordSize : ℕ) : Tally :=
  if t.index.isEmpty ∨ kIndexIntervalBytes ≤ t.bytesSinceLastIndex + recordSize then
    { t with index := t.index ++ [⟨offset, pos⟩], bytesSinceLastIndex := 0 }
  else
    { t with bytesSinceLastIndex := t.bytesSinceLastIndex + recordSize }

/-- Count one more record, with a payload of `len` bytes. -/
def Tally.advance (t : Tally) (len : ℕ) : Tally :=
  { t.maybeIndex t.nextOffset t.writePos (kRecordHeaderSize + len) with
    writePos := t.writePos + (kRecordHeaderSize + len)
    nextOffset := t.nextOffset + 1
    recordCount := t.recordCount + 1 }

/-- The checks that `replay` makes before it takes over the record at a position: the length
of the payload, if all of them pass. -/
def check (data : List UInt8) (pos expectedOffset : ℕ) : Option ℕ :=
  let h := Header.load data pos
  if h.offset = 0 ∧ h.len = 0 ∧ h.crc = 0 then none
  else if h.offset ≠ expectedOffset % 2 ^ 64 then none
  else if data.length < pos + kRecordHeaderSize + h.len then none
  else if (crc32 (slice data (pos + kRecordHeaderSize) h.len)).toNat ≠ h.crc then none
  else some h.len

/-- Replay the records in the mapped bytes `data` from the ones already counted on. -/
def replay (data : List UInt8) (t : Tally) : Tally :=
  if _ : t.writePos + kRecordHeaderSize ≤ data.length then
    match check data t.writePos t.nextOffset with
    | some len => replay data (t.advance len)
    | none => t
  else t
termination_by data.length - t.writePos
decreasing_by
  simp only [Tally.advance, kRecordHeaderSize] at *
  omega

/-! ### The class -/

/-- A segment. -/
structure Segment extends Tally where
  baseOffset : ℕ
  maxBytes : ℕ
  mappedLen : ℕ
  isSealed : Bool
deriving DecidableEq

/-- Count one more record in a segment. -/
def Segment.advance (s : Segment) (len : ℕ) : Segment :=
  { s with toTally := s.toTally.advance len }

/-- Map the first `mapLen` bytes of a file and replay them. -/
def Segment.mapping (baseOffset maxBytes mapLen : ℕ) (isSealed : Bool) (f : File) : Segment where
  toTally := replay (f.bytes.take mapLen) (Tally.start baseOffset)
  baseOffset := baseOffset
  maxBytes := maxBytes
  mappedLen := mapLen
  isSealed := isSealed

/-- The constructor, over the file at the path of the segment. -/
def Segment.construct {ε : Type} (baseOffset maxBytes : ℕ) :
    Program (Option File) ε Segment := do
  let existed ← gets Option.isSome
  step (fun file => some (file.getD File.empty))
  let size ← gets (fun file => (file.getD File.empty).bytes.length)
  if existed = true ∧ 0 < size ∧ size < maxBytes then
    -- The file was cut to its used size when the segment was sealed.
    gets (fun file => mapping baseOffset maxBytes size true (file.getD File.empty))
  else if existed = false ∨ size = 0 then
    step (Option.map (File.truncate maxBytes))
    gets (fun file => mapping baseOffset maxBytes maxBytes false (file.getD File.empty))
  else
    gets (fun file => mapping baseOffset maxBytes maxBytes false (file.getD File.empty))

/-- A segment object together with the file it maps. -/
structure Handle where
  file : File
  seg : Segment
deriving DecidableEq

namespace Handle

variable {ε : Type}

/-- Append a record; `none` if the segment lacks room. -/
def append (p : Payload) : Program Handle ε (Option ℕ) := do
  let seg ← gets Handle.seg
  if seg.isSealed = true ∨ seg.mappedLen < seg.writePos + (kRecordHeaderSize + p.len) then
    return none
  else
    step (fun h => { h with file := h.file.write seg.writePos (frame seg.nextOffset p) })
    update (fun h => { h with seg := h.seg.advance p.len })
    return some seg.nextOffset

/-- Force the bytes below `writePos` to the device. -/
def flush : Program Handle ε Unit := do
  let seg ← gets Handle.seg
  if 0 < seg.writePos then
    step (fun h => { h with file := h.file.msync seg.writePos })

/-- Cut the file to its used size and make the segment read-only. -/
def sealFile : Program Handle ε Unit := do
  let seg ← gets Handle.seg
  if seg.isSealed = false then
    step (fun h => { h with file := h.file.msync seg.writePos })
    step (fun h => { h with file := h.file.truncate seg.writePos })
    update (fun h => { h with seg :=
      { seg with mappedLen := if 0 < seg.writePos then seg.writePos else 1, isSealed := true } })

end Handle

/-! ### Reading -/

/-- What reading a record returns. -/
structure ReadResult where
  offset : ℕ
  payload : List UInt8
deriving DecidableEq

/-- Scan from position `pos` on for the record with offset `target`. -/
def readFrom (data : List UInt8) (writePos target pos : ℕ) : Option ReadResult :=
  if _ : pos + kRecordHeaderSize ≤ writePos then
    let h := Header.load data pos
    if writePos < pos + kRecordHeaderSize + h.len then none
    else if h.offset = target then
      some ⟨h.offset, slice data (pos + kRecordHeaderSize) h.len⟩
    else if target < h.offset then none
    else readFrom data writePos target (pos + kRecordHeaderSize + h.len)
  else none
termination_by writePos - pos
decreasing_by
  simp only [kRecordHeaderSize] at *
  omega

/-- The position at which the scan for an offset starts. -/
def positionHintFor (index : List IndexEntry) (target : ℕ) : ℕ :=
  match elementBefore (fun e => target < e.offset) index with
  | some e => e.pos
  | none => 0

/-- Read the record with offset `target`. -/
def Handle.read (h : Handle) (target : ℕ) : Option ReadResult :=
  readFrom h.file.bytes h.seg.writePos target (positionHintFor h.seg.index target)

end Storage
