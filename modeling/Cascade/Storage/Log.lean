import Cascade.Library.SortedMap
import Cascade.Storage.Segment

/-!
# Logs

The model of `storage/log.hpp`: the ordered sequence of segments of one partition. Appends go to
the last segment, which is sealed and followed by a new one when it lacks room; reads are routed
by offset. A log that is constructed on a directory recovers the segments it finds there.

The directory is the map from the base offset that the name of a segment file spells to the
file, in the order of the names. Each operation that takes the lock exclusively runs as one
program, which can be interrupted between its steps on files.
-/

open Bytes Crash Crash.Program

namespace Storage

/-- The exceptions the log throws, with their texts. -/
inductive Error where
  | runtimeError (what : String)
  | lengthError (what : String)
deriving DecidableEq

/-- What `append` throws for a record that no segment has room for. -/
def recordTooLarge : Error := .runtimeError "record too large for configured segment size"

/-- What `append_batch` throws, before it writes anything, for such a record. -/
def batchCannotFit : Error :=
  .lengthError "record in batch cannot fit in a segment of max_segment_bytes"

/-- The segment files of a log directory. -/
abbrev Directory : Type := SortedMap File

namespace Directory

variable {ε α : Type}

/-- Run a program over the file with the given base offset. -/
def onFile (base : ℕ) (x : Program (Option File) ε α) : Program Directory ε α :=
  zoom (fun d => d.find? base)
    (fun d file => match file with | some f => d.put base f | none => d) x

/-- Run a program over a segment object and its file, and return the object. -/
def withSegment (s : Segment) (x : Program Handle ε Unit) : Program Directory ε Segment := do
  let file ← gets (fun d => (d.find? s.baseOffset).getD File.empty)
  let seg ← onFile s.baseOffset
    (zoom (fun _ => (⟨file, s⟩ : Handle)) (fun _ h => some h.file)
      (do x; gets Handle.seg))
  return seg

end Directory

/-- A log, with its directory. The deque of segments is never empty: `back` is its last
element. -/
structure Log where
  dir : Directory
  maxSegmentBytes : ℕ
  older : List Segment
  back : Segment
  nextOffset : ℕ
  flushCalls : ℕ
deriving DecidableEq

namespace Log

/-- All segments, in the order of the deque. -/
def segments (l : Log) : List Segment := l.older ++ [l.back]

/-- The file with the given base offset. -/
def file (l : Log) (base : ℕ) : File := (l.dir.find? base).getD File.empty

/-- Run a program over the directory. -/
def onDirectory {ε α : Type} (x : Program Directory ε α) : Program Log ε α :=
  zoom Log.dir (fun l d => { l with dir := d }) x

/-- Run a program over the last segment. -/
def onBack {ε α : Type} (x : Program Handle ε α) : Program Log ε α :=
  zoom (fun l => ⟨l.file l.back.baseOffset, l.back⟩)
    (fun l h => { l with dir := l.dir.put l.back.baseOffset h.file, back := h.seg }) x

/-- Add a new last segment. -/
def rollNewSegment {ε : Type} (baseOffset : ℕ) : Program Log ε Unit := do
  let maxSegmentBytes ← gets Log.maxSegmentBytes
  let seg ← onDirectory
    (Directory.onFile baseOffset (Segment.construct baseOffset maxSegmentBytes))
  update (fun l => { l with older := l.older ++ [l.back], back := seg })
  -- `fsync_dir`
  step id

/-- Append to the last segment or, if it lacks room, to a new one. -/
def appendRolling (p : Payload) : Program Log Error ℕ := do
  match ← onBack (Handle.append p) with
  | some offset => return offset
  | none =>
      onBack Handle.sealFile
      rollNewSegment (← gets (fun l => l.back.nextOffset))
      match ← onBack (Handle.append p) with
      | some offset => return offset
      | none => raise recordTooLarge

/-- Append one record. -/
def append (p : Payload) : Program Log Error ℕ := do
  let offset ← appendRolling p
  update (fun l => { l with nextOffset := offset + 1 })
  return offset

/-- The bytes that a length of type `uint32_t` leaves of a payload. -/
def payloadOf (bytes : List UInt8) : Payload :=
  ⟨bytes.take (bytes.length % 2 ^ 32), by
    rw [List.length_take]
    have := Nat.mod_lt bytes.length (show 0 < 2 ^ 32 by decide)
    omega⟩

/-- Store the offset behind the last record. -/
def storeNextOffset (l : Log) : Log := { l with nextOffset := l.back.nextOffset }

/-- Force the last segment to the device, and count the call. -/
def flush {ε : Type} : Program Log ε Unit := do
  onBack Handle.flush
  update (fun l => { l with flushCalls := l.flushCalls + 1 })

/-- A payload of a batch is too long for its length field, or for a segment. -/
def CannotFit (maxSegmentBytes : ℕ) (payloads : List (List UInt8)) : Prop :=
  ∃ p ∈ payloads, 2 ^ 32 - 1 < p.length ∨ maxSegmentBytes < kRecordHeaderSize + p.length

instance (maxSegmentBytes : ℕ) (payloads : List (List UInt8)) :
    Decidable (CannotFit maxSegmentBytes payloads) :=
  inferInstanceAs (Decidable (∃ p ∈ payloads, _))

/-- Append records, then force them to the device if asked to. -/
def appendBatch (payloads : List (List UInt8)) (flushAfter : Bool) : Program Log Error ℕ := do
  let maxSegmentBytes ← gets Log.maxSegmentBytes
  if CannotFit maxSegmentBytes payloads then
    raise batchCannotFit
  else
    let first ← gets (fun l => l.back.nextOffset)
    if payloads = [] then
      return first
    else
      onError (forEach (fun p => do let _ ← appendRolling (payloadOf p)) payloads)
        storeNextOffset
      update storeNextOffset
      if flushAfter then flush
      return first

/-- Read the record with the given offset. -/
def read (l : Log) (offset : ℕ) : Option ReadResult :=
  match elementBefore (fun s => offset < s.baseOffset) l.segments with
  | some s => Handle.read ⟨l.file s.baseOffset, s⟩ offset
  | none => none

/-- The constructor, on a directory: open the segment files in the order of their names, and
seal all but the last, or create the first segment. -/
def construct (maxSegmentBytes : ℕ) : Program Directory Empty Log := do
  let bases ← gets SortedMap.keys
  let segments ← mapEach
    (fun base => Directory.onFile base (Segment.construct base maxSegmentBytes)) bases
  match segments.getLast? with
  | none =>
      let seg ← Directory.onFile 0 (Segment.construct 0 maxSegmentBytes)
      step id
      gets (fun d => ⟨d, maxSegmentBytes, [], seg, 0, 0⟩)
  | some back =>
      let older ← mapEach (fun s => Directory.withSegment s Handle.sealFile) segments.dropLast
      gets (fun d => ⟨d, maxSegmentBytes, older, back, back.nextOffset, 0⟩)

/-- The log that is constructed on a directory. -/
def recover (maxSegmentBytes : ℕ) (d : Directory) : Log := output (construct maxSegmentBytes) d

/-- The log that is constructed on a fresh directory. -/
def fresh (maxSegmentBytes : ℕ) : Log := recover maxSegmentBytes []

end Log

/-! ### Histories -/

/-- The operations of a log. -/
inductive Op where
  | append (p : Payload)
  | appendBatch (payloads : List (List UInt8)) (flushAfter : Bool)
  | flush
  | read (offset : UInt64)

/-- What an operation returns. -/
inductive Reply where
  | offset (offset : ℕ)
  | done
  | record (result : Option ReadResult)

/-- Perform an operation. -/
def Op.perform : Op → Program Log Error Reply
  | .append p => do return .offset (← Log.append p)
  | .appendBatch payloads flushAfter => do
      return .offset (← Log.appendBatch payloads flushAfter)
  | .flush => do
      Log.flush
      return .done
  | .read offset => do return .record (← gets (fun l => l.read offset.toNat))

/-- The log after a list of operations; an operation that throws leaves it as it is then. -/
def Log.run (l : Log) : List Op → Log
  | [] => l
  | op :: ops => Log.run (op.perform l).final ops

/-- The operations of a history with what they returned or threw. -/
def Log.history (l : Log) : List Op → List (Op × Except Error Reply)
  | [] => []
  | op :: ops => (op, (op.perform l).value) :: Log.history (op.perform l).final ops

/-- The states in which a history can be stopped: before each step on a file and at its end. -/
def Log.interruptions (l : Log) : List Op → List Log
  | [] => [l]
  | op :: ops => (op.perform l).crashes ++ Log.interruptions (op.perform l).final ops

end Storage
