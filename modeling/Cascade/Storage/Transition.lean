import Cascade.Storage.Log

/-!
# The operations as functions

What each program of a segment or a log computes, as functions on states, and the states it
passes on the way. A segment is constructed, a record is appended to the last segment
(`Log.pushed`), the last segment is sealed (`Log.sealedBack`) and followed by a new one
(`Log.rolled`); `Log.appendRolling` is made of these.
-/

open Bytes Crash Crash.Program

namespace Storage

variable {ε α : Type}

/-! ### Segments -/

/-- The constructor of a segment cuts or fills the file. -/
def Segment.Resizes (file : Option File) : Prop :=
  file.isSome = false ∨ (file.getD File.empty).bytes.length = 0

/-- The constructor of a segment takes it to be sealed. -/
def Segment.TakenAsSealed (maxBytes : ℕ) (file : Option File) : Prop :=
  file.isSome = true ∧ 0 < (file.getD File.empty).bytes.length
    ∧ (file.getD File.empty).bytes.length < maxBytes

instance (file : Option File) : Decidable (Segment.Resizes file) :=
  inferInstanceAs (Decidable (_ ∨ _))

instance (maxBytes : ℕ) (file : Option File) : Decidable (Segment.TakenAsSealed maxBytes file) :=
  inferInstanceAs (Decidable (_ ∧ _))

/-- The file that the constructor of a segment leaves. -/
def Segment.constructedFile (maxBytes : ℕ) (file : Option File) : File :=
  if Resizes file then (file.getD File.empty).truncate maxBytes else file.getD File.empty

/-- The segment that the constructor returns. -/
def Segment.constructed (baseOffset maxBytes : ℕ) (file : Option File) : Segment :=
  if TakenAsSealed maxBytes file then
    mapping baseOffset maxBytes (file.getD File.empty).bytes.length true (file.getD File.empty)
  else mapping baseOffset maxBytes maxBytes false (constructedFile maxBytes file)

theorem Segment.TakenAsSealed.not_resizes {maxBytes : ℕ} {file : Option File}
    (h : TakenAsSealed maxBytes file) :
  ¬ Resizes file
  := by
  rintro (hnone | hzero)
  · rw [h.1] at hnone
    simp at hnone
  · have := h.2.1
    omega

/-- The size of a file that the constructor neither takes to be sealed nor resizes. -/
theorem Segment.size_of_not_sealed {maxBytes : ℕ} {file : Option File}
    (hs : ¬ TakenAsSealed maxBytes file) (hr : ¬ Resizes file) :
  0 < (file.getD File.empty).bytes.length ∧ maxBytes ≤ (file.getD File.empty).bytes.length
  := by
  simp only [Resizes, not_or, Bool.not_eq_false] at hr
  simp only [TakenAsSealed, not_and, not_lt] at hs
  have hpos : 0 < (file.getD File.empty).bytes.length := by omega
  exact ⟨hpos, hs hr.1 hpos⟩

/-- A segment replays the bytes it maps, all of which are in its file. -/
theorem Segment.constructed_toTally (baseOffset maxBytes : ℕ) (file : Option File) :
  (constructed baseOffset maxBytes file).toTally
      = replay ((constructedFile maxBytes file).bytes.take
          (constructed baseOffset maxBytes file).mappedLen) (Tally.start baseOffset)
    ∧ (constructed baseOffset maxBytes file).mappedLen
      ≤ (constructedFile maxBytes file).bytes.length
  := by
  by_cases hs : TakenAsSealed maxBytes file
  · rw [constructed, if_pos hs, constructedFile, if_neg hs.not_resizes]
    exact ⟨rfl, le_rfl⟩
  · rw [constructed, if_neg hs]
    refine ⟨rfl, ?_⟩
    simp only [mapping, constructedFile]
    split
    · simp [File.truncate]
    · rename_i hr
      apply (size_of_not_sealed hs hr).2

/-- A file that has kept the size at which it was opened is mapped as before. -/
theorem Segment.constructed_same_size (baseOffset : ℕ) {maxBytes : ℕ} {file : Option File}
    {f : File} (h : f.bytes.length = (constructedFile maxBytes file).bytes.length) :
  (constructedFile maxBytes (some f)).bytes = f.bytes
    ∧ (constructed baseOffset maxBytes (some f)).mappedLen
      = (constructed baseOffset maxBytes file).mappedLen
  := by
  by_cases hs : TakenAsSealed maxBytes file
  · rw [constructedFile, if_neg hs.not_resizes] at h
    have hs' : TakenAsSealed maxBytes (some f) := by
      refine ⟨rfl, ?_⟩
      rw [Option.getD_some, h]
      exact hs.2
    rw [constructedFile, if_neg hs'.not_resizes, constructed, constructed, if_pos hs, if_pos hs']
    exact ⟨rfl, h⟩
  · have hle : maxBytes ≤ f.bytes.length := by
      rw [h, constructedFile]
      split
      · simp [File.truncate]
      · rename_i hr
        apply (size_of_not_sealed hs hr).2
    have hs' : ¬ TakenAsSealed maxBytes (some f) := by
      rintro ⟨-, -, hlt⟩
      rw [Option.getD_some] at hlt
      omega
    rw [constructed, constructed, if_neg hs, if_neg hs', constructedFile]
    refine ⟨?_, rfl⟩
    split
    · rename_i hr
      rcases hr with hnone | hzero
      · simp at hnone
      · -- The file is empty, and so is a segment.
        rw [Option.getD_some] at hzero ⊢
        have hnil := List.length_eq_zero_iff.mp hzero
        have hm : maxBytes = 0 := by omega
        simp [File.truncate, hnil, hm]
    · rfl

theorem Segment.wp_construct {C : Option File → Prop} {Q : Except ε Segment → Option File → Prop}
    (baseOffset maxBytes : ℕ) (file : Option File) :
  wp C (construct baseOffset maxBytes) Q file
    ↔ C file ∧ (Resizes file → C (some (file.getD File.empty)))
      ∧ Q (.ok (constructed baseOffset maxBytes file)) (some (constructedFile maxBytes file))
  := by
  rw [construct]
  simp only [wp_bind, wp_gets, wp_step, orElse_ok, Option.getD_some]
  apply and_congr_right'
  by_cases hsealed : TakenAsSealed maxBytes file
  · have hkeep := hsealed.not_resizes
    simp only [constructed, constructedFile, if_pos hsealed, hkeep, false_implies,
      true_and]
    rw [if_pos (show _ ∧ _ ∧ _ from hsealed), wp_gets]
    rfl
  · rw [if_neg (show ¬ (_ ∧ _ ∧ _) from hsealed)]
    by_cases hresize : Resizes file
    · rw [if_pos (show _ ∨ _ from hresize)]
      simp [constructed, constructedFile, hsealed, hresize]
    · rw [if_neg (show ¬ (_ ∨ _) from hresize)]
      simp [constructed, constructedFile, hsealed, hresize]

/-- The last segment has room for the record. -/
def Handle.Fits (p : Payload) (s : Segment) : Prop :=
  s.isSealed = false ∧ s.writePos + (kRecordHeaderSize + p.len) ≤ s.mappedLen

instance (p : Payload) (s : Segment) : Decidable (Handle.Fits p s) :=
  inferInstanceAs (Decidable (_ ∧ _))

/-- A segment after a record was appended. -/
def Handle.pushed (p : Payload) (h : Handle) : Handle :=
  ⟨h.file.write h.seg.writePos (frame h.seg.nextOffset p), h.seg.advance p.len⟩

theorem Handle.wp_append {C : Handle → Prop} {Q : Except ε (Option ℕ) → Handle → Prop}
    (p : Payload) (h : Handle) :
  wp C (append p) Q h
    ↔ if Fits p h.seg then C h ∧ Q (.ok (some h.seg.nextOffset)) (h.pushed p)
      else Q (.ok none) h
  := by
  rw [append]
  simp only [wp_bind, wp_gets, orElse_ok]
  by_cases hfits : Fits p h.seg
  · have hroom : ¬ (h.seg.isSealed = true
        ∨ h.seg.mappedLen < h.seg.writePos + (kRecordHeaderSize + p.len)) := by
      obtain ⟨h₁, h₂⟩ := hfits
      simp only [h₁, Bool.false_eq_true, false_or]
      omega
    simp [hfits, hroom, pushed]
  · have hfull : h.seg.isSealed = true
        ∨ h.seg.mappedLen < h.seg.writePos + (kRecordHeaderSize + p.len) := by
      by_contra hno
      apply hfits
      simp only [not_or, Bool.not_eq_true, Nat.not_lt] at hno
      exact hno
    simp [hfits, hfull]

/-- A segment after it was sealed. -/
def Handle.sealed (h : Handle) : Handle :=
  if h.seg.isSealed = true then h
  else ⟨(h.file.msync h.seg.writePos).truncate h.seg.writePos,
    { h.seg with
      mappedLen := if 0 < h.seg.writePos then h.seg.writePos else 1, isSealed := true }⟩

theorem Handle.sealed_toTally (h : Handle) :
  h.sealed.seg.toTally = h.seg.toTally
  := by
  rw [Handle.sealed]
  split
  · rfl
  · rfl

@[simp]
theorem Handle.sealed_baseOffset (h : Handle) :
  h.sealed.seg.baseOffset = h.seg.baseOffset
  := by
  rw [Handle.sealed]
  split
  · rfl
  · rfl

theorem Handle.wp_sealFile {C : Handle → Prop} {Q : Except ε Unit → Handle → Prop}
    (h : Handle) :
  wp C sealFile Q h
    ↔ (h.seg.isSealed = false → C h ∧ C { h with file := h.file.msync h.seg.writePos })
      ∧ Q (.ok ()) h.sealed
  := by
  rw [sealFile]
  simp only [wp_bind, wp_gets, orElse_ok]
  cases hs : h.seg.isSealed
  · simp [Handle.sealed, hs, and_assoc]
  · simp [Handle.sealed, hs]

/-- A segment after it was forced to the device. -/
def Handle.flushed (h : Handle) : Handle :=
  if 0 < h.seg.writePos then { h with file := h.file.msync h.seg.writePos } else h

@[simp]
theorem Handle.flushed_seg (h : Handle) :
  h.flushed.seg = h.seg
  := by
  rw [flushed]
  split
  · rfl
  · rfl

theorem Handle.flushed_bytes (h : Handle) :
  h.flushed.file.bytes = h.file.bytes
  := by
  rw [flushed]
  split
  · rfl
  · rfl

theorem Handle.wp_flush {C : Handle → Prop} {Q : Except ε Unit → Handle → Prop} (h : Handle) :
  wp C flush Q h ↔ (0 < h.seg.writePos → C h) ∧ Q (.ok ()) h.flushed
  := by
  rw [flush]
  simp only [wp_bind, wp_gets, orElse_ok]
  by_cases hpos : 0 < h.seg.writePos
  · simp [flushed, hpos]
  · simp [flushed, hpos]

/-! ### Directories -/

theorem Directory.wp_onFile_construct {C : Directory → Prop}
    {Q : Except ε Segment → Directory → Prop} (base maxBytes : ℕ) {d : Directory} :
  wp C (onFile base (Segment.construct base maxBytes)) Q d
    ↔ C (match d.find? base with | some f => d.put base f | none => d)
      ∧ (Segment.Resizes (d.find? base) → C (d.put base ((d.find? base).getD File.empty)))
      ∧ Q (.ok (Segment.constructed base maxBytes (d.find? base)))
          (d.put base (Segment.constructedFile maxBytes (d.find? base)))
  := by
  rw [onFile, wp_zoom]
  apply Segment.wp_construct

/-- A directory in which a file is put back as it is does not change. -/
theorem Directory.put_back {d : Directory} (hd : d.Sorted) (base : ℕ) :
  (match d.find? base with | some f => d.put base f | none => d) = d
  := by
  split
  · rename_i f hf
    apply hd.put_find? hf
  · rfl

/-! ### Logs -/

namespace Log

/-- The last segment with its file. -/
def handle (l : Log) : Handle := ⟨l.file l.back.baseOffset, l.back⟩

/-- The log with its last segment and the file of it replaced. -/
def putBack (l : Log) (h : Handle) : Log :=
  { l with dir := l.dir.put l.back.baseOffset h.file, back := h.seg }

variable {l : Log}

theorem handle_putBack {t : Handle} (hbase : t.seg.baseOffset = l.back.baseOffset) :
  (l.putBack t).handle = t
  := by
  simp only [handle, putBack, file, hbase, SortedMap.find?_put_self, Option.getD_some]

/-- The directory is in order and holds the file of the last segment. -/
structure Attached (l : Log) : Prop where
  sorted : l.dir.Sorted
  mem : l.back.baseOffset ∈ l.dir.keys

theorem Attached.putBack_handle (h : l.Attached) :
  l.putBack l.handle = l
  := by
  obtain ⟨f, hf⟩ := SortedMap.find?_of_mem_keys h.mem
  have hdir : l.dir.put l.back.baseOffset f = l.dir := h.sorted.put_find? hf
  simp [putBack, handle, file, hf, hdir]

theorem Attached.putBack (h : l.Attached) {t : Handle} (ht : t.seg.baseOffset = l.back.baseOffset) :
  (l.putBack t).Attached
  := by
  constructor
  · apply h.sorted.put
  · simp [Log.putBack, ht]

/-- The log after a record was appended to its last segment. -/
def pushed (l : Log) (p : Payload) : Log := l.putBack (l.handle.pushed p)

/-- The log after its last segment was sealed. -/
def sealedBack (l : Log) : Log := l.putBack l.handle.sealed

/-- The log after its last segment was forced to the device. -/
def flushedBack (l : Log) : Log := l.putBack l.handle.flushed

@[simp]
theorem sealedBack_baseOffset (l : Log) :
  l.sealedBack.back.baseOffset = l.back.baseOffset
  := l.handle.sealed_baseOffset

@[simp]
theorem sealedBack_nextOffset (l : Log) :
  l.sealedBack.back.nextOffset = l.back.nextOffset
  := congrArg Tally.nextOffset l.handle.sealed_toTally

theorem flushedBack_back (l : Log) :
  l.flushedBack.back = l.back
  := l.handle.flushed_seg

/-- The log after a new segment was added at the offset behind the last record. -/
def rolled (l : Log) : Log :=
  { l with
    dir := l.dir.put l.back.nextOffset
      (Segment.constructedFile l.maxSegmentBytes (l.dir.find? l.back.nextOffset))
    older := l.older ++ [l.back]
    back := Segment.constructed l.back.nextOffset l.maxSegmentBytes
      (l.dir.find? l.back.nextOffset) }

/-- The log after its last segment was sealed and followed by a new one. -/
def rolledOver (l : Log) : Log := l.sealedBack.rolled

/-- Between the creation of the file of a new segment and its sizing. -/
def created (l : Log) : Log :=
  { l with
    dir := l.dir.put l.back.nextOffset ((l.dir.find? l.back.nextOffset).getD File.empty) }

variable {C : Log → Prop}

theorem wp_onBack_append {Q : Except ε (Option ℕ) → Log → Prop} (h : l.Attached) (p : Payload) :
  wp C (onBack (Handle.append p)) Q l
    ↔ if Handle.Fits p l.back then C l ∧ Q (.ok (some l.back.nextOffset)) (l.pushed p)
      else Q (.ok none) l
  := by
  have hput := h.putBack_handle
  rw [onBack, wp_zoom, Handle.wp_append]
  change (if Handle.Fits p l.back then C (l.putBack l.handle) ∧ _ else Q _ (l.putBack l.handle)) ↔ _
  rw [hput]
  rfl

variable {Q : Except ε Unit → Log → Prop}

theorem wp_onBack_sealFile (h : l.Attached) :
  wp C (onBack Handle.sealFile) Q l
    ↔ (l.back.isSealed = false → C l
        ∧ C (l.putBack { l.handle with file := l.handle.file.msync l.back.writePos }))
      ∧ Q (.ok ()) l.sealedBack
  := by
  have hput := h.putBack_handle
  rw [onBack, wp_zoom, Handle.wp_sealFile]
  change ((l.back.isSealed = false → C (l.putBack l.handle) ∧ _) ∧ _) ↔ _
  rw [hput]
  rfl

theorem wp_onBack_flush (h : l.Attached) :
  wp C (onBack Handle.flush) Q l
    ↔ (0 < l.back.writePos → C l) ∧ Q (.ok ()) l.flushedBack
  := by
  have hput := h.putBack_handle
  rw [onBack, wp_zoom, Handle.wp_flush]
  change ((0 < l.back.writePos → C (l.putBack l.handle)) ∧ _) ↔ _
  rw [hput]
  rfl

theorem wp_rollNewSegment (h : l.Attached) :
  wp C (rollNewSegment l.back.nextOffset) Q l
    ↔ C l ∧ (Segment.Resizes (l.dir.find? l.back.nextOffset) → C l.created)
      ∧ C l.rolled ∧ Q (.ok ()) l.rolled
  := by
  rw [rollNewSegment]
  simp only [wp_bind, wp_gets, orElse_ok, onDirectory, wp_zoom, Directory.wp_onFile_construct,
    Directory.put_back h.sorted, wp_update, wp_step, id]
  rfl

theorem Attached.sealedBack (h : l.Attached) :
  l.sealedBack.Attached
  := by
  apply h.putBack
  apply Handle.sealed_baseOffset

theorem Attached.rolled (h : l.Attached) :
  l.rolled.Attached
  := by
  constructor
  · apply h.sorted.put
  · simp only [Log.rolled, Segment.constructed]
    split
    · simp [Segment.mapping]
    · simp [Segment.mapping]

/-- What `appendRolling` computes, and the states in which it can be interrupted. -/
theorem wp_appendRolling {Q : Except Error ℕ → Log → Prop} (h : l.Attached) (p : Payload) :
  wp C (appendRolling p) Q l
    ↔ if Handle.Fits p l.back then C l ∧ Q (.ok l.back.nextOffset) (l.pushed p)
      else
        (l.back.isSealed = false → C l
          ∧ C (l.putBack { l.handle with file := l.handle.file.msync l.back.writePos }))
        ∧ C l.sealedBack
        ∧ (Segment.Resizes (l.sealedBack.dir.find? l.sealedBack.back.nextOffset)
            → C l.sealedBack.created)
        ∧ C l.rolledOver
        ∧ if Handle.Fits p l.rolledOver.back then
            C l.rolledOver ∧ Q (.ok l.rolledOver.back.nextOffset) (l.rolledOver.pushed p)
          else
            Q (.error recordTooLarge) l.rolledOver
  := by
  rw [appendRolling]
  simp only [wp_bind, wp_onBack_append h]
  split
  · simp
  · simp only [orElse_ok, wp_bind, wp_onBack_sealFile h, wp_gets,
      wp_rollNewSegment h.sealedBack, wp_onBack_append h.sealedBack.rolled]
    apply and_congr_right'
    apply and_congr_right'
    apply and_congr_right'
    apply and_congr_right'
    change _ ↔ if Handle.Fits p l.sealedBack.rolled.back then _ else _
    split
    · simp [rolledOver]
    · simp [rolledOver]

/-- How `appendRolling` ends, whatever it may be stopped in before. -/
theorem wp_appendRolling_final {Q : Except Error ℕ → Log → Prop} (h : l.Attached) (p : Payload) :
  wp (fun _ => True) (appendRolling p) Q l
    ↔ if Handle.Fits p l.back then Q (.ok l.back.nextOffset) (l.pushed p)
      else if Handle.Fits p l.rolledOver.back then
        Q (.ok l.rolledOver.back.nextOffset) (l.rolledOver.pushed p)
      else Q (.error recordTooLarge) l.rolledOver
  := by
  rw [wp_appendRolling h]
  simp only [and_self, implies_true, true_and]

end Log

end Storage
