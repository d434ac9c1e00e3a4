import Cascade.Storage.Availability
import Cascade.Storage.Lifetime

/-!
# What every log retains

A log may be constructed on any directory: files with bytes of no record behind their records,
files that cover the same offsets, files that miss some. What it held at first may then be anything,
but what is appended to it from then on can be read at the offsets that were returned, and stays so
whatever is appended later (`Log.append_gains`, `Log.appendBatch_gains`, `Log.kept_extends`). A
flush puts it on the device (`Log.Held`).

The reason is that offsets are given at the end only. The last segment is the last in the directory,
and a record that is in some segment is in front of all segments that follow (`Log.Retains`).
-/

open Bytes Crash Crash.Program Tiling

namespace Storage

/-! ### One segment -/

/-- The segment has counted the records with payloads `ps`, and its file starts with them. -/
structure Handle.Begins (h : Handle) (ps : List Payload) : Prop where
  tally : h.seg.toTally = (Tally.start h.seg.baseOffset).after ps
  file : frames h.seg.baseOffset ps <+: h.file.bytes

namespace Handle.Begins

variable {h : Handle} {ps : List Payload}

theorem nextOffset_eq (hb : h.Begins ps) :
  h.seg.nextOffset = h.seg.baseOffset + ps.length
  := by
  rw [hb.tally, Tally.after_nextOffset]
  rfl

theorem writePos_eq (hb : h.Begins ps) :
  h.seg.writePos = (frames h.seg.baseOffset ps).length
  := by
  rw [hb.tally, Tally.after_writePos _ h.seg.baseOffset]
  apply Nat.zero_add

theorem pushed (hb : h.Begins ps) (p : Payload) :
  (h.pushed p).Begins (ps ++ [p])
  := by
  obtain ⟨rest, hrest⟩ := hb.file
  constructor
  · rw [Tally.after_concat]
    simp only [Handle.pushed, Segment.advance]
    rw [hb.tally]
  · simp only [Handle.pushed, Segment.advance, File.write]
    rw [← hrest, hb.writePos_eq, overwrite_append, frames_concat, ← hb.nextOffset_eq,
      ← List.append_assoc]
    apply List.prefix_append

/-- Cutting the file to its used size leaves the records. -/
theorem sealed (hb : h.Begins ps) :
  h.sealed.Begins ps
  := by
  obtain ⟨rest, hrest⟩ := hb.file
  rw [Handle.sealed]
  split
  · exact hb
  · constructor
    · exact hb.tally
    · refine ⟨[], ?_⟩
      simp only [File.truncate, File.msync]
      rw [← hrest, hb.writePos_eq, resize_append, List.append_nil]

theorem flushed (hb : h.Begins ps) :
  h.flushed.Begins ps
  := by
  rw [Handle.flushed]
  split
  · exact ⟨hb.tally, hb.file⟩
  · exact hb

/-- The records of a segment are on the device if what it has written is. -/
theorem device {pre suf : List Payload} {p : Payload}
    (hb : h.Begins (pre ++ p :: suf)) (hsync : h.seg.writePos ≤ h.file.synced) :
  frames h.seg.baseOffset (pre ++ [p]) <+: h.file.device
  := by
  have hupto : frames h.seg.baseOffset (pre ++ [p])
      <+: frames h.seg.baseOffset (pre ++ p :: suf) := by
    rw [show pre ++ p :: suf = (pre ++ [p]) ++ suf by simp, frames_append _ (pre ++ [p])]
    apply List.prefix_append
  rw [hb.writePos_eq] at hsync
  rw [File.device]
  apply List.prefix_take_iff.mpr
  exact ⟨hupto.trans hb.file, hupto.length_le.trans hsync⟩

/-- Reading finds the record with the target as its offset. -/
theorem read_eq (hb : h.Begins ps) {target : ℕ} (hbase : h.seg.baseOffset ≤ target)
    (htarget : target < 2 ^ 64) :
  h.read target = ps[target - h.seg.baseOffset]?.map (fun p => ⟨target, p.bytes⟩)
  := by
  obtain ⟨rest, hrest⟩ := hb.file
  rw [Handle.read, hb.tally]
  apply readFrom_hint hrest.symm hbase htarget

end Handle.Begins

/-- Whatever the file contains, a segment begins with what it replays. -/
theorem Segment.constructed_begins (base m : ℕ) (file : Option File) :
  ∃ ps, Handle.Begins ⟨constructedFile m file, constructed base m file⟩ ps
  := by
  obtain ⟨ps, hs, -⟩ := openFile_shows base m file
  rw [openFile_eq] at hs
  refine ⟨ps, hs.tally, ?_⟩
  rw [hs.bytes]
  apply List.prefix_append

namespace Log

/-! ### The device -/

/-- The record with offset `o` and payload `p` is on the device, with all that stands in front of
it in its file. -/
def OnDevice (l : Log) (o : ℕ) (p : Payload) : Prop :=
  ∃ base f pre, l.dir.find? base = some f ∧ base + pre.length = o
    ∧ frames base (pre ++ [p]) <+: f.device

/-- A record with offset `o` and the given bytes is on the device. -/
def Durable (l : Log) (o : ℕ) (bytes : List UInt8) : Prop :=
  ∃ p : Payload, p.bytes = bytes ∧ l.OnDevice o p

/-- The record is in the last segment, which is open. -/
def InBack (l : Log) (o : ℕ) (p : Payload) : Prop :=
  l.back.isSealed = false
    ∧ ∃ pre suf, l.handle.Begins (pre ++ p :: suf) ∧ l.back.baseOffset + pre.length = o

/-- The record is on the device, in a file in front of that of the last segment. -/
def OnOlder (l : Log) (o : ℕ) (p : Payload) : Prop :=
  ∃ base f pre, base < l.back.baseOffset ∧ l.dir.find? base = some f
    ∧ base + pre.length = o ∧ frames base (pre ++ [p]) <+: f.device

/-- The record is where a flush of the last segment puts it on the device, or there already. -/
def Held (l : Log) (o : ℕ) (p : Payload) : Prop := l.InBack o p ∨ l.OnOlder o p

variable {l : Log} {o : ℕ} {p : Payload}

theorem InBack.lt (h : l.InBack o p) :
  l.back.baseOffset ≤ o ∧ o < l.back.nextOffset
  := by
  obtain ⟨-, pre, suf, hbegins, rfl⟩ := h
  have hnext : l.back.nextOffset = l.back.baseOffset + (pre ++ p :: suf).length :=
    hbegins.nextOffset_eq
  rw [List.length_append, List.length_cons] at hnext
  omega

theorem InBack.writePos_pos (h : l.InBack o p) :
  0 < l.back.writePos
  := by
  obtain ⟨-, pre, suf, hbegins, -⟩ := h
  have hpos : l.back.writePos = (frames l.back.baseOffset (pre ++ p :: suf)).length :=
    hbegins.writePos_eq
  rw [hpos, frames_append, List.length_append, frames, List.length_append, length_frame,
    kRecordHeaderSize]
  omega

theorem InBack.pushed (h : l.InBack o p) (q : Payload) :
  (l.pushed q).InBack o p
  := by
  obtain ⟨hopen, pre, suf, hbegins, ho⟩ := h
  refine ⟨hopen, pre, suf ++ [q], ?_, ho⟩
  have hpushed := hbegins.pushed q
  rw [List.append_assoc, List.cons_append] at hpushed
  rw [Log.pushed, handle_putBack rfl]
  exact hpushed

/-- The record that was just appended. -/
theorem inBack_pushed (h : ∃ ps, l.handle.Begins ps) (hfits : Handle.Fits p l.back) :
  (l.pushed p).InBack l.back.nextOffset p
  := by
  obtain ⟨ps, hps⟩ := h
  refine ⟨hfits.1, ps, [], ?_, hps.nextOffset_eq.symm⟩
  rw [Log.pushed, handle_putBack rfl]
  exact hps.pushed p

/-- The first record is not on the device if nothing of the first file is. -/
theorem not_durable_zero (h : (l.file 0).synced = 0) (bytes : List UInt8) :
  ¬ l.Durable 0 bytes
  := by
  rintro ⟨q, -, base, f, pre, hf, ho, hdevice⟩
  obtain rfl : base = 0 := by omega
  have hfile : l.file 0 = f := by
    rw [file, hf]
    rfl
  have hlen := hdevice.length_le
  rw [hfile] at h
  rw [File.device, h, List.take_zero, List.length_nil, frames_concat, List.length_append,
    length_frame, kRecordHeaderSize] at hlen
  omega

theorem OnOlder.onDevice (h : l.OnOlder o p) :
  l.OnDevice o p
  := by
  obtain ⟨base, f, pre, -, hf, ho, hdevice⟩ := h
  exact ⟨base, f, pre, hf, ho, hdevice⟩

theorem OnOlder.putBack (h : l.OnOlder o p) {t : Handle}
    (hbase : t.seg.baseOffset = l.back.baseOffset) :
  (l.putBack t).OnOlder o p
  := by
  obtain ⟨base, f, pre, hlt, hf, ho, hdevice⟩ := h
  refine ⟨base, f, pre, hlt.trans_eq hbase.symm, ?_, ho, hdevice⟩
  rw [Log.putBack, SortedMap.find?_put_of_ne hlt.ne]
  exact hf

theorem OnOlder.rolled (h : l.OnOlder o p) (hord : l.back.baseOffset ≤ l.back.nextOffset) :
  l.rolled.OnOlder o p
  := by
  obtain ⟨base, f, pre, hlt, hf, ho, hdevice⟩ := h
  have hlt' : base < l.back.nextOffset := hlt.trans_le hord
  refine ⟨base, f, pre, ?_, ?_, ho, hdevice⟩
  · rw [Log.rolled, Segment.constructed_baseOffset]
    exact hlt'
  · rw [Log.rolled, SortedMap.find?_put_of_ne hlt'.ne]
    exact hf

theorem Held.pushed (h : l.Held o p) (q : Payload) :
  (l.pushed q).Held o p
  := by
  rcases h with h | h
  · exact .inl (h.pushed q)
  · exact .inr (h.putBack rfl)

/-- A flush of the last segment puts what is held on the device. -/
theorem Held.flushedBack (h : l.Held o p) :
  l.flushedBack.Held o p ∧ l.flushedBack.OnDevice o p
  := by
  rcases h with h | h
  · obtain ⟨hopen, pre, suf, hbegins, ho⟩ := h
    have hpos : 0 < l.back.writePos := InBack.writePos_pos ⟨hopen, pre, suf, hbegins, ho⟩
    have hdevice := hbegins.flushed.device (by
      rw [Handle.flushed, if_pos (show 0 < l.handle.seg.writePos from hpos)]
      apply le_max_right)
    rw [Handle.flushed_seg] at hdevice
    constructor
    · left
      rw [InBack, Log.flushedBack, handle_putBack (by rw [Handle.flushed_seg]; rfl)]
      refine ⟨?_, pre, suf, hbegins.flushed, ?_⟩
      · simp only [Log.putBack, Handle.flushed_seg]
        exact hopen
      · simp only [Log.putBack, Handle.flushed_seg]
        exact ho
    · exact ⟨l.back.baseOffset, l.handle.flushed.file, pre, SortedMap.find?_put_self _ _ _, ho,
        hdevice⟩
  · have hput : l.flushedBack.OnOlder o p := by
      apply h.putBack
      rw [Handle.flushed_seg]
      rfl
    exact ⟨.inr hput, hput.onDevice⟩

/-- Sealing the last segment puts what is held on the device. -/
theorem Held.rolledOver (h : l.Held o p) (hord : l.back.baseOffset ≤ l.back.nextOffset) :
  l.rolledOver.OnOlder o p
  := by
  rcases h with h | h
  · have hlt := h.lt
    obtain ⟨hopen, pre, suf, hbegins, ho⟩ := h
    have hdevice := hbegins.sealed.device (by
      simp [Handle.sealed, Log.handle, hopen, File.truncate, File.msync])
    rw [Handle.sealed_baseOffset] at hdevice
    refine ⟨l.back.baseOffset, l.handle.sealed.file, pre, ?_, ?_, ho, hdevice⟩
    · rw [rolledOver_baseOffset]
      omega
    · rw [Log.rolledOver, Log.rolled, sealedBack_nextOffset,
        SortedMap.find?_put_of_ne (by omega)]
      exact SortedMap.find?_put_self _ _ _
  · apply OnOlder.rolled
    · exact h.putBack (Handle.sealed_baseOffset l.handle)
    · rw [sealedBack_baseOffset, sealedBack_nextOffset]
      exact hord

/-! ### A whole log -/

/-- The log has the record with offset `o` and payload `p`, in the segment to which a read of this
offset is routed. -/
def Retains (l : Log) (o : ℕ) (p : Payload) : Prop :=
  ∃ before s after ps, l.segments = before ++ s :: after
    ∧ (∀ t ∈ before, t.baseOffset ≤ o) ∧ (∀ t ∈ after, o < t.baseOffset)
    ∧ Handle.Begins ⟨l.file s.baseOffset, s⟩ ps
    ∧ s.baseOffset ≤ o ∧ ps[o - s.baseOffset]? = some p

/-- The last segment is the last in the directory, and begins with the records it has counted. -/
structure Ordered (l : Log) : Prop extends l.Formed where
  older : ∀ s ∈ l.older, s.baseOffset ≤ l.back.baseOffset
  begins : ∃ ps, l.handle.Begins ps

theorem Retains.read_eq (hr : l.Retains o p) (ho : o < 2 ^ 64) :
  l.read o = some ⟨o, p.bytes⟩
  := by
  obtain ⟨before, s, after, ps, hsegs, hbefore, hafter, hbegins, hbase, hp⟩ := hr
  have hfind : elementBefore (fun s : Segment => decide (o < s.baseOffset)) l.segments
      = some s := by
    rw [hsegs]
    apply elementBefore_split
    · intro t ht
      simpa using hbefore t ht
    · simpa using hbase
    · intro t ht
      simpa using hafter t ht
  rw [Log.read, hfind]
  change Handle.read _ o = _
  rw [hbegins.read_eq hbase ho, hp, Option.map_some]

/-- A record is in the last segment, or in front of it. -/
theorem Retains.cases (hr : l.Retains o p) :
  (∃ ps, l.handle.Begins ps ∧ (∀ t ∈ l.older, t.baseOffset ≤ o) ∧ l.back.baseOffset ≤ o
      ∧ ps[o - l.back.baseOffset]? = some p)
    ∨ ∃ before s after ps, l.older = before ++ s :: after
      ∧ (∀ t ∈ before, t.baseOffset ≤ o) ∧ (∀ t ∈ after, o < t.baseOffset)
      ∧ o < l.back.baseOffset ∧ Handle.Begins ⟨l.file s.baseOffset, s⟩ ps
      ∧ s.baseOffset ≤ o ∧ ps[o - s.baseOffset]? = some p
  := by
  obtain ⟨before, s, after, ps, hsegs, hbefore, hafter, hbegins, hbase, hp⟩ := hr
  rw [segments] at hsegs
  rcases List.eq_nil_or_concat after with rfl | ⟨after, t, rfl⟩
  · left
    obtain ⟨rfl, hs⟩ := List.append_inj' hsegs rfl
    obtain rfl : l.back = s := (List.cons.inj hs).1
    exact ⟨ps, hbegins, hbefore, hbase, hp⟩
  · right
    rw [List.concat_eq_append, ← List.cons_append, ← List.append_assoc] at hsegs
    obtain ⟨holder, ht⟩ := List.append_inj' hsegs rfl
    obtain rfl : l.back = t := (List.cons.inj ht).1
    have hback : o < l.back.baseOffset := hafter _ (by simp)
    have hrest : ∀ t ∈ after, o < t.baseOffset := by
      intro t ht
      apply hafter t
      simp [ht]
    exact ⟨before, s, after, ps, holder, hbefore, hrest, hback, hbegins, hbase, hp⟩

theorem Ordered.retains_lt (h : l.Ordered) (hr : l.Retains o p) :
  o < l.back.nextOffset
  := by
  have hord : l.back.baseOffset ≤ l.back.nextOffset := h.handle.ordered
  rcases hr.cases with ⟨ps, hbegins, -, hbase, hp⟩ | ⟨-, -, -, -, -, -, -, hlt, -⟩
  · have hnext : l.back.nextOffset = l.back.baseOffset + ps.length := hbegins.nextOffset_eq
    obtain ⟨hlen, -⟩ := List.getElem?_eq_some_iff.mp hp
    omega
  · omega

/-- Changing the last segment and its file leaves the records of the others. -/
theorem Retains.putBack (hr : l.Retains o p) {t : Handle}
    (hbase : t.seg.baseOffset = l.back.baseOffset)
    (hkeep : ∀ ps, l.handle.Begins ps → ∃ qs, t.Begins (ps ++ qs)) :
  (l.putBack t).Retains o p
  := by
  rcases hr.cases with ⟨ps, hbegins, hbefore, hle, hp⟩
    | ⟨before, s, after, ps, holder, hbefore, hafter, hlt, hbegins, hle, hp⟩
  · obtain ⟨qs, hqs⟩ := hkeep ps hbegins
    obtain ⟨hlen, -⟩ := List.getElem?_eq_some_iff.mp hp
    refine ⟨l.older, t.seg, [], ps ++ qs, rfl, hbefore, ?_, ?_, hbase.trans_le hle, ?_⟩
    · exact fun _ hmem => absurd hmem List.not_mem_nil
    · simp only [file, Log.putBack, hbase, SortedMap.find?_put_self, Option.getD_some]
      exact hqs
    · rw [hbase, List.getElem?_append_left hlen, hp]
  · have hne : s.baseOffset ≠ l.back.baseOffset := by omega
    refine ⟨before, s, after ++ [t.seg], ps, ?_, hbefore, ?_, ?_, hle, hp⟩
    · simp [segments, Log.putBack, holder]
    · intro u hu
      rcases List.mem_append.mp hu with hu | hu
      · exact hafter u hu
      · rw [List.mem_singleton.mp hu, hbase]
        exact hlt
    · simp only [file, Log.putBack, SortedMap.find?_put_of_ne hne]
      exact hbegins

/-- A new segment at the end leaves the records in front of it. -/
theorem Retains.rolled (hr : l.Retains o p) (hlt : o < l.back.nextOffset) :
  l.rolled.Retains o p
  := by
  obtain ⟨before, s, after, ps, hsegs, hbefore, hafter, hbegins, hbase, hp⟩ := hr
  have hne : s.baseOffset ≠ l.back.nextOffset := by omega
  refine ⟨before, s, after ++ [l.rolled.back], ps, ?_, hbefore, ?_, ?_, hbase, hp⟩
  · change (l.older ++ [l.back]) ++ [l.rolled.back] = _
    rw [show l.older ++ [l.back] = _ from hsegs, List.append_assoc]
    rfl
  · intro u hu
    rcases List.mem_append.mp hu with hu | hu
    · exact hafter u hu
    · rw [List.mem_singleton.mp hu, Log.rolled, Segment.constructed_baseOffset]
      exact hlt
  · simp only [file, Log.rolled, SortedMap.find?_put_of_ne hne]
    exact hbegins

/-! ### What operations keep -/

/-- Nothing that the log `l` retains or holds is lost in `t`, and offsets are still given at the
end. -/
structure Extends (l t : Log) : Prop where
  ordered : t.Ordered
  retains : ∀ {o : ℕ} {p : Payload}, l.Retains o p → t.Retains o p
  held : ∀ {o : ℕ} {p : Payload}, l.Held o p → t.Held o p
  next : l.back.nextOffset ≤ t.back.nextOffset

theorem Ordered.extends_self (h : l.Ordered) :
  l.Extends l
  := ⟨h, id, id, le_rfl⟩

theorem Extends.trans {t u : Log} (h : l.Extends t) (h' : t.Extends u) :
  l.Extends u
  := ⟨h'.ordered, fun hr => h'.retains (h.retains hr), fun hh => h'.held (h.held hh),
    h.next.trans h'.next⟩

/-- The stored next offset and the number of flushes do not matter. -/
theorem Extends.of_eq {t u : Log} (h : l.Extends t) (hdir : u.dir = t.dir)
    (hmax : u.maxSegmentBytes = t.maxSegmentBytes) (holder : u.older = t.older)
    (hback : u.back = t.back) :
  l.Extends u
  := by
  obtain ⟨dir, max, older, back, next, calls⟩ := u
  obtain rfl : dir = t.dir := hdir
  obtain rfl : max = t.maxSegmentBytes := hmax
  obtain rfl : older = t.older := holder
  obtain rfl : back = t.back := hback
  have hord := h.ordered
  refine ⟨⟨hord.toFormed.of_eq rfl rfl rfl, hord.older, hord.begins⟩, ?_, ?_, h.next⟩
  · exact fun hr => h.retains hr
  · exact fun hh => h.held hh

theorem Ordered.extends_putBack (h : l.Ordered) {t : Handle} (ht : t.Formed l.maxSegmentBytes)
    (hbase : t.seg.baseOffset = l.back.baseOffset)
    (hkeep : ∀ ps, l.handle.Begins ps → ∃ qs, t.Begins (ps ++ qs))
    (hheld : ∀ {o : ℕ} {p : Payload}, l.Held o p → (l.putBack t).Held o p) :
  l.Extends (l.putBack t)
  := by
  obtain ⟨ps, hps⟩ := h.begins
  obtain ⟨qs, hqs⟩ := hkeep ps hps
  refine ⟨⟨h.toFormed.putBack ht hbase, ?_, ?_⟩, fun hr => hr.putBack hbase hkeep, hheld, ?_⟩
  · intro s hs
    exact (h.older s hs).trans hbase.ge
  · rw [handle_putBack hbase]
    exact ⟨_, hqs⟩
  · have hnext : l.back.nextOffset = l.back.baseOffset + ps.length := hps.nextOffset_eq
    change l.back.nextOffset ≤ t.seg.nextOffset
    rw [hqs.nextOffset_eq, hbase, hnext, List.length_append]
    omega

theorem Ordered.extends_flushedBack (h : l.Ordered) :
  l.Extends l.flushedBack
  := by
  apply h.extends_putBack h.handle.flushed
  · rw [Handle.flushed_seg]
    rfl
  · intro ps hps
    refine ⟨[], ?_⟩
    rw [List.append_nil]
    exact hps.flushed
  · exact fun hheld => hheld.flushedBack.1

theorem Ordered.extends_rolledOver (h : l.Ordered) :
  l.Extends l.rolledOver
  := by
  have hord : l.back.baseOffset ≤ l.back.nextOffset := h.handle.ordered
  have hbase := l.rolledOver_baseOffset
  have hformed := h.toFormed.rolledOver
  refine ⟨⟨hformed, ?_, ?_⟩, ?_, fun hheld => .inr (hheld.rolledOver hord), ?_⟩
  · intro s hs
    rw [hbase]
    rcases List.mem_append.mp hs with hs | hs
    · exact (h.older s hs).trans hord
    · rw [List.mem_singleton.mp hs, sealedBack_baseOffset]
      exact hord
  · obtain ⟨ps, hps⟩ := Segment.constructed_begins l.sealedBack.back.nextOffset l.maxSegmentBytes
      (l.sealedBack.dir.find? l.sealedBack.back.nextOffset)
    refine ⟨ps, ?_⟩
    rw [rolledOver_handle]
    exact hps
  · intro o p hr
    have hlt := h.retains_lt hr
    have hsealed : l.sealedBack.Retains o p := by
      apply hr.putBack (Handle.sealed_baseOffset l.handle)
      intro ps hps
      refine ⟨[], ?_⟩
      rw [List.append_nil]
      exact hps.sealed
    exact hsealed.rolled (hlt.trans_eq l.sealedBack_nextOffset.symm)
  · rw [← hbase]
    exact hformed.handle.ordered

/-! ### What is gained -/

/-- Besides, `t` retains and holds the records with payloads `ps` at the offsets behind those of
`l`. -/
structure Gains (l t : Log) (ps : List Payload) : Prop extends l.Extends t where
  gained : ∀ {k : ℕ} {p : Payload}, ps[k]? = some p →
    t.Retains (l.back.nextOffset + k) p ∧ t.Held (l.back.nextOffset + k) p
  counted : t.back.nextOffset = l.back.nextOffset + ps.length

theorem Extends.gains_nil {t : Log} (h : l.Extends t)
    (hnext : t.back.nextOffset = l.back.nextOffset) :
  l.Gains t []
  := by
  refine ⟨h, ?_, hnext⟩
  intro k p hk
  rw [List.getElem?_nil] at hk
  cases hk

theorem Ordered.gains_nil (h : l.Ordered) :
  l.Gains l []
  := h.extends_self.gains_nil rfl

theorem Gains.trans {t u : Log} {ps qs : List Payload} (h : l.Gains t ps) (h' : t.Gains u qs) :
  l.Gains u (ps ++ qs)
  := by
  refine ⟨h.toExtends.trans h'.toExtends, ?_, ?_⟩
  · intro k p hk
    rcases Nat.lt_or_ge k ps.length with hlt | hge
    · rw [List.getElem?_append_left hlt] at hk
      exact (h.gained hk).imp h'.retains h'.held
    · rw [List.getElem?_append_right hge] at hk
      have hr := h'.gained hk
      rwa [h.counted, Nat.add_assoc, Nat.add_sub_cancel' hge] at hr
  · rw [h'.counted, h.counted, List.length_append, Nat.add_assoc]

/-- Extending the log further, at the same next offset. -/
theorem Gains.extends_same {t u : Log} {ps : List Payload} (h : l.Gains t ps) (h' : t.Extends u)
    (hnext : u.back.nextOffset = t.back.nextOffset) :
  l.Gains u ps
  := ⟨h.toExtends.trans h', fun hk => (h.gained hk).imp h'.retains h'.held,
    hnext.trans h.counted⟩

theorem Ordered.gains_pushed (h : l.Ordered) (hfits : Handle.Fits p l.back) :
  l.Gains (l.pushed p) [p]
  := by
  have hord : l.back.baseOffset ≤ l.back.nextOffset := h.handle.ordered
  refine ⟨h.extends_putBack (h.handle.pushed hfits) rfl (fun ps hps => ⟨[p], hps.pushed p⟩)
    (fun hheld => hheld.pushed p), ?_, Tally.advance_nextOffset _ _⟩
  intro k q hk
  obtain ⟨rfl, hq⟩ : k = 0 ∧ p = q := by
    cases k with
    | zero => exact ⟨rfl, Option.some.inj hk⟩
    | succ k => exact nomatch hk
  subst hq
  refine ⟨?_, .inl (inBack_pushed h.begins hfits)⟩
  obtain ⟨ps, hps⟩ := h.begins
  have hnext : l.back.nextOffset = l.back.baseOffset + ps.length := hps.nextOffset_eq
  refine ⟨l.older, (l.handle.pushed p).seg, [], ps ++ [p], rfl, ?_, ?_, ?_, hord, ?_⟩
  · intro s hs
    exact (h.older s hs).trans hord
  · exact fun _ hmem => absurd hmem List.not_mem_nil
  · have hfile : (l.pushed p).file (l.handle.pushed p).seg.baseOffset
        = (l.handle.pushed p).file := by
      simp only [file, Log.pushed, Log.putBack]
      rw [show (l.handle.pushed p).seg.baseOffset = l.back.baseOffset from rfl,
        SortedMap.find?_put_self, Option.getD_some]
    rw [hfile]
    exact hps.pushed p
  · change (ps ++ [p])[l.back.nextOffset + 0 - l.back.baseOffset]? = _
    rw [hnext, Nat.add_zero, Nat.add_sub_cancel_left, List.getElem?_concat_length]

/-- The new segment into which a record fits has no records yet. -/
theorem Formed.rolledOver_nextOffset_of_fits (h : l.Formed)
    (hfits : Handle.Fits p l.rolledOver.back) :
  l.rolledOver.back.nextOffset = l.back.nextOffset
  := by
  apply h.rolledOver_nextOffset
  intro hstuck
  have hroll := h.rolledOver_back
  rw [if_pos hstuck] at hroll
  exact Segment.not_stuck_of_open hfits.1 hroll

/-- What `appendRolling` does to any log. -/
theorem Ordered.wp_appendRolling (h : l.Ordered) (p : Payload) :
  wp (fun _ => True) (appendRolling p)
    (fun r t => l.Extends t ∧ ∀ o, r = .ok o → o = l.back.nextOffset ∧ l.Gains t [p]) l
  := by
  have hroll := h.extends_rolledOver
  rw [wp_appendRolling_final h.toAttached]
  split
  · rename_i hfits
    have hgain := h.gains_pushed hfits
    refine ⟨hgain.toExtends, ?_⟩
    rintro o ⟨⟩
    exact ⟨rfl, hgain⟩
  · split
    · rename_i hfits
      have hgain := hroll.ordered.gains_pushed hfits
      have hnext := h.toFormed.rolledOver_nextOffset_of_fits hfits
      refine ⟨hroll.trans hgain.toExtends, ?_⟩
      rintro o ⟨⟩
      exact ⟨hnext, (hroll.gains_nil hnext).trans hgain⟩
    · refine ⟨hroll, ?_⟩
      rintro o ⟨⟩

/-- Nothing that a log retains is ever lost, whether an operation throws or not. -/
theorem kept_extends (l : Log) :
  Kept l.Extends
  := by
  constructor
  · exact fun _ h => h.ordered.toAttached
  · intro p
    apply Preserves.of_wp
    intro t h
    apply wp_mono (h.ordered.wp_appendRolling p)
    · exact fun _ hc => hc
    · exact fun _ _ hr => h.trans hr.1
  · exact fun _ h => h.trans h.ordered.extends_flushedBack
  · exact fun _ _ _ h => h.of_eq rfl rfl rfl rfl

/-- A record that was appended is retained at the offset that was returned. -/
theorem Ordered.append_gains (h : l.Ordered) (hok : (append p l).value = .ok o) :
  o = l.back.nextOffset ∧ l.Gains (append p l).final [p]
  := by
  suffices hwp : wp (fun _ => True) (append p)
      (fun r t => r = .ok o → o = l.back.nextOffset ∧ l.Gains t [p]) l from wp_final hwp hok
  rw [append, wp_bind]
  apply wp_mono (h.wp_appendRolling p)
  · exact fun _ hc => hc
  · rintro r t ⟨-, hr⟩
    cases r with
    | error e =>
        rw [orElse_error]
        rintro ⟨⟩
    | ok o' =>
        obtain ⟨hnext, hgain⟩ := hr o' rfl
        simp only [orElse_ok, wp_bind, wp_update, wp_pure]
        rintro ⟨⟩
        have hord := hgain.ordered
        exact ⟨hnext, hgain.extends_same (hord.extends_self.of_eq rfl rfl rfl rfl) rfl⟩

/-- The loop of a batch. -/
theorem Ordered.wp_appendLoop (h : l.Ordered) (payloads : List (List UInt8)) :
  wp (fun _ => True) (forEach (fun p => do let _ ← appendRolling (payloadOf p)) payloads)
    (fun r t => r = .ok () → l.Gains t (payloads.map payloadOf)) l
  := by
  apply wp_forEach_of_ok (I := fun done t => l.Gains t (done.map payloadOf))
  · intro done b rest t _ hdone
    rw [wp_bind]
    apply wp_mono (hdone.ordered.wp_appendRolling (payloadOf b))
    · exact fun _ hc => hc
    · rintro r u ⟨-, hr⟩
      cases r with
      | error e =>
          rw [orElse_error]
          rintro ⟨⟩
      | ok o =>
          rw [orElse_ok, wp_pure]
          intro _
          rw [List.map_append]
          exact hdone.trans (hr o rfl).2
  · exact h.gains_nil

/-- The records of a batch that was appended are retained at the offsets from the one on that was
returned, and are on the device if the batch was flushed. -/
theorem Ordered.appendBatch_gains (h : l.Ordered) {payloads : List (List UInt8)}
    {flushAfter : Bool} (hok : (appendBatch payloads flushAfter l).value = .ok o) :
  o = l.back.nextOffset ∧ ¬ CannotFit l.maxSegmentBytes payloads
    ∧ l.Gains (appendBatch payloads flushAfter l).final (payloads.map payloadOf)
    ∧ (flushAfter = true → ∀ k p, (payloads.map payloadOf)[k]? = some p →
      (appendBatch payloads flushAfter l).final.OnDevice (o + k) p)
  := by
  suffices hwp : wp (fun _ => True) (appendBatch payloads flushAfter)
      (fun r t => r = .ok o → o = l.back.nextOffset ∧ ¬ CannotFit l.maxSegmentBytes payloads
        ∧ l.Gains t (payloads.map payloadOf)
        ∧ (flushAfter = true → ∀ k p, (payloads.map payloadOf)[k]? = some p →
          t.OnDevice (o + k) p)) l from wp_final hwp hok
  simp only [appendBatch, wp_bind, wp_gets, orElse_ok]
  by_cases hfit : CannotFit l.maxSegmentBytes payloads
  · rw [if_pos hfit, wp_raise]
    rintro ⟨⟩
  simp only [if_neg hfit, wp_bind, wp_gets, orElse_ok]
  by_cases hnil : payloads = []
  · rw [if_pos hnil, wp_pure]
    rintro ⟨⟩
    rw [hnil]
    refine ⟨rfl, hnil ▸ hfit, h.gains_nil, ?_⟩
    intro _ k p hk
    rw [List.map_nil, List.getElem?_nil] at hk
    cases hk
  simp only [if_neg hnil, wp_bind]
  rw [wp_onError]
  apply wp_mono (h.wp_appendLoop payloads)
  · exact fun _ hc => hc
  · intro r t hr
    cases r with
    | error e =>
        simp only [orElse_error]
        rintro ⟨⟩
    | ok _ =>
        have hgain := hr rfl
        have hstored := hgain.extends_same
          (hgain.ordered.extends_self.of_eq (u := t.storeNextOffset) rfl rfl rfl rfl) rfl
        simp only [orElse_ok, wp_bind, wp_update]
        cases flushAfter with
        | false =>
            simp only [Bool.false_eq_true, if_false, wp_pure]
            rintro ⟨⟩
            exact ⟨rfl, hfit, hstored, False.elim⟩
        | true =>
            simp only [if_true, wp_bind, flush, wp_onBack_flush hstored.ordered.toAttached,
              orElse_ok, wp_update, wp_pure]
            refine ⟨fun _ => trivial, ?_⟩
            rintro ⟨⟩
            have hflush := hstored.ordered.extends_flushedBack
            refine ⟨rfl, hfit, hstored.extends_same (hflush.of_eq rfl rfl rfl rfl) ?_, ?_⟩
            · change (Handle.flushed _).seg.nextOffset = _
              rw [Handle.flushed_seg]
              rfl
            · exact fun _ k p hk => (hstored.gained hk).2.flushedBack.2

/-! ### Records by offset and payload -/

/-- From `l` to `t` the records `xs` were added, each given by its offset and its payload, at
increasing offsets behind those of `l`. Nothing was lost, and others may have been added as well. -/
structure Adds (l t : Log) (xs : List (ℕ × List UInt8)) : Prop extends l.Extends t where
  increasing : xs.Pairwise (fun x y => x.1 < y.1)
  behind : ∀ x ∈ xs, l.back.nextOffset ≤ x.1
  retained : ∀ x ∈ xs, ∃ p : Payload, p.bytes = x.2 ∧ t.Retains x.1 p

theorem Extends.adds_nil {t : Log} (h : l.Extends t) :
  l.Adds t []
  := ⟨h, List.Pairwise.nil, fun _ hx => absurd hx List.not_mem_nil,
    fun _ hx => absurd hx List.not_mem_nil⟩

theorem Adds.trans {t u : Log} {xs ys : List (ℕ × List UInt8)} (h : l.Adds t xs)
    (h' : t.Adds u ys) :
  l.Adds u (xs ++ ys)
  := by
  have hold : ∀ x ∈ xs, ∃ p : Payload, p.bytes = x.2 ∧ u.Retains x.1 p := by
    intro x hx
    obtain ⟨p, hp, hr⟩ := h.retained x hx
    exact ⟨p, hp, h'.retains hr⟩
  have hnew : ∀ y ∈ ys, l.back.nextOffset ≤ y.1 := fun y hy => h.next.trans (h'.behind y hy)
  refine ⟨h.toExtends.trans h'.toExtends, ?_, ?_, ?_⟩
  · rw [List.pairwise_append]
    refine ⟨h.increasing, h'.increasing, ?_⟩
    intro x hx y hy
    obtain ⟨p, -, hr⟩ := h.retained x hx
    exact (h.ordered.retains_lt hr).trans_le (h'.behind y hy)
  · intro z hz
    rcases List.mem_append.mp hz with hz | hz
    · exact h.behind z hz
    · exact hnew z hz
  · intro z hz
    rcases List.mem_append.mp hz with hz | hz
    · exact hold z hz
    · exact h'.retained z hz

/-- What is gained is added at consecutive offsets. -/
theorem Gains.adds {t : Log} {ps : List Payload} (h : l.Gains t ps) :
  l.Adds t ((List.range' l.back.nextOffset ps.length).zip (ps.map Payload.bytes))
  := by
  have hmem : ∀ x ∈ (List.range' l.back.nextOffset ps.length).zip (ps.map Payload.bytes),
      ∃ k p, x.1 = l.back.nextOffset + k ∧ ps[k]? = some p ∧ p.bytes = x.2 := by
    intro x hx
    obtain ⟨k, hk⟩ := List.mem_iff_getElem?.mp hx
    obtain ⟨hoffset, hpayload⟩ := List.getElem?_zip_eq_some.mp hk
    obtain ⟨hlt, hget⟩ := List.getElem?_eq_some_iff.mp hoffset
    rw [List.getElem?_map] at hpayload
    obtain ⟨p, hp, hbytes⟩ := Option.map_eq_some_iff.mp hpayload
    rw [List.getElem_range', one_mul] at hget
    exact ⟨k, p, hget.symm, hp, hbytes⟩
  refine ⟨h.toExtends, ?_, ?_, ?_⟩
  · have hoffsets : ((List.range' l.back.nextOffset ps.length).zip (ps.map Payload.bytes)).map
        Prod.fst = List.range' l.back.nextOffset ps.length := by
      apply List.map_fst_zip
      simp
    have hrange : (List.range' l.back.nextOffset ps.length).Pairwise (· < ·) :=
      List.pairwise_lt_range'
    rw [← hoffsets, List.pairwise_map] at hrange
    exact hrange
  · intro x hx
    obtain ⟨k, p, hk, -, -⟩ := hmem x hx
    omega
  · intro x hx
    obtain ⟨k, p, hk, hp, hbytes⟩ := hmem x hx
    refine ⟨p, hbytes, ?_⟩
    rw [hk]
    exact (h.gained hp).1

/-! ### Construction -/

/-- Whatever the directory contains, offsets are given at its end. -/
theorem recover_ordered (m : ℕ) {d : Directory} (hd : d.Sorted) :
  (recover m d).Ordered
  := by
  rcases List.eq_nil_or_concat d with rfl | ⟨es, e, rfl⟩
  · refine ⟨fresh_formed m, ?_, ?_⟩
    · change ∀ s ∈ (fresh m).older, _
      rw [fresh_eq]
      exact fun _ hs => absurd hs List.not_mem_nil
    · change ∃ ps, (fresh m).handle.Begins ps
      rw [fresh_eq]
      exact Segment.constructed_begins 0 m none
  · rw [List.concat_eq_append] at hd ⊢
    have hlt : ∀ e' ∈ es, e'.1 < e.1 := by
      rw [SortedMap.Sorted, SortedMap.keys_append, List.pairwise_append] at hd
      intro e' he'
      exact hd.2.2 e'.1 (List.mem_map_of_mem he') e.1 (by simp [SortedMap.keys])
    have hback : (recover m (es ++ [e])).back.baseOffset = e.1 := by
      rw [recover_eq m hd]
      exact reopened_baseOffset m e
    have hkeys := recover_keys m hd
    refine ⟨⟨⟨?_, ?_⟩, ?_, ?_⟩, ?_, ?_⟩
    · rw [SortedMap.Sorted, hkeys]
      exact hd
    · rw [hback, hkeys]
      simp [SortedMap.keys]
    · rw [hback, hkeys]
      intro k hk
      rw [SortedMap.keys_append] at hk
      rcases List.mem_append.mp hk with hk | hk
      · obtain ⟨e', he', rfl⟩ := List.mem_map.mp hk
        exact (hlt e' he').le
      · exact (List.mem_singleton.mp hk).le
    · rw [Log.recover_handle m hd, recover_eq m hd]
      apply Segment.constructed_formed
    · rw [hback, recover_eq m hd]
      intro s hs
      obtain ⟨e', he', rfl⟩ := List.mem_map.mp hs
      rw [Handle.sealed_baseOffset, reopened_baseOffset]
      exact (hlt e' he').le
    · rw [Log.recover_handle m hd]
      apply Segment.constructed_begins

end Log

end Storage
