import Cascade.Storage.Recovery
import Mathlib.Data.List.Chain

/-!
# Holes after recovery

Every segment file is replayed on its own, up to the first record that is not intact. A log that
is constructed on a directory continues behind the records of the last file, whatever was found
in the files before it. So every offset in front of the next one can be read if and only if the
records of each file reach up to the offset at which the next file starts (`no_holes_iff`).
-/

open Bytes Crash Tiling

namespace Storage

/-- The part of the file that is mapped starts with intact records for all offsets from `base` up
to `next`, as far as these are of type `uint64_t`. -/
def File.ReachesTo (m base : ℕ) (f : File) (next : ℕ) : Prop :=
  ∃ ps, min next (2 ^ 64) ≤ base + ps.length ∧ AllVisible base ps
    ∧ frames base ps <+: f.bytes.take m

/-- The records that are found in a segment file. -/
theorem exists_reopened (m : ℕ) (e : ℕ × File) :
  ∃ ps rest, e.2.bytes.take m = frames e.1 ps ++ rest ∧ AllVisible e.1 ps
    ∧ Stops (e.1 + ps.length) rest
    ∧ (reopened m e).seg.toTally = (Tally.start e.1).after ps
    ∧ frames e.1 ps <+: (reopened m e).file.bytes
  := by
  obtain ⟨base, f⟩ := e
  by_cases hsize : f.bytes.length = 0
  · -- The file is filled with zeros.
    have hnil : f.bytes = [] := List.length_eq_zero_iff.mp hsize
    have hzeros : ((some f).getD File.empty).bytes = List.replicate 0 0 := hnil
    have hc := Segment.constructed_zeros base m hzeros
    refine ⟨[], [], by simp [hnil], allVisible_nil _, ?_, ?_, List.nil_prefix⟩
    · apply stops_of_length_lt
      simp [kRecordHeaderSize]
    · have htally := hc.tally
      simp only [Segment.constructed_baseOffset] at htally
      exact htally
  · have hkeep : Segment.constructedFile m (some f) = f := by
      rw [Segment.constructedFile, if_neg]
      · rfl
      · rintro (hnone | hzero)
        · simp at hnone
        · exact hsize hzero
    have hmapped : f.bytes.take (Segment.constructed base m (some f)).mappedLen
        = f.bytes.take m := by
      rw [Segment.constructed]
      split
      · rename_i hs
        have hlt : f.bytes.length < m := hs.2.2
        simp only [Segment.mapping, Option.getD_some]
        rw [List.take_length, List.take_of_length_le hlt.le]
      · rfl
    obtain ⟨ps, rest, hdata, hps, hrest, hreplay⟩ := exists_replay (f.bytes.take m) base
    refine ⟨ps, rest, hdata, hps, hrest, ?_, ?_⟩
    · simp only [reopened]
      rw [(Segment.constructed_toTally base m (some f)).1, hkeep, hmapped, hreplay]
    · simp only [reopened]
      rw [hkeep]
      apply List.IsPrefix.trans _ (List.take_prefix m _)
      rw [hdata]
      apply List.prefix_append

theorem le_reopened_nextOffset (m : ℕ) (e : ℕ × File) :
  e.1 ≤ (reopened m e).seg.nextOffset
  := by
  obtain ⟨ps, -, -, -, -, htally, -⟩ := exists_reopened m e
  rw [htally, Tally.after_nextOffset]
  apply Nat.le_add_right

/-- The segment of a file reaches as far as its records. -/
theorem reachesTo_iff {m : ℕ} {e : ℕ × File} {next : ℕ} :
  e.2.ReachesTo m e.1 next ↔ min next (2 ^ 64) ≤ (reopened m e).seg.nextOffset
  := by
  obtain ⟨qs, rest, hdata, hqs, hrest, htally, -⟩ := exists_reopened m e
  have hnext : (reopened m e).seg.nextOffset = e.1 + qs.length := by
    rw [htally, Tally.after_nextOffset]
    rfl
  rw [hnext]
  constructor
  · rintro ⟨ps, hle, hps, hprefix⟩
    have hlen := (prefix_of_stops hdata hqs hrest hps hprefix).length_le
    omega
  · intro hle
    refine ⟨qs, hle, hqs, ?_⟩
    rw [hdata]
    apply List.prefix_append

instance (m base : ℕ) (f : File) (next : ℕ) : Decidable (f.ReachesTo m base next) :=
  decidable_of_iff _ (reachesTo_iff (e := (base, f))).symm

/-- Reading from the segment of a file, sealed or not. -/
theorem read_reopened {m : ℕ} {e : ℕ × File} {t : Handle} {o : ℕ}
    (ht : t = reopened m e ∨ t = (reopened m e).sealed) (hbase : e.1 ≤ o) (ho : o < 2 ^ 64) :
  (t.read o).isSome ↔ o < (reopened m e).seg.nextOffset
  := by
  obtain ⟨qs, rest, -, -, -, htally, hprefix⟩ := exists_reopened m e
  have hnext : (reopened m e).seg.nextOffset = e.1 + qs.length := by
    rw [htally, Tally.after_nextOffset]
    rfl
  have hwrite : (reopened m e).seg.writePos = (frames e.1 qs).length := by
    rw [htally, Tally.after_writePos _ e.1]
    apply Nat.zero_add
  have hbytes : t.seg.toTally = (reopened m e).seg.toTally ∧ frames e.1 qs <+: t.file.bytes := by
    rcases ht with rfl | rfl
    · exact ⟨rfl, hprefix⟩
    · refine ⟨Handle.sealed_toTally _, ?_⟩
      rw [Handle.sealed]
      split
      · exact hprefix
      · -- The file was cut right behind the records.
        obtain ⟨rest, hrest⟩ := hprefix
        have hcut : resize (reopened m e).file.bytes (reopened m e).seg.writePos
            = frames e.1 qs := by
          rw [← hrest, hwrite, resize_append]
        use []
        rw [List.append_nil]
        exact hcut.symm
  obtain ⟨htally', rest, hrest⟩ := hbytes
  have hread := readFrom_hint hrest.symm hbase ho
  rw [Handle.read, htally', htally, hread, ← htally, hnext, Option.isSome_map,
    Option.isSome_iff_ne_none, ne_eq, List.getElem?_eq_none_iff]
  omega

/-- The segments of the log that is constructed on a directory, by their files. -/
theorem Log.exists_handles (m : ℕ) {d : Directory} (hd : d.Sorted) (hne : d ≠ []) :
  ∃ handle : ℕ × File → Handle, (Log.recover m d).handles = d.map handle
    ∧ (∀ e, handle e = reopened m e ∨ handle e = (reopened m e).sealed)
    ∧ ∀ e ∈ d.getLast?, (Log.recover m d).nextOffset = (reopened m e).seg.nextOffset
  := by
  obtain ⟨es, e, rfl⟩ : ∃ es e, d = es ++ [e] :=
    ⟨d.dropLast, d.getLast hne, (List.dropLast_append_getLast hne).symm⟩
  refine ⟨fun e' => if e'.1 = e.1 then reopened m e' else (reopened m e').sealed, ?_, ?_, ?_⟩
  · rw [Log.recover_handles m hd, List.map_append, List.map_singleton]
    congr 1
    · apply List.map_congr_left
      intro e' he'
      rw [SortedMap.Sorted, SortedMap.keys_append, List.pairwise_append] at hd
      have hlt : e'.1 < e.1 := hd.2.2 e'.1 (List.mem_map_of_mem he') e.1 (by simp [SortedMap.keys])
      rw [if_neg (by omega)]
    · simp
  · intro e'
    by_cases he : e'.1 = e.1
    · left
      simp only [if_pos he]
    · right
      simp only [if_neg he]
  · intro e' he'
    rw [List.getLast?_concat, Option.mem_some_iff] at he'
    rw [Log.recover_eq m hd, he']

/-- Reading an offset from the log that is constructed on a directory: only the last file that
starts at or before the offset matters. -/
theorem Log.read_recover {m : ℕ} {d₁ d₂ : Directory} {e : ℕ × File} {o : ℕ}
    (hd : SortedMap.Sorted (d₁ ++ e :: d₂)) (hbase : e.1 ≤ o) (hlt : ∀ e' ∈ d₂, o < e'.1)
    (ho : o < 2 ^ 64) :
  ((Log.recover m (d₁ ++ e :: d₂)).read o).isSome ↔ o < (reopened m e).seg.nextOffset
  := by
  obtain ⟨handle, hhandles, hcases, -⟩ := Log.exists_handles m hd (by simp)
  have hbases : ∀ e', (handle e').seg.baseOffset = e'.1 := by
    intro e'
    rcases hcases e' with h | h
    · rw [h, reopened_baseOffset]
    · rw [h, Handle.sealed_baseOffset, reopened_baseOffset]
  have hsegments : (Log.recover m (d₁ ++ e :: d₂)).segments
      = d₁.map (fun e' => (handle e').seg)
        ++ (handle e).seg :: d₂.map (fun e' => (handle e').seg) := by
    have hmap := congrArg (List.map Handle.seg) hhandles
    rw [Log.handles, List.map_map, List.map_map, List.map_append, List.map_cons] at hmap
    simpa [Function.comp_def] using hmap
  have hfind : elementBefore (fun s : Segment => decide (o < s.baseOffset))
      (Log.recover m (d₁ ++ e :: d₂)).segments = some (handle e).seg := by
    rw [hsegments]
    apply elementBefore_split
    · intro s hs
      obtain ⟨e', he', rfl⟩ := List.mem_map.mp hs
      rw [SortedMap.Sorted, SortedMap.keys_append, List.pairwise_append] at hd
      have hlt' : e'.1 < e.1 := hd.2.2 e'.1 (List.mem_map_of_mem he') e.1 (by simp [SortedMap.keys])
      simp only [hbases, decide_eq_false_iff_not]
      omega
    · simp only [hbases, decide_eq_false_iff_not]
      omega
    · intro s hs
      obtain ⟨e', he', rfl⟩ := List.mem_map.mp hs
      simp only [hbases, decide_eq_true_eq]
      apply hlt e' he'
  have hmem : handle e ∈ (Log.recover m (d₁ ++ e :: d₂)).handles := by
    rw [hhandles]
    apply List.mem_map_of_mem
    simp
  have hfile := Log.file_of_mem_handles hmem
  rw [Log.read, hfind]
  simp only [hfile]
  apply read_reopened (hcases e) hbase ho

/-- Every offset in front of the next one can be read from the log that is constructed on a
directory if and only if each file reaches to the next one. -/
theorem Log.readable_iff (m : ℕ) {d : Directory} (hd : d.Sorted) (hzero : 0 ∈ d.keys) :
  (∀ o : UInt64, o.toNat < (Log.recover m d).nextOffset
      → ((Log.recover m d).read o.toNat).isSome)
    ↔ d.IsChain (fun e e' => e.2.ReachesTo m e.1 e'.1)
  := by
  rw [List.isChain_iff_forall_rel_of_append_cons_cons]
  have hne : d ≠ [] := by
    rintro rfl
    simp [SortedMap.keys] at hzero
  obtain ⟨-, -, -, hnext⟩ := Log.exists_handles m hd hne
  constructor
  · rintro hread e e' d₁ d₂ rfl
    rw [reachesTo_iff]
    by_contra hno
    -- The offset right behind the records of the file is missing.
    have hmiss : (reopened m e).seg.nextOffset < e'.1
        ∧ (reopened m e).seg.nextOffset < 2 ^ 64 := by omega
    have hbehind : ∀ e'' ∈ e' :: d₂, e'.1 ≤ e''.1 := by
      rw [SortedMap.Sorted, SortedMap.keys_append, List.pairwise_append] at hd
      intro e'' he''
      rcases List.mem_cons.mp he'' with rfl | hmem
      · exact le_rfl
      · have hpair := (List.pairwise_cons.mp (List.pairwise_cons.mp hd.2.1).2).1
        apply (hpair e''.1 (List.mem_map_of_mem hmem)).le
    have hend : e'.1 ≤ (Log.recover m (d₁ ++ e :: e' :: d₂)).nextOffset := by
      obtain ⟨last, hlast⟩ : ∃ last, (e' :: d₂).getLast? = some last :=
        Option.isSome_iff_exists.mp (by simp)
      rw [hnext last (by simp [List.getLast?_append, List.getLast?_cons_cons, hlast])]
      apply (hbehind last (List.mem_of_getLast? hlast)).trans (le_reopened_nextOffset m last)
    have hsome := hread (UInt64.ofNat (reopened m e).seg.nextOffset)
    rw [UInt64.toNat_ofNat_of_lt' hmiss.2] at hsome
    rw [Log.read_recover hd (le_reopened_nextOffset m e) _ hmiss.2] at hsome
    · have := hsome (by omega)
      omega
    · intro e'' he''
      have := hbehind e'' he''
      omega
  · intro hreach o ho
    obtain ⟨d₁, e, d₂, rfl, hle, -, hgt⟩ := hd.exists_split ⟨0, hzero, Nat.zero_le o.toNat⟩
    rw [Log.read_recover hd hle hgt o.toNat_lt]
    cases d₂ with
    | nil =>
        rw [hnext e (by simp)] at ho
        exact ho
    | cons e' d₂ =>
        have hreach' := reachesTo_iff.mp (hreach rfl)
        have hlt := hgt e' List.mem_cons_self
        have ho64 : o.toNat < 2 ^ 64 := o.toNat_lt
        omega

/-- A log is constructed on the directory that a history on a fresh directory left, the files of
which were then damaged in any way. Every offset in front of its next one can be read if and only
if each file still reaches to the next one. -/
theorem Log.no_holes_iff (m n : ℕ) (ops : List Op) (d : Directory)
    (hd : d.keys = ((Log.fresh m).run ops).dir.keys) :
  (∀ o : UInt64, o.toNat < (Log.recover n d).nextOffset
      → ((Log.recover n d).read o.toNat).isSome)
    ↔ d.IsChain (fun e e' => e.2.ReachesTo n e.1 e'.1)
  := by
  obtain ⟨ps, -, -, hrun, -⟩ := Log.fresh_run m ops
  apply Log.readable_iff
  · rw [SortedMap.Sorted, hd]
    exact hrun.sorted
  · rw [hd]
    exact hrun.zero_mem_keys

/-- Three records in two files. -/
def threeRecords : List Op :=
  [.append ⟨[1, 2, 3, 4], by decide⟩, .append ⟨[5, 6, 7, 8], by decide⟩, .append ⟨[9], by decide⟩]

/-- The directory with one byte of a file set to zero. -/
def zeroByte (d : Directory) (base pos : ℕ) : Directory :=
  d.map (fun e => if e.1 = base then (base, e.2.write pos [0]) else e)

/-- Damage in the last file leaves no hole. -/
theorem Log.no_holes_last :
  let d := zeroByte ((Log.fresh 40).run threeRecords).dir 2 16
  d.keys = ((Log.fresh 40).run threeRecords).dir.keys
    ∧ ∀ o : UInt64, o.toNat < (Log.recover 40 d).nextOffset
        → ((Log.recover 40 d).read o.toNat).isSome
  := by
  intro d
  have hd : d.keys = ((Log.fresh 40).run threeRecords).dir.keys := by decide +kernel
  exact ⟨hd, (Log.no_holes_iff 40 40 threeRecords d hd).mpr (by decide +kernel)⟩

/-- Damage in the payload of the second record: it cannot be read any more, but the log goes on
behind the third one. -/
theorem Log.hole_in_older :
  let d := zeroByte ((Log.fresh 40).run threeRecords).dir 0 36
  d.keys = ((Log.fresh 40).run threeRecords).dir.keys
    ∧ d.map (fun e => e.2.bytes.length)
      = ((Log.fresh 40).run threeRecords).dir.map (fun e => e.2.bytes.length)
    ∧ (Log.recover 40 d).nextOffset = 3 ∧ (Log.recover 40 d).read 1 = none
  := by
  decide +kernel

end Storage
