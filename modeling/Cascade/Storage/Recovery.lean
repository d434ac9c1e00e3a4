import Cascade.Storage.History

/-!
# Recovery

What the constructor of a log makes of a directory (`Log.recover_eq`): every segment file is
opened as the constructor of a segment opens it, and all but the last are sealed.
-/

open Bytes Crash Crash.Program Tiling

namespace Storage

/-! ### The constructor on an existing directory -/

/-- A segment file as the constructor of a segment opens it. -/
def reopened (m : ℕ) (e : ℕ × File) : Handle :=
  ⟨Segment.constructedFile m (some e.2), Segment.constructed e.1 m (some e.2)⟩

@[simp]
theorem reopened_baseOffset (m : ℕ) (e : ℕ × File) :
  (reopened m e).seg.baseOffset = e.1
  := Segment.constructed_baseOffset _ _ _

/-- A loop over entries of a directory, each round of which changes only the file of its
entry. -/
theorem Directory.wp_eachEntry {ε γ : Type} {f : ℕ × File → Program Directory ε γ}
    (value : ℕ × File → γ) (before after : ℕ × File → File) (es rest : Directory)
    (hsorted : SortedMap.Sorted (es.map (fun e => (e.1, before e)) ++ rest))
    (round : ∀ pre e post, SortedMap.Sorted (pre ++ (e.1, before e) :: post) →
      wp (fun _ => True) (f e)
        (fun r t => r = .ok (value e) ∧ t = pre ++ (e.1, after e) :: post)
        (pre ++ (e.1, before e) :: post)) :
  wp (fun _ => True) (mapEach f es)
    (fun r t => r = .ok (es.map value) ∧ t = es.map (fun e => (e.1, after e)) ++ rest)
    (es.map (fun e => (e.1, before e)) ++ rest)
  := by
  -- The entries passed so far have their files changed, those to come have not.
  let I : List (ℕ × File) → Directory → Prop := fun done t =>
    t = done.map (fun e => (e.1, after e))
      ++ ((es.drop done.length).map (fun e => (e.1, before e)) ++ rest)
  have hloop : wp (fun _ => True) (mapEach f es) (fun r t => r = .ok (es.map value) ∧ I es t)
      (es.map (fun e => (e.1, before e)) ++ rest) := by
    apply wp_mapEach
    · rintro done e todo t hes rfl
      have hdrop : es.drop done.length = e :: todo := by
        rw [hes, List.drop_left]
      rw [hdrop, List.map_cons, List.cons_append]
      apply wp_mono (round _ e _ ?_)
      · exact fun _ hc => hc
      · rintro r t ⟨rfl, rfl⟩
        refine ⟨rfl, ?_⟩
        have hdrop' : es.drop (done ++ [e]).length = todo := by
          rw [List.length_append, List.length_singleton, ← List.drop_drop, hdrop]
          rfl
        change _ = _ ++ _
        rw [hdrop', List.map_append, List.append_assoc]
        rfl
      · rw [SortedMap.Sorted] at hsorted ⊢
        convert hsorted using 1
        rw [hes]
        simp [SortedMap.keys, Function.comp_def]
    · rfl
  apply wp_mono hloop
  · exact fun _ hc => hc
  · rintro r t ⟨rfl, rfl⟩
    simp [List.drop_length]

/-- The files of a directory after each was opened. -/
theorem wp_reopenAll {ε : Type} (m : ℕ) {d : Directory} (hd : d.Sorted) :
  wp (fun _ => True)
    (mapEach (fun base => Directory.onFile base (Segment.construct base m)) d.keys)
    (fun (r : Except ε (List Segment)) t => r = .ok (d.map (fun e => (reopened m e).seg))
      ∧ t = d.map (fun e => (e.1, (reopened m e).file))) d
  := by
  rw [SortedMap.keys, mapEach_map]
  have hloop := Directory.wp_eachEntry
    (f := fun e => (Directory.onFile e.1 (Segment.construct e.1 m) : Program _ ε _))
    (fun e => (reopened m e).seg) Prod.snd (fun e => (reopened m e).file) d []
    (by simpa using hd) ?_
  · simpa using hloop
  · rintro pre ⟨base, file⟩ post hsorted
    simp only [Directory.wp_onFile_construct, hsorted.find?_mid, hsorted.put_mid]
    exact ⟨trivial, fun _ => trivial, rfl, rfl⟩

/-- The files of a directory after their segments were sealed. -/
theorem wp_sealAll {ε : Type} (m : ℕ) {es rest : Directory}
    (hd : SortedMap.Sorted (es.map (fun e => (e.1, (reopened m e).file)) ++ rest)) :
  wp (fun _ => True)
    (mapEach (fun s => Directory.withSegment s Handle.sealFile)
      (es.map (fun e => (reopened m e).seg)))
    (fun (r : Except ε (List Segment)) t =>
      r = .ok (es.map (fun e => (reopened m e).sealed.seg))
        ∧ t = es.map (fun e => (e.1, (reopened m e).sealed.file)) ++ rest)
    (es.map (fun e => (e.1, (reopened m e).file)) ++ rest)
  := by
  rw [mapEach_map]
  apply Directory.wp_eachEntry (fun e => (reopened m e).sealed.seg)
    (fun e => (reopened m e).file) (fun e => (reopened m e).sealed.file) es rest hd
  rintro pre ⟨base, file⟩ post hsorted
  have hbase : (reopened m (base, file)).seg.baseOffset = base :=
    Segment.constructed_baseOffset _ _ _
  simp only [Directory.withSegment, Directory.onFile, wp_bind, wp_gets, wp_zoom, orElse_ok,
    Handle.wp_sealFile, hbase, hsorted.find?_mid, hsorted.put_mid, Option.getD_some]
  exact ⟨fun _ => ⟨trivial, trivial⟩, trivial, trivial⟩

/-- The log that is constructed on a directory with at least one segment file. -/
theorem Log.recover_eq (m : ℕ) {es : Directory} {e : ℕ × File}
    (hd : SortedMap.Sorted (es ++ [e])) :
  Log.recover m (es ++ [e])
    = { dir := es.map (fun e => (e.1, (reopened m e).sealed.file)) ++ [(e.1, (reopened m e).file)]
        maxSegmentBytes := m
        older := es.map (fun e => (reopened m e).sealed.seg)
        back := (reopened m e).seg
        nextOffset := (reopened m e).seg.nextOffset
        flushCalls := 0 }
  := by
  apply output_eq (C := fun _ => True)
  rw [Log.construct]
  simp only [wp_bind, wp_gets, orElse_ok]
  apply wp_mono (wp_reopenAll m hd)
  · exact fun _ hc => hc
  · rintro r t ⟨rfl, rfl⟩
    have hsorted : SortedMap.Sorted (es.map (fun e => (e.1, (reopened m e).file))
        ++ [(e.1, (reopened m e).file)]) := by
      rw [SortedMap.Sorted] at hd ⊢
      convert hd using 1
      simp [SortedMap.keys, Function.comp_def]
    simp only [List.map_append, List.map_cons, List.map_nil, orElse_ok, List.getLast?_append,
      List.getLast?_singleton, Option.some_or, List.dropLast_concat, wp_bind]
    apply wp_mono (wp_sealAll m hsorted)
    · exact fun _ hc => hc
    · rintro r t ⟨rfl, rfl⟩
      simp

namespace Log

/-- The segments with their files. -/
def handles (l : Log) : List Handle := l.segments.map (fun s => ⟨l.file s.baseOffset, s⟩)

/-- Recovery neither adds nor removes files. -/
theorem recover_keys (m : ℕ) {es : Directory} {e : ℕ × File}
    (hd : SortedMap.Sorted (es ++ [e])) :
  (recover m (es ++ [e])).dir.keys = SortedMap.keys (es ++ [e])
  := by
  rw [recover_eq m hd]
  simp [SortedMap.keys, Function.comp_def]

theorem file_of_mem_handles {l : Log} {t : Handle} (ht : t ∈ l.handles) :
  l.file t.seg.baseOffset = t.file
  := by
  obtain ⟨s, -, rfl⟩ := List.mem_map.mp ht
  rfl

/-- The segments and files of the log that is constructed on a directory. -/
theorem recover_handles (m : ℕ) {es : Directory} {e : ℕ × File}
    (hd : SortedMap.Sorted (es ++ [e])) :
  (recover m (es ++ [e])).handles = es.map (fun e => (reopened m e).sealed) ++ [reopened m e]
  := by
  have hsorted : (recover m (es ++ [e])).dir.Sorted := by
    rw [SortedMap.Sorted, recover_keys m hd]
    exact hd
  have hfile : ∀ b f, (b, f) ∈ (recover m (es ++ [e])).dir
      → (recover m (es ++ [e])).file b = f := by
    intro b f hmem
    rw [file, hsorted.find?_of_mem hmem]
    rfl
  rw [handles, segments, List.map_append, List.map_singleton]
  congr 1
  · have holder : (recover m (es ++ [e])).older = es.map (fun e => (reopened m e).sealed.seg) := by
      rw [recover_eq m hd]
    rw [holder, List.map_map]
    apply List.map_congr_left
    intro e' he'
    simp only [Function.comp, Handle.sealed_baseOffset, reopened_baseOffset]
    rw [hfile e'.1 (reopened m e').sealed.file]
    rw [recover_eq m hd]
    apply List.mem_append_left
    apply List.mem_map_of_mem he'
  · have hback : (recover m (es ++ [e])).back = (reopened m e).seg := by
      rw [recover_eq m hd]
    rw [hback, reopened_baseOffset, hfile e.1 (reopened m e).file]
    rw [recover_eq m hd]
    simp

/-- The last segment of the log that is constructed on a directory. -/
theorem recover_handle (m : ℕ) {es : Directory} {e : ℕ × File}
    (hd : SortedMap.Sorted (es ++ [e])) :
  (recover m (es ++ [e])).handle = reopened m e
  := by
  have hhandles := recover_handles m hd
  rw [handles, segments, List.map_append, List.map_singleton] at hhandles
  exact List.singleton_inj.mp (List.append_inj_right' hhandles rfl)

end Log

/-! ### Recovering what a log holds -/

/-- The bytes of records and zeros behind them, cut within the zeros. -/
theorem take_frames_zeros {base k n : ℕ} {ps : List Payload} (h : (frames base ps).length ≤ n) :
  (frames base ps ++ List.replicate k 0).take n
    = frames base ps ++ List.replicate (min (n - (frames base ps).length) k) 0
  := by
  rw [List.take_append, List.take_of_length_le h, List.take_replicate]

/-- Reopening a segment whose records all fit in the mapping finds them again. -/
theorem Handle.Contains.reopened {h : Handle} {ps : List Payload} {m : ℕ} (hc : h.Contains ps)
    (hps : AllVisible h.seg.baseOffset ps) (hm : h.seg.writePos ≤ m) :
  (reopened m (h.seg.baseOffset, h.file)).Contains ps
  := by
  obtain ⟨z, hz⟩ := hc.file
  rw [hc.writePos_eq] at hm
  have hreplay : ∀ k n, (frames h.seg.baseOffset ps).length ≤ n →
      replay ((frames h.seg.baseOffset ps ++ List.replicate k 0).take n)
        (Tally.start h.seg.baseOffset) = (Tally.start h.seg.baseOffset).after ps := by
    intro k n hn
    rw [take_frames_zeros hn]
    apply replay_eq rfl hps
    apply stops_zeros
  have hbytes : ∃ k, (Segment.constructedFile m (some h.file)).bytes
      = frames h.seg.baseOffset ps ++ List.replicate k 0 := by
    rw [Segment.constructedFile]
    split
    · simp only [Option.getD_some, File.truncate]
      rw [hz, resize, take_frames_zeros hm, List.append_assoc,
        List.replicate_append_replicate]
      exact ⟨_, rfl⟩
    · exact ⟨z, hz⟩
  obtain ⟨k, hk⟩ := hbytes
  constructor
  · simp only [Storage.reopened, Segment.constructed]
    split
    · simp only [Segment.mapping, Option.getD_some, hz]
      apply hreplay
      rw [List.length_append]
      omega
    · simp only [Segment.mapping, hk]
      apply hreplay k m hm
  · simp only [Storage.reopened, Segment.constructed_baseOffset]
    exact ⟨k, hk⟩

namespace Log.Holds

variable {l : Log} {ps : List Payload}

/-- The directory lists the files of the live segments. -/
theorem dir_eq (h : l.Holds ps) :
  l.dir = l.live.map (fun s => (s.baseOffset, l.file s.baseOffset))
  := by
  have hd := h.sorted.eq_map_keys File.empty
  rw [h.keys, List.map_map] at hd
  exact hd

theorem share_visible (h : l.Holds ps) (hps : AllVisible 0 ps) {s : Segment}
    (hs : s ∈ l.segments) :
  AllVisible s.baseOffset (s.share ps)
  := by
  have hle := (h.tiles.bounds hs).2
  rw [← List.take_append_drop s.baseOffset ps, allVisible_append] at hps
  have hdrop := hps.2
  rw [List.length_take_of_le (by omega), Nat.zero_add] at hdrop
  apply hdrop.take

/-- A live segment and its file after they were opened again. -/
theorem contains_reopened (h : l.Holds ps) (hps : AllVisible 0 ps) {m : ℕ} {s : Segment}
    (hs : s ∈ l.live) (hm : s.writePos ≤ m) :
  (reopened m (s.baseOffset, l.file s.baseOffset)).Contains (s.share ps)
  := by
  apply (h.contains s hs).reopened
  · apply h.share_visible hps (live_subset hs)
  · exact hm

end Log.Holds

namespace Log.Holds

variable {l : Log} {ps : List Payload} {m : ℕ}

/-- The directory with the file of the last segment set apart. -/
theorem dir_eq_concat (h : l.Holds ps) :
  l.dir = (l.older.filter (fun s => s.baseOffset < s.nextOffset)).map
      (fun s => (s.baseOffset, l.file s.baseOffset))
    ++ [(l.back.baseOffset, l.file l.back.baseOffset)]
  := by
  have hdir := h.dir_eq
  rwa [live, List.map_append, List.map_singleton] at hdir

theorem recover_fields (h : l.Holds ps) (m : ℕ) :
  (Log.recover m l.dir).maxSegmentBytes = m
    ∧ (Log.recover m l.dir).nextOffset = (Log.recover m l.dir).back.nextOffset
  := by
  have hsorted := h.sorted
  rw [h.dir_eq_concat] at hsorted ⊢
  rw [Log.recover_eq m hsorted]
  exact ⟨rfl, rfl⟩

theorem recover_keys (h : l.Holds ps) (m : ℕ) :
  (Log.recover m l.dir).dir.keys = l.dir.keys
  := by
  have hsorted := h.sorted
  rw [h.dir_eq_concat] at hsorted ⊢
  apply Log.recover_keys m hsorted

theorem recover_handles (h : l.Holds ps) (m : ℕ) :
  (Log.recover m l.dir).handles
    = (l.older.filter (fun s => s.baseOffset < s.nextOffset)).map
        (fun s => (reopened m (s.baseOffset, l.file s.baseOffset)).sealed)
      ++ [reopened m (l.back.baseOffset, l.file l.back.baseOffset)]
  := by
  have hsorted := h.sorted
  rw [h.dir_eq_concat] at hsorted
  rw [h.dir_eq_concat, Log.recover_handles m hsorted, List.map_map]
  rfl

theorem recover_back (h : l.Holds ps) (m : ℕ) :
  (Log.recover m l.dir).back
      = (reopened m (l.back.baseOffset, l.file l.back.baseOffset)).seg
    ∧ (Log.recover m l.dir).file (Log.recover m l.dir).back.baseOffset
      = (reopened m (l.back.baseOffset, l.file l.back.baseOffset)).file
  := by
  have hsorted := h.sorted
  rw [h.dir_eq_concat] at hsorted ⊢
  have hlast := Log.recover_handle m hsorted
  exact ⟨congrArg Handle.seg hlast, congrArg Handle.file hlast⟩

/-- A live segment that is opened again has the same contents. -/
theorem reopened_toTally (h : l.Holds ps) (hps : AllVisible 0 ps) {s : Segment}
    (hs : s ∈ l.live) (hm : s.writePos ≤ m) :
  (reopened m (s.baseOffset, l.file s.baseOffset)).seg.toTally = s.toTally
  := by
  rw [h.toTally_eq hs, (h.contains_reopened hps hs hm).tally, reopened_baseOffset]

/-- The segments of the log that is constructed on the directory of a log are the live segments
of that log, with the same contents. -/
theorem recover_segments (h : l.Holds ps) (hps : AllVisible 0 ps)
    (hm : ∀ s ∈ l.live, s.writePos ≤ m) :
  (Log.recover m l.dir).segments.map (fun s => (s.baseOffset, s.toTally))
    = l.live.map (fun s => (s.baseOffset, s.toTally))
  := by
  have hhandles := congrArg (List.map (fun t : Handle => (t.seg.baseOffset, t.seg.toTally)))
    (h.recover_handles m)
  rw [handles, List.map_map, List.map_append, List.map_map] at hhandles
  refine hhandles.trans ?_
  rw [live, List.map_append]
  congr 1
  · apply List.map_congr_left
    intro s hs
    have hlive : s ∈ l.live := List.mem_append_left _ hs
    simp only [Function.comp, Handle.sealed_toTally, Handle.sealed_baseOffset,
      reopened_baseOffset, h.reopened_toTally hps hlive (hm s hlive)]
  · simp only [List.map_singleton, reopened_baseOffset,
      h.reopened_toTally hps l.back_mem_live (hm _ l.back_mem_live)]

/-- Each of them has its share. -/
theorem recover_contains (h : l.Holds ps) (hps : AllVisible 0 ps)
    (hm : ∀ s ∈ l.live, s.writePos ≤ m) {t : Handle} (ht : t ∈ (Log.recover m l.dir).handles) :
  t.Contains (t.seg.share ps)
  := by
  -- A segment has the same share whenever it has the same ends.
  have hshare : ∀ s ∈ l.live, ∀ u : Handle, u.seg.baseOffset = s.baseOffset →
      u.seg.toTally = s.toTally → u.seg.share ps = s.share ps := by
    intro s _ u hbase htally
    rw [Segment.share, Segment.share, hbase, htally]
  rw [h.recover_handles] at ht
  rcases List.mem_append.mp ht with ht | ht
  · obtain ⟨s, hs, rfl⟩ := List.mem_map.mp ht
    have hs : s ∈ l.live := List.mem_append_left _ hs
    rw [hshare s hs]
    · apply (h.contains_reopened hps hs (hm s hs)).sealed
    · simp
    · rw [Handle.sealed_toTally, h.reopened_toTally hps hs (hm s hs)]
  · rw [List.mem_singleton.mp ht, hshare l.back l.back_mem_live]
    · apply h.contains_reopened hps l.back_mem_live (hm _ l.back_mem_live)
    · simp
    · rw [h.reopened_toTally hps l.back_mem_live (hm _ l.back_mem_live)]

/-- The log that is constructed on the directory of a log holds what that log held, if its
records fit in the mappings. -/
theorem recover (h : l.Holds ps) (hps : AllVisible 0 ps) (hm : ∀ s ∈ l.live, s.writePos ≤ m) :
  (Log.recover m l.dir).Holds ps
  := by
  have hsegments := h.recover_segments hps hm
  have hends : (Log.recover m l.dir).segments.map (fun s => (s.baseOffset, s.nextOffset))
      = l.live.map (fun s => (s.baseOffset, s.nextOffset)) := by
    have := congrArg (List.map (fun x : ℕ × Tally => (x.1, x.2.nextOffset))) hsegments
    simpa [Function.comp_def] using this
  have hbases : (Log.recover m l.dir).segments.map (fun s => s.baseOffset)
      = l.live.map (fun s => s.baseOffset) := by
    have := congrArg (List.map Prod.fst) hsegments
    simpa [Function.comp_def] using this
  -- None of the older segments is empty, so all are live.
  have hlive : (Log.recover m l.dir).live = (Log.recover m l.dir).segments := by
    rw [segments, live, List.map_append, List.map_append] at hends
    have holder := List.append_inj_left' hends rfl
    rw [live, segments, List.filter_eq_self.mpr]
    intro s hs
    have hmem := List.mem_map_of_mem (f := fun s => (s.baseOffset, s.nextOffset)) hs
    rw [holder] at hmem
    obtain ⟨s₀, hs₀, heq⟩ := List.mem_map.mp hmem
    rw [Prod.mk.injEq] at heq
    simpa [heq.1, heq.2] using (List.mem_filter.mp hs₀).2
  constructor
  case tiles =>
    rw [tiles_map hends]
    exact h.live_tiles
  case keys => rw [h.recover_keys, h.keys, hlive, hbases]
  case contains =>
    intro s hs
    rw [hlive] at hs
    apply h.recover_contains hps hm (List.mem_map_of_mem hs)
  case room =>
    intro s hs
    rw [hlive] at hs
    have hmem := List.mem_map_of_mem (f := fun s => (s.baseOffset, s.toTally)) hs
    rw [hsegments] at hmem
    obtain ⟨s₀, hs₀, heq⟩ := List.mem_map.mp hmem
    rw [Prod.mk.injEq] at heq
    rw [← heq.2, (h.recover_fields m).1]
    apply hm s₀ hs₀
  case mapped =>
    obtain ⟨hback, hfile⟩ := h.recover_back m
    rw [hfile, hback, (h.recover_fields m).1]
    exact Segment.constructed_mapped

/-- Reopening a log with the same size leaves it ready. -/
theorem recover_settled (h : l.Holds ps) (hps : AllVisible 0 ps) (hr : l.Ready) :
  (Log.recover l.maxSegmentBytes l.dir).Settled ps
  := by
  have hrecover := h.recover hps h.room
  obtain ⟨hmax, hnext⟩ := h.recover_fields l.maxSegmentBytes
  obtain ⟨hback, hfile⟩ := h.recover_back l.maxSegmentBytes
  refine ⟨hrecover, ?_, by rw [hnext, hrecover.back_nextOffset]⟩
  rw [Ready, hfile, hmax, hrecover.back_nextOffset, ← h.back_nextOffset]
  rw [hback, reopened_baseOffset]
  simp only [reopened, Segment.constructedFile, Option.getD_some]
  split
  · right; right
    simp [File.truncate]
  · exact hr

end Log.Holds

/-! ### Recovery after a stop -/

namespace Log

variable {c : Log} {m : ℕ} {ps : List Payload}

/-- Some log that holds `ps` has the directory that an interrupted log left, and each segment of
the interrupted log that has a file. -/
theorem Interrupted.exists_holds (h : c.Interrupted m ps) :
  ∃ l : Log, l.dir = c.dir ∧ l.maxSegmentBytes = m ∧ l.Holds ps ∧ l.Ready
    ∧ ∀ s ∈ c.live, s ∈ l.live
  := by
  obtain ⟨hmax, d, hd, hr, hdir⟩ := h
  rcases hdir with rfl | ⟨hlt, hdir⟩
  · exact ⟨c, rfl, hmax, hd, hr, fun s hs => hs⟩
  · -- The created file is that of a segment behind the last one, which maps none of it.
    have hnext : c.back.nextOffset = ps.length := hd.back_nextOffset
    let t : Handle := ⟨File.empty, ⟨Tally.start c.back.nextOffset, c.back.nextOffset, 0, 0, true⟩⟩
    have ht : t.Contains [] := ⟨rfl, 0, rfl⟩
    have hadd := hd.addBack (t := t) rfl ht (by simp [t])
    have hput : d.put c.back.nextOffset File.empty = c.dir := by
      rw [hdir, hnext]
      apply SortedMap.put_of_lt
      intro k hk
      rw [← hnext]
      apply hd.lt_of_mem_keys _ hk
      rwa [← hnext] at hlt
    refine ⟨{ c with
      dir := d.put c.back.nextOffset File.empty
      older := c.older ++ [c.back]
      back := t.seg }, hput, hmax, hadd, ?_, ?_⟩
    · right; left
      simp [t, file, File.empty]
    · intro s hs
      rw [mem_live]
      left
      rcases mem_live.mp hs with hs | rfl
      · exact ⟨List.mem_append_left _ hs.1, hs.2⟩
      · exact ⟨by simp, by omega⟩

/-- Reading only looks at the files of the segments. -/
theorem read_congr {l l' : Log} (hsegments : l'.segments = l.segments)
    (hfile : ∀ s ∈ l.segments, l'.file s.baseOffset = l.file s.baseOffset) (o : ℕ) :
  l'.read o = l.read o
  := by
  rw [read, read, hsegments]
  cases hs : elementBefore (fun s : Segment => decide (o < s.baseOffset)) l.segments with
  | none => rfl
  | some s => simp only [hfile s (mem_of_elementBefore hs).1]

/-- An interrupted log still returns what it holds. -/
theorem Interrupted.read_eq (h : c.Interrupted m ps) {o : ℕ} (ho : o < 2 ^ 64) :
  c.read o = ps[o]?.map (fun p => ⟨o, p.bytes⟩)
  := by
  obtain ⟨-, d, hd, -, hdir⟩ := h
  rw [← hd.read_eq ho]
  rcases hdir with rfl | ⟨hlt, hdir⟩
  · rfl
  · -- All segments start in front of the created file.
    have hsegments : c.segments = ({ c with dir := d } : Log).segments := rfl
    apply read_congr hsegments
    intro s hs
    have hle : s.baseOffset ≤ c.back.baseOffset := by
      rcases List.mem_append.mp hs with hs | hs
      · have hbounds : s.baseOffset ≤ s.nextOffset ∧ s.nextOffset ≤ c.back.baseOffset :=
          hd.older_bounds hs
        omega
      · rw [List.mem_singleton.mp hs]
    have hput : d ++ [(ps.length, File.empty)] = d.put ps.length File.empty := by
      rw [SortedMap.put_of_lt]
      intro k hk
      have hnext : c.back.nextOffset = ps.length := hd.back_nextOffset
      have hkey : k < c.back.nextOffset := hd.lt_of_mem_keys (hnext ▸ hlt) hk
      omega
    rw [file, hdir, hput, SortedMap.find?_put_of_ne (by omega)]
    rfl

theorem Interrupted.back_nextOffset (h : c.Interrupted m ps) :
  c.back.nextOffset = ps.length
  := by
  obtain ⟨-, d, hd, -⟩ := h
  exact hd.back_nextOffset

/-- The log that is constructed where another one was interrupted. -/
theorem Interrupted.recover_eq (h : c.Interrupted m ps) (hps : AllVisible 0 ps) :
  (recover m c.dir).Settled ps
    ∧ (recover m c.dir).maxSegmentBytes = m
    ∧ (recover m c.dir).segments.map (fun s => s.baseOffset) = c.dir.keys
    ∧ ∀ s ∈ c.live, ∃ s' ∈ (recover m c.dir).segments,
        s'.baseOffset = s.baseOffset ∧ s'.toTally = s.toTally
  := by
  obtain ⟨l, hdir, rfl, hl, hr, hlive⟩ := h.exists_holds
  have hsegments := hl.recover_segments hps hl.room
  rw [← hdir]
  refine ⟨hl.recover_settled hps hr, (hl.recover_fields _).1, ?_, ?_⟩
  · have := congrArg (List.map Prod.fst) hsegments
    simpa [Function.comp_def, hl.keys] using this
  · intro s hs
    have hmem := List.mem_map_of_mem (f := fun s => (s.baseOffset, s.toTally)) (hlive s hs)
    rw [← hsegments] at hmem
    obtain ⟨s', hs', heq⟩ := List.mem_map.mp hmem
    rw [Prod.mk.injEq] at heq
    exact ⟨s', hs', heq⟩

end Log

/-- The directories in which the constructor of a log on a fresh directory can be stopped. -/
theorem Log.construct_crashes (m : ℕ) :
  (Log.construct m []).crashes = [[], [(0, File.empty)], [(0, File.empty.truncate m)]]
  := rfl

theorem Log.recover_construct_crashes (m : ℕ) {d : Directory}
    (hd : d ∈ (Log.construct m []).crashes) :
  Log.recover m d = Log.fresh m
  := by
  rw [Log.construct_crashes] at hd
  simp only [List.mem_cons, List.not_mem_nil, or_false] at hd
  have hone : ∀ f : File, reopened m (0, f) = (Log.fresh m).handle →
      Log.recover m [(0, f)] = Log.fresh m := by
    intro f hf
    have hsorted : SortedMap.Sorted ([] ++ [(0, f)]) := by
      simp [SortedMap.Sorted, SortedMap.keys]
    have hnext : (Log.fresh m).handle.seg.nextOffset = 0 := (Log.fresh_settled m).back_nextOffset
    have hrecover := Log.recover_eq m hsorted
    rw [hf, hnext] at hrecover
    exact hrecover
  -- A file of size zero is filled, and one that was filled is left as it is.
  rcases hd with rfl | rfl | rfl
  · rfl
  · apply hone
    rfl
  · apply hone
    have hfile : Segment.constructedFile m (some (File.empty.truncate m))
        = Segment.constructedFile m none := by
      rw [Segment.constructedFile]
      split
      · simp only [Option.getD_some, File.truncate, resize_self, min_self, min_assoc]
        rfl
      · rfl
    have hopen : ¬ Segment.TakenAsSealed m (some (File.empty.truncate m)) := by
      simp [Segment.TakenAsSealed, File.truncate]
    rw [reopened, Segment.constructed, if_neg hopen, hfile]
    rfl

/-- Wherever a history on a fresh directory is stopped, the log that is constructed on the
directory continues with the same next offset, the same payloads, which are the first of those that
were appended, and, for each segment file, the same contents as the segment that wrote it. -/
theorem Log.recover_after_stop (m : ℕ) (ops : List Op)
    (h : NoneEmptyAtZero 0 (appended ((Log.fresh m).history ops))) :
  (∀ d ∈ (Log.construct m []).crashes, Log.recover m d = Log.fresh m)
    ∧ (∀ c ∈ (Log.fresh m).interruptions ops,
        let r := Log.recover m c.dir
        r.nextOffset = c.back.nextOffset
          ∧ (∀ o : UInt64, r.read o.toNat = c.read o.toNat)
          ∧ (∀ o : UInt64, r.read o.toNat
              = ((appended ((Log.fresh m).history ops)).take r.nextOffset)[o.toNat]?.map
                (fun bytes => ⟨o.toNat, bytes⟩))
          ∧ r.segments.map (fun s => s.baseOffset) = c.dir.keys
          ∧ (∀ s ∈ c.live, ∃ s' ∈ r.segments,
              s'.baseOffset = s.baseOffset ∧ s'.toTally = s.toTally)
          ∧ ∀ p, ((Op.append p).perform r).value
              = if kRecordHeaderSize + p.len ≤ m then .ok (.offset r.nextOffset)
                else .error recordTooLarge)
    ∧ ((Log.fresh m).run ops).back.nextOffset = ((Log.fresh m).run ops).nextOffset
  := by
  obtain ⟨ps, hmap, -, hrun, -, hstop⟩ := Log.fresh_run m ops
  rw [← hmap, ← allVisible_iff] at h
  refine ⟨fun d hd => Log.recover_construct_crashes m hd, ?_, ?_⟩
  · intro c hc
    obtain ⟨qs, hqs, -, hprefix⟩ := hstop c hc
    obtain ⟨hr, hmax, hkeys, htally⟩ := hqs.recover_eq (h.of_prefix hprefix)
    refine ⟨?_, ?_, ?_, hkeys, htally, ?_⟩
    · rw [hr.stored, hqs.back_nextOffset]
    · intro o
      rw [hr.read_eq o.toNat_lt, hqs.read_eq o.toNat_lt]
    · intro o
      have htake : ps.take qs.length = qs := (List.prefix_iff_eq_take.mp hprefix).symm
      rw [hr.read_eq o.toNat_lt, hr.stored, ← hmap, ← List.map_take, htake, List.getElem?_map,
        Option.map_map]
      rfl
    · intro p
      rw [(Log.perform_refines (.append p) _ _ hr).2.1, Op.spec, appendSpec, hmax, hr.stored]
      split
      · rfl
      · rfl
  · rw [hrun.stored, hrun.back_nextOffset]

/-- A history that rolls over, is refused a record, and appends a batch. -/
theorem Log.recover_after_stop_history :
  let ops : List Op := [.append ⟨[1, 2], by decide⟩, .append ⟨[3, 4, 5], by decide⟩,
    .append ⟨List.replicate 30 6, by decide⟩, .appendBatch [[7], [8]] true]
  NoneEmptyAtZero 0 (appended ((Log.fresh 40).history ops))
    ∧ ∀ c ∈ (Log.fresh 40).interruptions ops,
        (Log.recover 40 c.dir).nextOffset = c.back.nextOffset
  := by
  intro ops
  have h : NoneEmptyAtZero 0 (appended ((Log.fresh 40).history ops)) := by decide +kernel
  exact ⟨h, fun c hc => ((Log.recover_after_stop 40 ops h).2.1 c hc).1⟩

/-- Inside a batch, the stored next offset is behind what recovery finds. -/
theorem Log.recover_inside_batch :
  let ops : List Op := [.appendBatch [[1], [2]] true]
  NoneEmptyAtZero 0 (appended ((Log.fresh 40).history ops))
    ∧ ∃ c ∈ (Log.fresh 40).interruptions ops, (Log.recover 40 c.dir).nextOffset ≠ c.nextOffset
  := by
  decide +kernel

end Storage
