import Cascade.Storage.Contents

/-!
# A log is a list

Abstractly, a log is the list of the payloads appended to it: appending returns the length of
the list and reading looks up a place (`Op.spec`). The operations of `Log` refine these: whatever
segments a log has and however often it rolls over, it replies as the list does
(`perform_refines`, `run_refines`), and wherever it is interrupted its files hold a part of the
list that contains all that was there before (`Interrupted`).
-/

open Bytes Crash Crash.Program Tiling

namespace Storage

/-! ### The abstract log -/

/-- Appending a payload adds it to the list and returns its place, unless it is too large. -/
def appendSpec (p : Payload) (m : ℕ) (ps : List Payload) : List Payload × Except Error ℕ :=
  if kRecordHeaderSize + p.len ≤ m then (ps ++ [p], .ok ps.length)
  else (ps, .error recordTooLarge)

/-- Appending a batch adds all payloads or none, and returns the place of the first. -/
def appendBatchSpec (payloads : List (List UInt8)) (m : ℕ) (ps : List Payload) :
    List Payload × Except Error ℕ :=
  if Log.CannotFit m payloads then (ps, .error batchCannotFit)
  else (ps ++ payloads.map Log.payloadOf, .ok ps.length)

/-- What an operation does to the list of payloads, and what it returns or throws. -/
def Op.spec (op : Op) (m : ℕ) (ps : List Payload) : List Payload × Except Error Reply :=
  match op with
  | .append p => ((appendSpec p m ps).1, (appendSpec p m ps).2.map .offset)
  | .appendBatch payloads _ =>
      ((appendBatchSpec payloads m ps).1, (appendBatchSpec payloads m ps).2.map .offset)
  | .flush => (ps, .ok .done)
  | .read o => (ps, .ok (.record (ps[o.toNat]?.map (fun p => ⟨o.toNat, p.bytes⟩))))

/-- The list after a list of operations. -/
def Op.specRun (maxSegmentBytes : ℕ) (ps : List Payload) : List Op → List Payload
  | [] => ps
  | op :: ops => specRun maxSegmentBytes (op.spec maxSegmentBytes ps).1 ops

/-- The operations with what they return or throw. -/
def Op.specHistory (maxSegmentBytes : ℕ) (ps : List Payload) :
    List Op → List (Op × Except Error Reply)
  | [] => []
  | op :: ops => (op, (op.spec maxSegmentBytes ps).2)
      :: specHistory maxSegmentBytes (op.spec maxSegmentBytes ps).1 ops

theorem prefix_appendSpec (p : Payload) (m : ℕ) (ps : List Payload) :
  ps <+: (appendSpec p m ps).1
  := by
  rw [appendSpec]
  split
  · apply List.prefix_append
  · apply List.prefix_refl

theorem prefix_appendBatchSpec (payloads : List (List UInt8)) (m : ℕ) (ps : List Payload) :
  ps <+: (appendBatchSpec payloads m ps).1
  := by
  rw [appendBatchSpec]
  split
  · apply List.prefix_refl
  · apply List.prefix_append

/-- An operation only adds to the list. -/
theorem Op.prefix_spec (m : ℕ) (ps : List Payload) (op : Op) :
  ps <+: (op.spec m ps).1
  := by
  cases op with
  | append p => apply prefix_appendSpec
  | appendBatch payloads flushAfter => apply prefix_appendBatchSpec
  | flush => apply List.prefix_refl
  | read o => apply List.prefix_refl

theorem Op.prefix_specRun (maxSegmentBytes : ℕ) (ps : List Payload) (ops : List Op) :
  ps <+: Op.specRun maxSegmentBytes ps ops
  := by
  induction ops generalizing ps with
  | nil => apply List.prefix_refl
  | cons op ops ih => apply (Op.prefix_spec maxSegmentBytes ps op).trans (ih _)

theorem Op.specRun_append (maxSegmentBytes : ℕ) (ps : List Payload) (ops ops' : List Op) :
  Op.specRun maxSegmentBytes ps (ops ++ ops')
    = Op.specRun maxSegmentBytes (Op.specRun maxSegmentBytes ps ops) ops'
  := by
  induction ops generalizing ps with
  | nil => rfl
  | cons op ops ih => apply ih

namespace Log

/-! ### Rolling over -/

/-- The last segment is not empty, or its file has a size at which the constructor of a segment
does not take it to be sealed. The segment that follows it will be open. -/
def Ready (l : Log) : Prop :=
  l.back.baseOffset < l.back.nextOffset
    ∨ (l.file l.back.baseOffset).bytes.length = 0
    ∨ l.maxSegmentBytes ≤ (l.file l.back.baseOffset).bytes.length

theorem Holds.ready_of_open {l : Log} {ps : List Payload} (h : l.Holds ps)
    (hopen : l.back.isSealed = false) :
  l.Ready
  := .inr (.inr (h.mapped hopen).2)

/-- The log was stopped while it held `ps`: all is in place, but for a file that was created
without being sized yet. -/
def Interrupted (l : Log) (m : ℕ) (ps : List Payload) : Prop :=
  l.maxSegmentBytes = m
    ∧ ∃ d, ({ l with dir := d } : Log).Holds ps ∧ ({ l with dir := d } : Log).Ready
      ∧ (l.dir = d ∨ (l.back.baseOffset < ps.length ∧ l.dir = d ++ [(ps.length, File.empty)]))

theorem Holds.interrupted {l : Log} {ps : List Payload} (h : l.Holds ps) (hr : l.Ready) :
  l.Interrupted l.maxSegmentBytes ps
  := ⟨rfl, l.dir, h, hr, .inl rfl⟩

section Rolling

variable {l : Log} {ps : List Payload}

theorem Holds.notMem_keys (h : l.Holds ps) (hlt : l.back.baseOffset < l.back.nextOffset) :
  l.back.nextOffset ∉ l.dir.keys
  := by
  intro hmem
  have := h.lt_of_mem_keys hlt hmem
  omega

/-- Sealing keeps a log ready. -/
theorem Holds.sealedBack_ready (h : l.Holds ps) (hr : l.Ready) :
  l.sealedBack.Ready
  := by
  by_cases hlt : l.back.baseOffset < l.back.nextOffset
  · left
    simpa using hlt
  · right
    rw [sealedBack_baseOffset]
    cases hs : l.back.isSealed with
    | false =>
        left
        have hzero := h.back_writePos (Nat.not_lt.mp hlt)
        simp [Log.sealedBack, Log.putBack, Handle.sealed, handle, file, hs, hzero, File.truncate]
    | true =>
        have hsame : l.sealedBack = l := by
          rw [Log.sealedBack, Handle.sealed, if_pos (by exact hs)]
          apply h.attached.putBack_handle
        rw [hsame]
        exact hr.resolve_left hlt

/-- The segment that follows a sealed one is open. -/
theorem Holds.rolledOver_open (h : l.Holds ps) (hr : l.Ready) :
  l.rolledOver.back.isSealed = false
  := by
  have hs : ¬ Segment.TakenAsSealed l.sealedBack.maxSegmentBytes
      (l.sealedBack.dir.find? l.sealedBack.back.nextOffset) := by
    by_cases hlt : l.sealedBack.back.baseOffset < l.sealedBack.back.nextOffset
    · rw [SortedMap.find?_eq_none (h.sealedBack.notMem_keys hlt)]
      simp [Segment.TakenAsSealed]
    · have heq : l.sealedBack.back.nextOffset = l.sealedBack.back.baseOffset := by
        have := h.sealedBack.split
        omega
      have hsize := (h.sealedBack_ready hr).resolve_left hlt
      simp only [file] at hsize
      rw [heq, Segment.TakenAsSealed]
      omega
  rw [rolledOver, Log.rolled, Segment.constructed, if_neg hs]
  rfl

/-- The new segment has room for what fits in a segment at all. -/
theorem Holds.fits_rolledOver (h : l.Holds ps) (hr : l.Ready) (p : Payload) :
  Handle.Fits p l.rolledOver.back ↔ kRecordHeaderSize + p.len ≤ l.maxSegmentBytes
  := by
  have hopen := h.rolledOver_open hr
  have hmapped := (h.sealedBack.rolled.mapped hopen).1
  have hpos : l.rolledOver.back.writePos = 0 := by
    have hpos := h.sealedBack.rolled.contains_back.writePos_eq
    rw [List.drop_eq_nil_iff.mpr] at hpos
    · exact hpos
    · rw [← h.back_nextOffset]
      simp [Log.rolled]
  have hmapped' : l.rolledOver.back.mappedLen = l.maxSegmentBytes := hmapped
  rw [Handle.Fits, hopen, hpos, hmapped', Nat.zero_add]
  simp

/-- Between the creation and the sizing of a new file. -/
theorem Holds.created (h : l.Holds ps) (hr : l.Ready) :
  l.created.Interrupted l.maxSegmentBytes ps
  := by
  refine ⟨rfl, ?_⟩
  use l.dir
  refine ⟨h, hr, ?_⟩
  by_cases hlt : l.back.baseOffset < l.back.nextOffset
  · right
    have hkeys : ∀ k ∈ l.dir.keys, k < l.back.nextOffset := fun k => h.lt_of_mem_keys hlt
    refine ⟨by rwa [← h.back_nextOffset], ?_⟩
    simp only [Log.created]
    rw [SortedMap.put_of_lt hkeys, SortedMap.find?_eq_none (h.notMem_keys hlt), h.back_nextOffset]
    rfl
  · left
    have heq : l.back.nextOffset = l.back.baseOffset := by
      have := h.split
      omega
    obtain ⟨f, hf⟩ := SortedMap.find?_of_mem_keys h.attached.mem
    simp only [Log.created, heq, hf, Option.getD_some]
    apply h.sorted.put_find? hf

/-- What `appendRolling` does to a log that holds `ps`. -/
theorem Holds.wp_appendRolling (h : l.Holds ps) (hr : l.Ready) (p : Payload) :
  wp (fun c => c.Interrupted l.maxSegmentBytes ps) (appendRolling p)
    (fun r t => t.Ready ∧ t.maxSegmentBytes = l.maxSegmentBytes
      ∧ t.nextOffset = l.nextOffset
      ∧ if kRecordHeaderSize + p.len ≤ l.maxSegmentBytes then
          r = .ok ps.length ∧ t.Holds (ps ++ [p])
        else r = .error recordTooLarge ∧ t.Holds ps) l
  := by
  rw [Log.wp_appendRolling h.attached]
  split
  · rename_i hfits
    have hsize : kRecordHeaderSize + p.len ≤ l.maxSegmentBytes := by
      have := (h.mapped hfits.1).1
      have := hfits.2
      omega
    rw [if_pos hsize, h.back_nextOffset]
    have hpush := h.pushed hfits
    exact ⟨h.interrupted hr, hpush.ready_of_open hfits.1, rfl, rfl, rfl, hpush⟩
  · have hseal := h.sealedBack
    have hsealr := h.sealedBack_ready hr
    have hroll := h.sealedBack.rolled
    have hopen := h.rolledOver_open hr
    have hrollr := hroll.ready_of_open hopen
    refine ⟨?_, hseal.interrupted hsealr, fun _ => hseal.created hsealr,
      hroll.interrupted hrollr, ?_⟩
    · intro hopen
      refine ⟨h.interrupted hr, ?_⟩
      have hsync : (l.putBack { l.handle with
          file := l.handle.file.msync l.back.writePos }).Holds ps := by
        apply h.putBack_of_bytes_eq
        rfl
      exact hsync.interrupted (hsync.ready_of_open hopen)
    · split
      · rename_i hfits
        rw [if_pos ((h.fits_rolledOver hr p).mp hfits)]
        have hpush := hroll.pushed hfits
        refine ⟨hroll.interrupted hrollr, hpush.ready_of_open hopen, rfl, rfl, ?_, hpush⟩
        rw [← hroll.back_nextOffset]
        rfl
      · rename_i hfull
        rw [if_neg (fun hle => hfull ((h.fits_rolledOver hr p).mpr hle))]
        exact ⟨hrollr, rfl, rfl, rfl, hroll⟩

end Rolling

/-! ### The operations -/

/-- The state of a log between two operations. -/
structure Settled (l : Log) (ps : List Payload) : Prop extends l.Holds ps where
  ready : l.Ready
  stored : l.nextOffset = ps.length

theorem payloadOf_bytes {p : List UInt8} (h : p.length < 2 ^ 32) :
  (payloadOf p).bytes = p
  := by
  simp only [payloadOf, Nat.mod_eq_of_lt h, List.take_length]

/-- A payload of a batch that fits is not cut. -/
theorem payloadOf_bytes_of_fit {m : ℕ} {payloads : List (List UInt8)} (h : ¬ CannotFit m payloads)
    {p : List UInt8} (hp : p ∈ payloads) :
  (payloadOf p).bytes = p
  := by
  simp only [CannotFit, not_exists, not_and, not_or, not_lt] at h
  have := h p hp
  apply payloadOf_bytes
  omega

section Operations

variable {l : Log} {ps : List Payload}

/-- The log was stopped with at least the payloads `ps` and at most the payloads `qs`. -/
def StoppedBetween (m : ℕ) (ps qs : List Payload) (c : Log) : Prop :=
  ∃ rs, c.Interrupted m rs ∧ ps <+: rs ∧ rs <+: qs

/-- A program on logs does what `spec` says of the list: it returns or throws the same and leaves
a log that holds the new list. If it is interrupted, all that was there before is still there. -/
def Refines {α : Type} (x : Program Log Error α)
    (spec : ℕ → List Payload → List Payload × Except Error α) : Prop :=
  ∀ (l : Log) (ps : List Payload), l.Settled ps →
    wp (StoppedBetween l.maxSegmentBytes ps (spec l.maxSegmentBytes ps).1) x
      (fun r t => r = (spec l.maxSegmentBytes ps).2
        ∧ t.Settled (spec l.maxSegmentBytes ps).1
        ∧ t.maxSegmentBytes = l.maxSegmentBytes) l

/-- Applying a function to what a program returns. -/
theorem Refines.map {α β : Type} {x : Program Log Error α}
    {spec : ℕ → List Payload → List Payload × Except Error α} (h : Refines x spec) (f : α → β) :
  Refines (do return f (← x)) (fun m ps => ((spec m ps).1, (spec m ps).2.map f))
  := by
  intro l ps hl
  rw [wp_bind]
  apply wp_mono (h l ps hl)
  · exact fun _ hc => hc
  · rintro r t ⟨rfl, ht⟩
    cases hr : (spec l.maxSegmentBytes ps).2 with
    | error e =>
        simp only [orElse_error, hr]
        exact ⟨rfl, ht⟩
    | ok a =>
        simp only [orElse_ok, wp_pure, hr]
        exact ⟨rfl, ht⟩

theorem append_refines (p : Payload) :
  Refines (append p) (appendSpec p)
  := by
  intro l ps h
  rw [append, wp_bind]
  apply wp_mono (h.toHolds.wp_appendRolling h.ready p)
  · intro c hc
    exact ⟨ps, hc, List.prefix_refl ps, prefix_appendSpec _ _ _⟩
  · rintro r t ⟨hready, hmax, hnext, hif⟩
    rw [appendSpec]
    split at hif
    · rename_i hle
      obtain ⟨rfl, ht⟩ := hif
      simp only [orElse_ok, wp_bind, wp_update, wp_pure, if_pos hle]
      refine ⟨trivial, ?_, hmax⟩
      constructor
      · exact ht.of_eq rfl rfl rfl rfl
      · exact hready
      · simp
    · rename_i hgt
      obtain ⟨rfl, ht⟩ := hif
      simp only [orElse_error, if_neg hgt]
      exact ⟨trivial, ⟨ht, hready, by rw [hnext, h.stored]⟩, hmax⟩

/-- The loop of `appendBatch`, with any property `J` that a single round keeps. -/
theorem wp_appendAll {J : Log → Prop} (h : l.Holds ps) (hr : l.Ready)
    {payloads : List (List UInt8)} (hfit : ¬ CannotFit l.maxSegmentBytes payloads)
    (round : ∀ t qs p, t.Holds qs → t.Ready → J t →
      wp (fun _ => True) (appendRolling p) (fun _ u => J u) t)
    (hJ : J l) :
  wp (StoppedBetween l.maxSegmentBytes ps (ps ++ payloads.map payloadOf))
    (forEach (fun p => do let _ ← appendRolling (payloadOf p)) payloads)
    (fun r t => r = .ok () ∧ t.Holds (ps ++ payloads.map payloadOf) ∧ t.Ready
      ∧ t.maxSegmentBytes = l.maxSegmentBytes ∧ J t) l
  := by
  -- The payloads passed so far have been appended.
  let I : List (List UInt8) → Log → Prop := fun done t =>
    t.Holds (ps ++ done.map payloadOf) ∧ t.Ready ∧ t.maxSegmentBytes = l.maxSegmentBytes ∧ J t
  apply wp_forEach (I := I)
  · rintro done b rest t rfl ⟨ht, hready, hmax, hJt⟩
    rw [wp_bind]
    apply wp_mono (wp_and (ht.wp_appendRolling hready (payloadOf b))
      (round t _ (payloadOf b) ht hready hJt))
    · rintro c ⟨hc, -⟩
      rw [hmax] at hc
      refine ⟨_, hc, List.prefix_append _ _, ?_⟩
      rw [List.map_append, ← List.append_assoc]
      apply List.prefix_append
    · rintro r t' ⟨⟨hready', hmax', -, hif⟩, hJt'⟩
      have hb : b.length < 2 ^ 32 ∧ kRecordHeaderSize + b.length ≤ l.maxSegmentBytes := by
        simp only [CannotFit, not_exists, not_and, not_or, not_lt] at hfit
        have := hfit b (by simp)
        omega
      have hlen : (payloadOf b).len = b.length := by
        rw [Payload.len, payloadOf_bytes hb.1]
      rw [hlen, hmax, if_pos hb.2] at hif
      obtain ⟨rfl, ht'⟩ := hif
      simp only [orElse_ok, wp_pure]
      refine ⟨trivial, ?_, hready', by rw [hmax', hmax], hJt'⟩
      rw [List.map_append, ← List.append_assoc]
      exact ht'
  · refine ⟨?_, hr, rfl, hJ⟩
    rw [List.map_nil, List.append_nil]
    exact h

/-- Forcing the last segment to the device. -/
theorem wp_flush_of_holds {ε : Type} {Q : Except ε Unit → Log → Prop} (h : l.Holds ps)
    (hr : l.Ready) (hQ : ∀ t : Log, t.Holds ps → t.Ready →
      t.maxSegmentBytes = l.maxSegmentBytes → t.nextOffset = l.nextOffset → Q (.ok ()) t) :
  wp (fun c => c.Interrupted l.maxSegmentBytes ps) flush Q l
  := by
  simp only [flush, wp_bind, wp_onBack_flush h.attached, orElse_ok, wp_update]
  refine ⟨fun _ => h.interrupted hr, ?_⟩
  refine hQ _ ?_ ?_ rfl rfl
  · exact h.flushedBack.of_eq rfl rfl rfl rfl
  · have hfile : (l.flushedBack.file l.back.baseOffset).bytes
        = (l.file l.back.baseOffset).bytes := by
      simp only [flushedBack, putBack, file, SortedMap.find?_put_self, Option.getD_some]
      apply Handle.flushed_bytes
    rw [Ready] at hr ⊢
    simp only [l.flushedBack_back]
    change _ ∨ (l.flushedBack.file _).bytes.length = 0
      ∨ _ ≤ (l.flushedBack.file _).bytes.length
    rw [hfile]
    exact hr

theorem appendBatch_refines (payloads : List (List UInt8)) (flushAfter : Bool) :
  Refines (appendBatch payloads flushAfter) (appendBatchSpec payloads)
  := by
  intro l ps h
  simp only [appendBatch, wp_bind, wp_gets, orElse_ok, appendBatchSpec]
  by_cases hfit : CannotFit l.maxSegmentBytes payloads
  · simp only [if_pos hfit, wp_raise]
    exact ⟨trivial, h, trivial⟩
  · simp only [if_neg hfit, wp_bind, wp_gets, orElse_ok]
    by_cases hnil : payloads = []
    · subst hnil
      simp only [if_pos, wp_pure, List.map_nil, List.append_nil, h.back_nextOffset]
      exact ⟨trivial, h, trivial⟩
    · simp only [if_neg hnil, wp_bind]
      rw [wp_onError]
      apply wp_mono (wp_appendAll (J := fun _ => True) h.toHolds h.ready hfit
        (fun _ _ _ _ _ _ => wp_trivial _) trivial)
      · exact fun c hc => hc
      · rintro r t ⟨rfl, ht, hready, hmax, -⟩
        have ht' : t.storeNextOffset.Settled (ps ++ payloads.map payloadOf) := by
          constructor
          · exact ht.of_eq rfl rfl rfl rfl
          · exact hready
          · exact ht.back_nextOffset
        simp only [orElse_ok, wp_bind, wp_update]
        cases flushAfter with
        | false =>
            simp only [Bool.false_eq_true, if_false, wp_pure, h.back_nextOffset]
            exact ⟨trivial, ht', hmax⟩
        | true =>
            simp only [if_true, wp_bind]
            apply wp_mono (wp_flush_of_holds ht'.toHolds ht'.ready ?_)
            · intro c hc
              rw [show t.storeNextOffset.maxSegmentBytes = l.maxSegmentBytes from hmax] at hc
              exact ⟨_, hc, List.prefix_append _ _, List.prefix_refl _⟩
            · exact fun _ _ hq => hq
            · intro u hu hready' hmax' hnext
              simp only [orElse_ok, wp_pure, h.back_nextOffset]
              refine ⟨trivial, ?_, by rw [hmax', ← hmax]; rfl⟩
              exact ⟨hu, hready', by rw [hnext, ht'.stored]⟩

theorem flush_refines :
  Refines flush (fun _ ps => (ps, .ok ()))
  := by
  intro l ps h
  apply wp_mono (wp_flush_of_holds h.toHolds h.ready ?_)
  · intro c hc
    exact ⟨ps, hc, List.prefix_refl ps, List.prefix_refl ps⟩
  · exact fun _ _ hq => hq
  · intro t ht hready hmax hnext
    exact ⟨rfl, ⟨ht, hready, by rw [hnext, h.stored]⟩, hmax⟩

/-- The operations of a log do to it what the abstract ones do to the list. -/
theorem perform_refines (op : Op) :
  Refines op.perform op.spec
  := by
  cases op with
  | append p => exact (append_refines p).map Reply.offset
  | appendBatch payloads flushAfter =>
      exact (appendBatch_refines payloads flushAfter).map Reply.offset
  | flush => exact flush_refines.map (fun _ => Reply.done)
  | read o =>
      intro l ps h
      simp only [Op.perform, wp_bind, wp_gets, orElse_ok, wp_pure, h.read_eq o.toNat_lt, Op.spec]
      exact ⟨trivial, h, trivial⟩

/-- A history of operations replies as the list does, and every state in which it can be
stopped holds a part of the final list. -/
theorem run_refines (h : l.Settled ps) (ops : List Op) :
  l.history ops = Op.specHistory l.maxSegmentBytes ps ops
    ∧ (l.run ops).Settled (Op.specRun l.maxSegmentBytes ps ops)
    ∧ (l.run ops).maxSegmentBytes = l.maxSegmentBytes
    ∧ ∀ c ∈ l.interruptions ops,
        StoppedBetween l.maxSegmentBytes ps (Op.specRun l.maxSegmentBytes ps ops) c
  := by
  induction ops generalizing l ps with
  | nil =>
      refine ⟨rfl, h, rfl, ?_⟩
      intro c hc
      rw [List.mem_singleton.mp hc]
      exact ⟨ps, h.toHolds.interrupted h.ready, List.prefix_refl ps, List.prefix_refl ps⟩
  | cons op ops ih =>
      obtain ⟨hcrash, hvalue, hfinal, hmax⟩ := perform_refines op l ps h
      obtain ⟨hhist, hrun, hmax', hstop⟩ := ih hfinal
      rw [hmax] at hhist hrun hstop
      have hprefix := Op.prefix_specRun l.maxSegmentBytes (op.spec l.maxSegmentBytes ps).1 ops
      refine ⟨?_, hrun, by rw [run, hmax', hmax], ?_⟩
      · rw [history, Op.specHistory, hvalue, hhist]
      · intro c hc
        rcases List.mem_append.mp hc with hc | hc
        · obtain ⟨rs, hrs, hps, hspec⟩ := hcrash c hc
          exact ⟨rs, hrs, hps, hspec.trans hprefix⟩
        · obtain ⟨rs, hrs, hps, hspec⟩ := hstop c hc
          exact ⟨rs, hrs, (Op.prefix_spec _ _ _).trans hps, hspec⟩

end Operations

/-! ### The fresh log -/

theorem fresh_eq (m : ℕ) :
  fresh m = ⟨[(0, Segment.constructedFile m none)], m, [], Segment.constructed 0 m none, 0, 0⟩
  := rfl

/-- A log on a fresh directory holds nothing. -/
theorem fresh_settled (m : ℕ) :
  (fresh m).Settled []
  := by
  have hnone : ((none : Option File).getD File.empty).bytes = List.replicate 0 0 := rfl
  have hc : (fresh m).handle.Contains [] := Segment.constructed_zeros 0 m hnone
  have hbase : (fresh m).back.baseOffset = 0 := Segment.constructed_baseOffset 0 m none
  have hnext : (fresh m).back.nextOffset = 0 := by
    have := hc.nextOffset_eq
    simpa [handle, hbase] using this
  have hlive : (fresh m).live = [(fresh m).back] := rfl
  have hholds : (fresh m).Holds [] := by
    constructor
    case tiles => exact ⟨hbase, Nat.zero_le _, hnext⟩
    case keys =>
      rw [hlive, List.map_singleton, hbase]
      rfl
    case contains =>
      intro s hs
      rw [hlive] at hs
      rw [List.mem_singleton.mp hs, Segment.share, slice, List.drop_nil, List.take_nil]
      exact hc
    case room =>
      intro s hs
      rw [hlive] at hs
      have hpos : (fresh m).back.writePos = 0 := hc.writePos_eq
      rw [List.mem_singleton.mp hs, hpos]
      apply Nat.zero_le
    case mapped =>
      have hmapped : (Segment.constructed 0 m none).isSealed = false → _ :=
        Segment.constructed_mapped
      rw [hbase]
      exact hmapped
  exact ⟨hholds, hholds.ready_of_open rfl, rfl⟩

end Log

end Storage
