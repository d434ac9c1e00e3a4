import Cascade.Storage.Availability

/-!
# Failed appends

An append finds out that a record is too large for a segment only after it has sealed the last
segment and added a new one. It throws, and leaves another segment behind, which may share its file
with the one before; but the log holds what it held, and as the contents decide all that can be
observed later on, also after the log was closed and reopened, nothing will ever tell that the
append was tried (`Log.failed_append_invisible`).
-/

open Crash Crash.Program

namespace Storage

/-- What a step of a log returns or throws. Reopening returns nothing. -/
def Log.reply (l : Log) : Session → Except Error Reply
  | .op op => (op.perform l).value
  | .reopen _ => .ok .done

/-- Some steps of a log, with what they returned or threw. -/
def Log.sessions (l : Log) : List Session → List (Session × Except Error Reply)
  | [] => []
  | s :: ss => (s, l.reply s) :: (l.after s).sessions ss

/-- The payloads that a step appended. -/
def storedBy : Session × Except Error Reply → List (List UInt8)
  | (.op op, reply) => appendedBy (op, reply)
  | (.reopen _, _) => []

/-- The payloads that some steps appended, in order. -/
def storedIn (h : List (Session × Except Error Reply)) : List (List UInt8) := h.flatMap storedBy

theorem Log.sessions_append (l : Log) (ss rest : List Session) :
  l.sessions (ss ++ rest) = l.sessions ss ++ (l.afterAll ss).sessions rest
  := by
  induction ss generalizing l with
  | nil => rfl
  | cons s ss ih =>
    rw [List.cons_append, Log.sessions, Log.sessions, List.cons_append, ih]
    rfl

theorem NoneEmptyAtZero.of_append {base : ℕ} {ps qs : List (List UInt8)}
    (h : NoneEmptyAtZero base (ps ++ qs)) :
  NoneEmptyAtZero base ps
  := by
  intro i hi hzero
  have hget : (ps ++ qs)[i]? = ps[i]? := List.getElem?_append_left hi
  rw [← hget]
  apply h i _ hzero
  rw [List.length_append]
  omega

/-! ### The abstract log -/

/-- What a step does to the list of payloads, and what it returns or throws. Reopening does
nothing. -/
def Session.spec (m : ℕ) (ps : List Payload) : Session → List Payload × Except Error Reply
  | .op operation => operation.spec m ps
  | .reopen _ => (ps, .ok .done)

/-- The list after some steps. -/
def Session.specRun (m : ℕ) (ps : List Payload) : List Session → List Payload
  | [] => ps
  | s :: ss => specRun m (s.spec m ps).1 ss

/-- The steps with what they return or throw. -/
def Session.specHistory (m : ℕ) (ps : List Payload) :
    List Session → List (Session × Except Error Reply)
  | [] => []
  | s :: ss => (s, (s.spec m ps).2) :: specHistory m (s.spec m ps).1 ss

theorem Session.spec_stored (m : ℕ) (ps : List Payload) (s : Session) :
  (s.spec m ps).1.map Payload.bytes = ps.map Payload.bytes ++ storedBy (s, (s.spec m ps).2)
  := by
  cases s with
  | op op => exact (op.spec_appended m ps).1
  | reopen k => exact (List.append_nil _).symm

theorem Session.specRun_stored (m : ℕ) (ps : List Payload) (ss : List Session) :
  (Session.specRun m ps ss).map Payload.bytes
    = ps.map Payload.bytes ++ storedIn (Session.specHistory m ps ss)
  := by
  induction ss generalizing ps with
  | nil => exact (List.append_nil _).symm
  | cons s ss ih =>
    rw [specRun, ih, spec_stored, List.append_assoc]
    rfl

theorem Session.prefix_specRun (m : ℕ) (ps : List Payload) (ss : List Session) :
  ps <+: Session.specRun m ps ss
  := by
  induction ss generalizing ps with
  | nil => apply List.prefix_refl
  | cons s ss ih =>
    have hstep : ps <+: (s.spec m ps).1 := by
      cases s with
      | op op => apply op.prefix_spec
      | reopen k => apply List.prefix_refl
    exact hstep.trans (ih _)

/-- Appends of records that are too large change nothing and throw. -/
theorem Op.spec_failed {m : ℕ} {failed : List Payload}
    (h : ∀ p ∈ failed, m < kRecordHeaderSize + p.len) (ps : List Payload) :
  Op.specRun m ps (failed.map .append) = ps
    ∧ ∀ e ∈ Op.specHistory m ps (failed.map .append), e.2 = .error recordTooLarge
  := by
  induction failed with
  | nil => exact ⟨rfl, by simp [Op.specHistory]⟩
  | cons p failed ih =>
    obtain ⟨hp, hfailed⟩ := List.forall_mem_cons.mp h
    obtain ⟨hrun, hhistory⟩ := ih hfailed
    have hspec : (Op.append p).spec m ps = (ps, .error recordTooLarge) := by
      rw [Op.spec, appendSpec, if_neg (Nat.not_le.mpr hp)]
      rfl
    rw [List.map_cons, Op.specRun, Op.specHistory, hspec]
    exact ⟨hrun, List.forall_mem_cons.mpr ⟨rfl, hhistory⟩⟩

/-! ### The log refines the abstract one -/

namespace Log.Settled

variable {l : Log} {ps : List Payload} {m : ℕ}

/-- A step does what it does to the list, if what is found again at a reopening is what was
there. -/
theorem after (h : l.Settled ps) (hmax : l.maxSegmentBytes = m) {s : Session} (hs : s.KeepsSize m)
    (hps : AllVisible 0 ps) :
  l.reply s = (s.spec m ps).2 ∧ (l.after s).Settled (s.spec m ps).1
    ∧ (l.after s).maxSegmentBytes = m
  := by
  subst hmax
  cases s with
  | op op => exact wp_final (perform_refines op l ps h)
  | reopen k =>
    obtain rfl : k = l.maxSegmentBytes := hs
    exact ⟨rfl, h.toHolds.recover_settled hps h.ready, (h.toHolds.recover_fields _).1⟩

/-- No record is lost at a reopening if no empty one was given an offset that is stored as zero. -/
theorem allVisible (h : l.Settled ps) (hmax : l.maxSegmentBytes = m) {ss : List Session}
    (hss : ∀ s ∈ ss, s.KeepsSize m)
    (hzero : NoneEmptyAtZero 0 (ps.map Payload.bytes ++ storedIn (l.sessions ss))) :
  AllVisible 0 (Session.specRun m ps ss)
  := by
  induction ss generalizing l ps with
  | nil => exact allVisible_iff.mpr hzero.of_append
  | cons s ss ih =>
    obtain ⟨hs, hss⟩ := List.forall_mem_cons.mp hss
    obtain ⟨hreply, hsettled, hmax'⟩ := h.after hmax hs (allVisible_iff.mpr hzero.of_append)
    apply ih hsettled hmax' hss
    rw [Session.spec_stored, ← hreply, List.append_assoc]
    exact hzero

/-- A log returns what the list does, as long as it finds its records again. -/
theorem sessions (h : l.Settled ps) (hmax : l.maxSegmentBytes = m) {ss : List Session}
    (hss : ∀ s ∈ ss, s.KeepsSize m) (hps : AllVisible 0 (Session.specRun m ps ss)) :
  l.sessions ss = Session.specHistory m ps ss
    ∧ (l.afterAll ss).Settled (Session.specRun m ps ss)
    ∧ (l.afterAll ss).maxSegmentBytes = m
  := by
  induction ss generalizing l ps with
  | nil => exact ⟨rfl, h, hmax⟩
  | cons s ss ih =>
    obtain ⟨hs, hss⟩ := List.forall_mem_cons.mp hss
    have hvisible : AllVisible 0 ps := hps.of_prefix (Session.prefix_specRun m ps (s :: ss))
    obtain ⟨hreply, hsettled, hmax'⟩ := h.after hmax hs hvisible
    obtain ⟨hsessions, hfinal⟩ := ih hsettled hmax' hss hps
    refine ⟨?_, hfinal⟩
    rw [Log.sessions, Session.specHistory, hreply, hsessions]

/-- Two logs with the same contents cannot be told apart. -/
theorem indistinguishable (h : l.Settled ps) (hmax : l.maxSegmentBytes = m) {t : Log}
    (ht : t.Settled ps) (hmax' : t.maxSegmentBytes = m) {ss : List Session}
    (hss : ∀ s ∈ ss, s.KeepsSize m) (hps : AllVisible 0 (Session.specRun m ps ss)) :
  t.sessions ss = l.sessions ss
    ∧ (t.afterAll ss).nextOffset = (l.afterAll ss).nextOffset
    ∧ ∀ o : UInt64, (t.afterAll ss).read o.toNat = (l.afterAll ss).read o.toNat
  := by
  obtain ⟨hsessions, hsettled, -⟩ := h.sessions hmax hss hps
  obtain ⟨hsessions', hsettled', -⟩ := ht.sessions hmax' hss hps
  refine ⟨hsessions'.trans hsessions.symm, hsettled'.stored.trans hsettled.stored.symm, ?_⟩
  intro o
  rw [hsettled'.read_eq o.toNat_lt, hsettled.read_eq o.toNat_lt]

end Log.Settled

/-- In a run with a fixed size of segments, let some appends of records that are too large be tried
in between. They throw, and the steps that follow return what they would return had the appends not
been tried, and lead to the same next offset and the same records. -/
theorem Log.failed_append_invisible {m : ℕ} {ss rest : List Session}
    (hsize : ∀ s ∈ ss ++ rest, s.KeepsSize m)
    (hzero : NoneEmptyAtZero 0 (storedIn ((fresh m).sessions (ss ++ rest))))
    {failed : List Payload} (hlarge : ∀ p ∈ failed, m < kRecordHeaderSize + p.len) :
  let l := (fresh m).afterAll ss
  let t := l.run (failed.map .append)
  (∀ e ∈ l.history (failed.map .append), e.2 = .error recordTooLarge)
    ∧ t.sessions rest = l.sessions rest
    ∧ (t.afterAll rest).nextOffset = (l.afterAll rest).nextOffset
    ∧ ∀ o : UInt64, (t.afterAll rest).read o.toNat = (l.afterAll rest).read o.toNat
  := by
  intro l t
  obtain ⟨hss, hrest⟩ := List.forall_mem_append.mp hsize
  have hfresh := fresh_settled m
  have hmax₀ : (fresh m).maxSegmentBytes = m := rfl
  rw [sessions_append, storedIn, List.flatMap_append] at hzero
  have hvisible : AllVisible 0 (Session.specRun m [] ss) :=
    hfresh.allVisible hmax₀ hss hzero.of_append
  obtain ⟨hsessions, hl, hmax⟩ := hfresh.sessions hmax₀ hss hvisible
  have hstored := Session.specRun_stored m [] ss
  rw [List.map_nil, List.nil_append, ← hsessions] at hstored
  have hvisible' : AllVisible 0 (Session.specRun m (Session.specRun m [] ss) rest) := by
    apply hl.allVisible hmax hrest
    rw [hstored]
    exact hzero
  -- The failed appends leave a log with the same contents.
  obtain ⟨hrun, herrors⟩ := Op.spec_failed hlarge (Session.specRun m [] ss)
  obtain ⟨hhistory, ht, hmax', -⟩ := run_refines hl (failed.map .append)
  rw [hmax] at hhistory ht hmax'
  rw [hrun] at ht
  refine ⟨?_, hl.indistinguishable hmax ht hmax' hrest hvisible'⟩
  rw [hhistory]
  exact herrors

/-- A record is appended; two appends fail, the second of them on an empty segment; another record
is appended, and the log is reopened. -/
theorem Log.failed_append_invisible_twice :
  let l := (fresh 24).afterAll [.op (.append ⟨[1, 2], by decide⟩)]
  let t := l.run [.append ⟨List.replicate 9 0, by decide⟩, .append ⟨List.replicate 10 0, by decide⟩]
  let rest : List Session := [.op (.append ⟨[3], by decide⟩), .reopen 24, .op (.read 0)]
  NoneEmptyAtZero 0 (storedIn ((fresh 24).sessions (.op (.append ⟨[1, 2], by decide⟩) :: rest)))
    ∧ l.segments.length = 1 ∧ t.segments.length = 3
    ∧ t.sessions rest = l.sessions rest
  := by
  intro l t rest
  have hzero : NoneEmptyAtZero 0
      (storedIn ((fresh 24).sessions (.op (.append ⟨[1, 2], by decide⟩) :: rest))) := by
    decide +kernel
  have hsize : ∀ s ∈ [Session.op (.append ⟨[1, 2], by decide⟩)] ++ rest, s.KeepsSize 24 := by
    decide
  have hlarge : ∀ p ∈ [(⟨List.replicate 9 0, by decide⟩ : Payload),
      ⟨List.replicate 10 0, by decide⟩], 24 < kRecordHeaderSize + p.len := by
    decide
  have hinvisible := failed_append_invisible hsize hzero hlarge
  exact ⟨hzero, by decide +kernel, by decide +kernel, hinvisible.2.1⟩

end Storage
