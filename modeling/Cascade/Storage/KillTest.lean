import Cascade.Storage.Recovery

/-!
# The kill test of the log

The models of `tools/wal_batch_writer.cpp` and `tools/wal_verifier.cpp`. The writer appends batches
of numbered records until it is killed; the verifier then constructs a log on the directory and
looks at every record.

Between the steps on files, the writer can be killed anywhere: the verifier finds no fault, and no
record is missing that was acknowledged (`batchWriter_verified`).

The system calls succeed, and records are counted in `ℕ`.
-/

open Bytes Crash Crash.Program

namespace Storage.KillTest

/-- The size of segments in both programs, `1 << 20`. -/
def segmentBytes : ℕ := 2 ^ 20

def text (chars : List Char) : List UInt8 := chars.map fun c => UInt8.ofNat c.toNat

/-- The payload of a record. -/
def record (i : ℕ) : List UInt8 :=
  text ("kill-test-record-".toList ++ Nat.toDigits 10 i
    ++ "-padding-to-make-it-realistic-sized".toList)

/-- The payload as it is passed to a log, whose lengths are of type `uint32_t`. -/
def payload (i : ℕ) : Payload := Log.payloadOf (record i)

/-! ### The verifier -/

/-- How the payload of a record has to start. -/
def expectedPrefix (i : ℕ) : List UInt8 :=
  text ("kill-test-record-".toList ++ Nat.toDigits 10 i ++ "-".toList)

/-- What the verifier prints: the offsets that cannot be read, those that hold another record, and
the number of acknowledged records that are missing. -/
structure Report where
  recovered : ℕ
  missing : List ℕ
  mismatched : List ℕ
  lost : Option ℕ
deriving DecidableEq

def Report.exitCode (r : Report) : ℕ :=
  if r.missing = [] ∧ r.mismatched = [] ∧ r.lost = none then 0 else 1

/-- The number in the file with the acknowledgements, or 0 if it cannot be opened or read. -/
def readAcked : Option (List UInt8) → ℕ
  | none => 0
  | some bytes => if bytes.length < 8 then 0 else ofLittleEndian (bytes.take 8)

/-- The verifier, on a directory. The file with the acknowledgements need not be given, and need not
exist. -/
def verifier (d : Directory) (ackFile : Option (Option (List UInt8))) : Report :=
  let log := Log.recover segmentBytes d
  { recovered := log.nextOffset
    missing := (List.range log.nextOffset).filter fun i => (log.read i).isNone
    mismatched := (List.range log.nextOffset).filter fun i =>
      (log.read i).any fun result => !(expectedPrefix i).isPrefixOf result.payload
    lost := ackFile.bind fun file =>
      if log.nextOffset < readAcked file then some (readAcked file - log.nextOffset) else none }

/-! ### The writer -/

/-- The log of `wal_batch_writer`, and its file with the acknowledgements. -/
structure BatchWriter where
  log : Log
  ackFile : List UInt8

def onLog {α : Type} (x : Program Log Error α) : Program BatchWriter Error α :=
  zoom BatchWriter.log (fun s l => { s with log := l }) x

/-- `pwrite` at the start of a file. -/
def pwrite (bytes file : List UInt8) : List UInt8 := bytes ++ file.drop bytes.length

/-- The loop of `wal_batch_writer`, up to a number of rounds: the exit code, if it has returned. -/
def batchWriter (batch : ℕ) : (rounds next : ℕ) → Program BatchWriter Error (Option ℕ)
  | 0, _ => pure none
  | rounds + 1, next => do
      let first ← onLog (Log.appendBatch ((List.range' next batch).map record) true)
      if first ≠ next then
        return some 2
      else
        let acked := next + batch
        step fun s => { s with ackFile := pwrite (littleEndian 8 acked) s.ackFile }
        batchWriter batch rounds acked

/-! ### Records -/

theorem length_record_le {i : ℕ} (hi : i < 2 ^ 64) :
  (record i).length ≤ 72
  := by
  have hdigits : (Nat.toDigits 10 i).length ≤ 20 := by
    rw [Nat.length_toDigits_le_iff (by decide) (by decide)]
    omega
  have hstart : "kill-test-record-".toList.length = 17 := by decide
  have hend : "-padding-to-make-it-realistic-sized".toList.length = 35 := by decide
  rw [record, text, List.length_map, List.length_append, List.length_append, hstart, hend]
  omega

theorem payload_bytes {i : ℕ} (hi : i < 2 ^ 64) :
  (payload i).bytes = record i
  := by
  apply Log.payloadOf_bytes
  have := length_record_le hi
  omega

theorem expectedPrefix_isPrefix (i : ℕ) :
  expectedPrefix i <+: record i
  := by
  rw [expectedPrefix, record]
  apply List.IsPrefix.map
  rw [List.prefix_append_right_inj]
  exact ⟨"padding-to-make-it-realistic-sized".toList, by decide⟩

/-- The first records are visible, as none is empty. -/
theorem allVisible_records {n : ℕ} (hn : n ≤ 2 ^ 64) :
  AllVisible 0 ((List.range n).map payload)
  := by
  rintro i p hp ⟨-, hempty⟩
  obtain ⟨j, hj, rfl⟩ := List.mem_map.mp (List.mem_of_getElem? hp)
  have hj := List.mem_range.mp hj
  rw [payload_bytes (by omega), record, text, List.map_eq_nil_iff, List.append_eq_nil_iff] at hempty
  cases hempty.2

/-- A part of the records is given by its number. -/
theorem eq_records_of_isPrefix {n : ℕ} {qs : List Payload}
    (hqs : qs <+: (List.range n).map payload) :
  qs.length ≤ n ∧ qs = (List.range qs.length).map payload
  := by
  have hle := hqs.length_le
  rw [List.length_map, List.length_range] at hle
  refine ⟨hle, ?_⟩
  conv_lhs => rw [List.prefix_iff_eq_take.mp hqs]
  rw [← List.map_take, List.take_range, min_eq_left hle]

theorem records_concat (next batch : ℕ) :
  (List.range next).map payload ++ (List.range' next batch).map payload
    = (List.range (next + batch)).map payload
  := by
  rw [← List.map_append, List.range_eq_range', List.range_eq_range', ← List.range'_append_1,
    Nat.zero_add]

/-! ### The verdict -/

/-- The first `k` records can be read. -/
def Recovers (d : Directory) (k : ℕ) : Prop :=
  ∀ i < k, (Log.recover segmentBytes d).read i = some ⟨i, record i⟩

/-- No record is missing or is another one if all can be read. -/
theorem Recovers.verifier {d : Directory} {k : ℕ} (hread : Recovers d k)
    (hnext : (Log.recover segmentBytes d).nextOffset = k)
    (ackFile : Option (Option (List UInt8))) :
  (verifier d ackFile).missing = [] ∧ (verifier d ackFile).mismatched = []
  := by
  simp only [KillTest.verifier, List.filter_eq_nil_iff, List.mem_range, hnext]
  constructor
  · intro i hi
    simp [hread i hi]
  · intro i hi
    have hstart := List.isPrefixOf_iff_prefix.mpr (expectedPrefix_isPrefix i)
    simp [hread i hi, hstart]

/-- The verifier finds no fault in a log that holds the first records, unless more were
acknowledged. -/
theorem verifier_of_settled {d : Directory} {k : ℕ} (hk : k ≤ 2 ^ 64)
    (hsettled : (Log.recover segmentBytes d).Settled ((List.range k).map payload))
    {ackFile : Option (Option (List UInt8))} (hacked : ∀ file ∈ ackFile, readAcked file ≤ k) :
  (verifier d ackFile).exitCode = 0 ∧ (verifier d ackFile).recovered = k ∧ Recovers d k
  := by
  have hnext : (Log.recover segmentBytes d).nextOffset = k := by
    rw [hsettled.stored, List.length_map, List.length_range]
  have hread : Recovers d k := by
    intro i hi
    rw [hsettled.read_eq (by omega), List.getElem?_map, List.getElem?_range hi, Option.map_some,
      Option.map_some, payload_bytes (by omega)]
  have hnone : (verifier d ackFile).lost = none := by
    change ackFile.bind _ = none
    rw [Option.bind_eq_none_iff]
    intro file hfile
    have hle := hacked file hfile
    rw [hnext, if_neg (by omega)]
  obtain ⟨hmissing, hmismatched⟩ := hread.verifier hnext ackFile
  exact ⟨if_pos ⟨hmissing, hmismatched, hnone⟩, hnext, hread⟩

/-- The verifier finds no fault where the constructor of a log was stopped. -/
theorem verifier_of_construct {d : Directory} (hd : d ∈ (Log.construct segmentBytes []).crashes)
    {ackFile : Option (Option (List UInt8))} (hacked : ∀ file ∈ ackFile, readAcked file ≤ 0) :
  (verifier d ackFile).exitCode = 0
  := by
  have hsettled : (Log.recover segmentBytes d).Settled ((List.range 0).map payload) := by
    rw [Log.recover_construct_crashes segmentBytes hd]
    exact Log.fresh_settled segmentBytes
  exact (verifier_of_settled (Nat.zero_le _) hsettled hacked).1

/-- The verifier finds no fault where a log was stopped while records were appended. -/
theorem verifier_of_stopped {c : Log} {n k : ℕ} (hn : n ≤ 2 ^ 64)
    (hstopped : Log.StoppedBetween segmentBytes ((List.range k).map payload)
      ((List.range n).map payload) c)
    (ackFile : Option (Option (List UInt8))) (hacked : ∀ file ∈ ackFile, readAcked file ≤ k) :
  (verifier c.dir ackFile).exitCode = 0 ∧ k ≤ (verifier c.dir ackFile).recovered
    ∧ (verifier c.dir ackFile).recovered ≤ n
    ∧ Recovers c.dir (verifier c.dir ackFile).recovered
  := by
  obtain ⟨rs, hrs, hk, hrest⟩ := hstopped
  obtain ⟨hle, heq⟩ := eq_records_of_isPrefix hrest
  have hkle := hk.length_le
  rw [List.length_map, List.length_range] at hkle
  have hvisible := AllVisible.of_prefix (allVisible_records hn) hrest
  have hsettled := (hrs.recover_eq hvisible).1
  rw [heq] at hsettled
  obtain ⟨hcode, hrecovered, hrecovers⟩ := verifier_of_settled (hle.trans hn) hsettled
    (fun file hfile => (hacked file hfile).trans hkle)
  rw [hrecovered]
  exact ⟨hcode, hkle, hle, hrecovers⟩

/-! ### Killed between two steps -/

theorem not_cannotFit {next batch : ℕ} (h : next + batch ≤ 2 ^ 64) :
  ¬ Log.CannotFit segmentBytes ((List.range' next batch).map record)
  := by
  rintro ⟨p, hp, hlarge⟩
  obtain ⟨i, hi, rfl⟩ := List.mem_map.mp hp
  rw [List.mem_range'_1] at hi
  have hle := length_record_le (show i < 2 ^ 64 by omega)
  rw [segmentBytes, kRecordHeaderSize] at hlarge
  omega

theorem readAcked_pwrite {acked : ℕ} (hacked : acked < 2 ^ 64) (file : List UInt8) :
  readAcked (some (pwrite (littleEndian 8 acked) file)) = acked
  := by
  have hlength := length_littleEndian 8 acked
  rw [readAcked, pwrite, if_neg (by rw [List.length_append]; omega),
    List.take_append_of_le_length hlength.ge, List.take_of_length_le hlength.le,
    ofLittleEndian_littleEndian]
  exact Nat.mod_eq_of_lt hacked

/-- What is left when the writer is killed: the verifier finds no fault, the records that it
recovers are those that were written, all acknowledged ones are there, and at most one batch
more. -/
def Verified (batch : ℕ) (s : BatchWriter) : Prop :=
  let r := verifier s.log.dir (some (some s.ackFile))
  r.exitCode = 0 ∧ readAcked (some s.ackFile) ≤ r.recovered
    ∧ r.recovered ≤ readAcked (some s.ackFile) + batch ∧ Recovers s.log.dir r.recovered

/-- A round appends the records of a batch, and then acknowledges them. -/
theorem wp_batchWriter {batch rounds next : ℕ} {s : BatchWriter}
    (hsettled : s.log.Settled ((List.range next).map payload))
    (hmax : s.log.maxSegmentBytes = segmentBytes) (hacked : readAcked (some s.ackFile) = next)
    (hlt : next + rounds * batch < 2 ^ 64) :
  wp (Verified batch) (batchWriter batch rounds next) (fun r _ => r = .ok none) s
  := by
  induction rounds generalizing next s with
  | zero =>
      rw [batchWriter, wp_pure]
  | succ rounds ih =>
      have hnext : next + batch + rounds * batch < 2 ^ 64 := by
        rw [Nat.succ_mul] at hlt
        omega
      have hrefines := Log.appendBatch_refines ((List.range' next batch).map record) true s.log _
        hsettled
      rw [hmax, appendBatchSpec, if_neg (not_cannotFit (by omega)), List.map_map] at hrefines
      change wp (Log.StoppedBetween segmentBytes _ (_ ++ (List.range' next batch).map payload)) _
        (fun r t => r = _ ∧ t.Settled (_ ++ (List.range' next batch).map payload) ∧ _) _
        at hrefines
      rw [records_concat, List.length_map, List.length_range] at hrefines
      rw [batchWriter, wp_bind, onLog, wp_zoom]
      apply wp_mono hrefines
      · intro c hc
        rw [Verified, hacked]
        exact verifier_of_stopped (by omega) hc (some (some s.ackFile)) (by simp [hacked])
      · rintro r t ⟨rfl, ht, htmax⟩
        rw [orElse_ok, if_neg (by simp), wp_bind, wp_step, orElse_ok]
        refine ⟨?_, ih ht htmax (readAcked_pwrite (by omega) _) hnext⟩
        -- The records are there, and not acknowledged yet.
        have hstopped : Log.StoppedBetween segmentBytes ((List.range next).map payload)
            ((List.range (next + batch)).map payload) t :=
          ⟨_, htmax ▸ ht.toHolds.interrupted ht.ready, records_concat next batch ▸
            List.prefix_append _ _, List.prefix_refl _⟩
        rw [Verified, hacked]
        exact verifier_of_stopped (by omega) hstopped (some (some s.ackFile)) (by simp [hacked])

/-- Wherever `wal_batch_writer`, started on an empty directory, is killed between two steps on
files, after any number of rounds, the verifier finds no fault: the records that it recovers are
those that were written, all that were acknowledged are among them, and at most one batch more. The
writer never finds an offset other than the expected one. -/
theorem batchWriter_verified {batch rounds : ℕ} (hlt : rounds * batch < 2 ^ 64) :
  (∀ d ∈ (Log.construct segmentBytes []).crashes, (verifier d (some (some []))).exitCode = 0)
    ∧ let o := batchWriter batch rounds 0 ⟨Log.fresh segmentBytes, []⟩
      o.value = .ok none ∧ ∀ s ∈ o.crashes, Verified batch s
  := by
  constructor
  · exact fun d hd => verifier_of_construct hd (by simp [readAcked])
  · have hsettled : (Log.fresh segmentBytes).Settled ((List.range 0).map payload) :=
      Log.fresh_settled segmentBytes
    have hwp := wp_batchWriter (s := ⟨Log.fresh segmentBytes, []⟩) hsettled rfl rfl
      ((Nat.zero_add _).trans_lt hlt)
    exact ⟨hwp.2, hwp.1⟩

theorem batchWriter_verified_twice :
  (batchWriter 3 2 0 ⟨Log.fresh segmentBytes, []⟩).value = .ok none
    ∧ ∀ s ∈ (batchWriter 3 2 0 ⟨Log.fresh segmentBytes, []⟩).crashes, Verified 3 s
  := (batchWriter_verified (by decide)).2

end Storage.KillTest
