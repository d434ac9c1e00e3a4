import Cascade.Storage.Refinement

/-!
# Histories of a log

A history is a list of operations with what each of them returned or threw. It says which
payloads were appended and which offsets they were given, and the log after it gives back just
these payloads at these offsets.
-/

namespace Storage

/-- The payloads that one successful operation appended. -/
def appendedBy : Op × Except Error Reply → List (List UInt8)
  | (.append p, .ok _) => [p.bytes]
  | (.appendBatch payloads _, .ok _) => payloads
  | _ => []

/-- The payloads that a history appended, in order. -/
def appended (h : List (Op × Except Error Reply)) : List (List UInt8) := h.flatMap appendedBy

/-- The offsets that one operation gave to the payloads it appended. -/
def givenBy : Op × Except Error Reply → List ℕ
  | (.append _, .ok (.offset o)) => [o]
  | (.appendBatch payloads _, .ok (.offset first)) => List.range' first payloads.length
  | _ => []

/-- The offsets that a history gave to the payloads it appended, in order. -/
def given (h : List (Op × Except Error Reply)) : List ℕ := h.flatMap givenBy

theorem map_payloadOf_bytes {m : ℕ} {payloads : List (List UInt8)}
    (h : ¬ Log.CannotFit m payloads) :
  (payloads.map Log.payloadOf).map Payload.bytes = payloads
  := by
  rw [List.map_map, List.map_congr_left, List.map_id]
  intro p hp
  exact Log.payloadOf_bytes_of_fit h hp

/-- One operation of the abstract log adds the payloads it is seen to append, and gives them the
next offsets. -/
theorem Op.spec_appended (m : ℕ) (ps : List Payload) (op : Op) :
  (op.spec m ps).1.map Payload.bytes = ps.map Payload.bytes ++ appendedBy (op, (op.spec m ps).2)
    ∧ givenBy (op, (op.spec m ps).2)
      = List.range' ps.length (appendedBy (op, (op.spec m ps).2)).length
  := by
  cases op with
  | append p =>
      simp only [spec, appendSpec]
      split
      · simp [appendedBy, givenBy, Except.map]
      · simp [appendedBy, givenBy, Except.map]
  | appendBatch payloads flushAfter =>
      simp only [spec, appendBatchSpec]
      split
      · simp [appendedBy, givenBy, Except.map]
      · rename_i hfit
        simp only [appendedBy, givenBy, Except.map, List.map_append, map_payloadOf_bytes hfit,
          and_self]
  | flush => simp [spec, appendedBy, givenBy]
  | read o => simp [spec, appendedBy, givenBy]

/-- A history of the abstract log adds the payloads it is seen to append, and gives them the
next offsets. -/
theorem Op.specRun_appended (m : ℕ) (ps : List Payload) (ops : List Op) :
  (Op.specRun m ps ops).map Payload.bytes
      = ps.map Payload.bytes ++ appended (Op.specHistory m ps ops)
    ∧ given (Op.specHistory m ps ops)
      = List.range' ps.length (appended (Op.specHistory m ps ops)).length
  := by
  induction ops generalizing ps with
  | nil => simp [specRun, specHistory, appended, given]
  | cons op ops ih =>
      obtain ⟨hrun, hgiven⟩ := Op.spec_appended m ps op
      obtain ⟨ihrun, ihgiven⟩ := ih (op.spec m ps).1
      have hlen := congrArg List.length hrun
      rw [List.length_append, List.length_map, List.length_map] at hlen
      simp only [specRun, specHistory, appended, given, List.flatMap_cons] at ihrun ihgiven ⊢
      constructor
      · rw [ihrun, hrun, List.append_assoc]
      · rw [hgiven, ihgiven, hlen, List.length_append, List.range'_append_1]

/-- What a history on a fresh directory appended is what the abstract log holds, and it was given
the offsets from 0 on. -/
theorem Log.fresh_appended (m : ℕ) (ops : List Op) :
  (Op.specRun m [] ops).map Payload.bytes = appended ((Log.fresh m).history ops)
    ∧ given ((Log.fresh m).history ops) = List.range (Op.specRun m [] ops).length
  := by
  have hhist : (Log.fresh m).history ops = Op.specHistory m [] ops :=
    (Log.run_refines (Log.fresh_settled m) ops).1
  obtain ⟨hmap, hgiven⟩ := Op.specRun_appended m [] ops
  rw [List.map_nil, List.nil_append] at hmap
  rw [List.length_nil, ← List.range_eq_range', ← hmap, List.length_map] at hgiven
  rw [hhist]
  exact ⟨hmap, hgiven⟩

/-- The log after a history on a fresh directory holds what was appended, and so does, up to some
payload, a log that was stopped on the way. -/
theorem Log.fresh_run (m : ℕ) (ops : List Op) :
  ∃ ps : List Payload, ps.map Payload.bytes = appended ((Log.fresh m).history ops)
    ∧ given ((Log.fresh m).history ops) = List.range ps.length
    ∧ ((Log.fresh m).run ops).Settled ps
    ∧ ((Log.fresh m).run ops).maxSegmentBytes = m
    ∧ ∀ c ∈ (Log.fresh m).interruptions ops, Log.StoppedBetween m [] ps c
  := by
  obtain ⟨-, hrun, hmax, hstop⟩ := Log.run_refines (Log.fresh_settled m) ops
  obtain ⟨hmap, hgiven⟩ := Log.fresh_appended m ops
  exact ⟨_, hmap, hgiven, hrun, hmax, hstop⟩

/-- In every history on a fresh directory the appended payloads were given the offsets
`0, 1, 2, …`, the next offset is their number, and reading an offset gives the payload that was
appended there, if any. -/
theorem Log.offsets_and_reads (m : ℕ) (ops : List Op) :
  let h := (Log.fresh m).history ops
  let l := (Log.fresh m).run ops
  given h = List.range (appended h).length
    ∧ l.nextOffset = (appended h).length
    ∧ ∀ o : UInt64, l.read o.toNat = (appended h)[o.toNat]?.map (fun p => ⟨o.toNat, p⟩)
  := by
  obtain ⟨ps, hmap, hgiven, hrun, -⟩ := Log.fresh_run m ops
  intro h l
  rw [← hmap, List.length_map]
  refine ⟨hgiven, hrun.stored, ?_⟩
  intro o
  rw [hrun.read_eq o.toNat_lt, List.getElem?_map, Option.map_map]
  rfl

end Storage
