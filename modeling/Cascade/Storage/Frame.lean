import Cascade.Storage.Segment

/-!
# Records in a file

`frames base ps` are the bytes of the records with payloads `ps` and offsets from `base` on.
What `replay` makes of a file is determined by the longest sequence of records the file starts
with: `replay_frames` passes over records, `replay_of_stops` ends where no record follows, and
`exists_frames` splits every file in this way.

A record is *visible* unless its header is all zeros, which is the case for an empty payload at
offset zero only. Such a record cannot be told from the untouched part of a file.
-/

open Bytes Crash

namespace Storage

/-- The bytes of consecutive records, the first with offset `base`. -/
def frames : ℕ → List Payload → List UInt8
  | _, [] => []
  | base, p :: ps => frame base p ++ frames (base + 1) ps

/-- The header of the record is not all zeros. -/
def Visible (offset : ℕ) (p : Payload) : Prop :=
  ¬ (offset % 2 ^ 64 = 0 ∧ p.bytes = [])

instance (offset : ℕ) (p : Payload) : Decidable (Visible offset p) :=
  inferInstanceAs (Decidable (¬ _))

/-- All of the consecutive records are visible. -/
def AllVisible (base : ℕ) (ps : List Payload) : Prop :=
  ∀ i p, ps[i]? = some p → Visible (base + i) p

/-- No visible record with the given offset stands at the start of the bytes. -/
def Stops (offset : ℕ) (data : List UInt8) : Prop :=
  ∀ q, Visible offset q → ¬ frame offset q <+: data

/-- The fields of a segment after more records. -/
def Tally.after (t : Tally) (ps : List Payload) : Tally :=
  ps.foldl (fun t p => t.advance p.len) t

/-! ### Lengths and concatenation -/

@[simp]
theorem length_frame (offset : ℕ) (p : Payload) :
  (frame offset p).length = kRecordHeaderSize + p.len
  := by
  simp only [frame, List.length_append, length_littleEndian, kRecordHeaderSize, Payload.len]
  omega

@[simp]
theorem frames_nil (base : ℕ) :
  frames base [] = []
  := rfl

theorem frames_append (base : ℕ) (ps qs : List Payload) :
  frames base (ps ++ qs) = frames base ps ++ frames (base + ps.length) qs
  := by
  induction ps generalizing base with
  | nil => simp
  | cons p ps ih =>
      have hbase : base + (ps.length + 1) = base + 1 + ps.length := by omega
      rw [List.cons_append, frames, frames, ih, List.append_assoc, List.length_cons, hbase]

theorem frames_concat (base : ℕ) (ps : List Payload) (p : Payload) :
  frames base (ps ++ [p]) = frames base ps ++ frame (base + ps.length) p
  := by
  rw [frames_append, frames, frames_nil, List.append_nil]

variable {base : ℕ} {ps qs : List Payload}

theorem allVisible_append :
  AllVisible base (ps ++ qs) ↔ AllVisible base ps ∧ AllVisible (base + ps.length) qs
  := by
  constructor
  · intro h
    constructor
    · intro i p hp
      apply h i p
      have hi : i < ps.length := (List.getElem?_eq_some_iff.mp hp).1
      rw [List.getElem?_append_left hi, hp]
    · intro i p hp
      have hi := h (ps.length + i) p
      rw [List.getElem?_append_right (by omega), Nat.add_sub_cancel_left, ← Nat.add_assoc] at hi
      apply hi hp
  · rintro ⟨h₁, h₂⟩ i p hp
    by_cases hi : i < ps.length
    · rw [List.getElem?_append_left hi] at hp
      apply h₁ i p hp
    · rw [List.getElem?_append_right (by omega)] at hp
      have := h₂ (i - ps.length) p hp
      rwa [show base + ps.length + (i - ps.length) = base + i by omega] at this

theorem allVisible_cons {p : Payload} :
  AllVisible base (p :: ps) ↔ Visible base p ∧ AllVisible (base + 1) ps
  := by
  have h : AllVisible base ([p] ++ ps) ↔ AllVisible base [p] ∧ AllVisible (base + 1) ps :=
    allVisible_append
  rw [List.singleton_append] at h
  rw [h]
  apply and_congr_left'
  constructor
  · intro hp
    apply hp 0 p rfl
  · intro hp i q hq
    obtain ⟨hi, rfl⟩ := List.getElem?_eq_some_iff.mp hq
    simp only [List.length_singleton] at hi
    obtain rfl : i = 0 := by omega
    exact hp

theorem allVisible_nil (base : ℕ) :
  AllVisible base []
  := by
  intro i p hp
  simp at hp

theorem AllVisible.of_prefix (h : AllVisible base qs) (hps : ps <+: qs) :
  AllVisible base ps
  := by
  obtain ⟨rest, rfl⟩ := hps
  apply (allVisible_append.mp h).1

theorem AllVisible.take (h : AllVisible base ps) (n : ℕ) :
  AllVisible base (ps.take n)
  := h.of_prefix (List.take_prefix n ps)

/-- None of the consecutive payloads is empty at an offset that is zero as a `uint64_t`. -/
def NoneEmptyAtZero (base : ℕ) (payloads : List (List UInt8)) : Prop :=
  ∀ i < payloads.length, (base + i) % 2 ^ 64 = 0 → payloads[i]? ≠ some []

instance (base : ℕ) (payloads : List (List UInt8)) : Decidable (NoneEmptyAtZero base payloads) :=
  inferInstanceAs (Decidable (∀ i < payloads.length, _))

theorem allVisible_iff :
  AllVisible base ps ↔ NoneEmptyAtZero base (ps.map Payload.bytes)
  := by
  simp only [AllVisible, NoneEmptyAtZero, Visible, List.getElem?_map, List.length_map,
    not_and, ne_eq, Option.map_eq_some_iff, not_exists]
  constructor
  · intro h i _ hi p hp
    apply h i p hp hi
  · intro h i p hp hi
    apply h i (List.getElem?_eq_some_iff.mp hp).1 hi p hp

theorem Tally.after_append (t : Tally) (ps qs : List Payload) :
  t.after (ps ++ qs) = (t.after ps).after qs
  := List.foldl_append

theorem Tally.after_concat (t : Tally) (ps : List Payload) (p : Payload) :
  t.after (ps ++ [p]) = (t.after ps).advance p.len
  := by
  rw [Tally.after_append]
  rfl

@[simp]
theorem Tally.advance_writePos (t : Tally) (len : ℕ) :
  (t.advance len).writePos = t.writePos + (kRecordHeaderSize + len)
  := rfl

@[simp]
theorem Tally.advance_nextOffset (t : Tally) (len : ℕ) :
  (t.advance len).nextOffset = t.nextOffset + 1
  := rfl

theorem Tally.after_nextOffset (t : Tally) (ps : List Payload) :
  (t.after ps).nextOffset = t.nextOffset + ps.length
  := by
  induction ps generalizing t with
  | nil => rfl
  | cons p ps ih =>
      rw [Tally.after, List.foldl_cons, ← Tally.after, ih, advance_nextOffset, List.length_cons]
      omega

theorem Tally.after_writePos (t : Tally) (base : ℕ) (ps : List Payload) :
  (t.after ps).writePos = t.writePos + (frames base ps).length
  := by
  induction ps generalizing t base with
  | nil => rfl
  | cons p ps ih =>
      rw [Tally.after, List.foldl_cons, ← Tally.after, ih _ (base + 1), advance_writePos, frames,
        List.length_append, length_frame]
      omega

/-! ### The header of a record -/

/-- The header that three parts of its size spell. -/
theorem Header.load_parts {pre a b c rest : List UInt8} (ha : a.length = 8) (hb : b.length = 4)
    (hc : c.length = 4) :
  Header.load (pre ++ (a ++ (b ++ (c ++ rest)))) pre.length
    = ⟨ofLittleEndian a, ofLittleEndian b, ofLittleEndian c⟩
  := by
  have hoff : slice (pre ++ (a ++ (b ++ (c ++ rest)))) pre.length 8 = a := slice_mid rfl ha
  have hlen : slice (pre ++ (a ++ (b ++ (c ++ rest)))) (pre.length + 8) 4 = b := by
    rw [← List.append_assoc pre]
    apply slice_mid _ hb
    rw [List.length_append, ha]
  have hcrc : slice (pre ++ (a ++ (b ++ (c ++ rest)))) (pre.length + 12) 4 = c := by
    rw [← List.append_assoc pre, ← List.append_assoc (pre ++ a)]
    apply slice_mid _ hc
    rw [List.length_append, List.length_append, ha, hb]
  rw [Header.load, hoff, hlen, hcrc]

/-- The header read at the start of a record. -/
theorem Header.load_frame {data pre rest : List UInt8} {offset : ℕ} {p : Payload}
    (h : data = pre ++ (frame offset p ++ rest)) :
  Header.load data pre.length = ⟨offset % 2 ^ 64, p.len, (crc32 p.bytes).toNat⟩
  := by
  have hp : p.len < 256 ^ 4 := p.length_lt
  have hc : (crc32 p.bytes).toNat < 256 ^ 4 := (crc32 p.bytes).toNat_lt
  rw [h, frame, List.append_assoc, List.append_assoc, List.append_assoc,
    Header.load_parts (length_littleEndian 8 _) (length_littleEndian 4 _)
      (length_littleEndian 4 _), ofLittleEndian_littleEndian, ofLittleEndian_littleEndian,
    ofLittleEndian_littleEndian, Nat.mod_eq_of_lt hp, Nat.mod_eq_of_lt hc]
  rfl

/-- The payload read behind the header of a record. -/
theorem slice_payload {data pre rest : List UInt8} {offset : ℕ} {p : Payload}
    (h : data = pre ++ (frame offset p ++ rest)) :
  slice data (pre.length + kRecordHeaderSize) p.len = p.bytes
  := by
  have hdata : data = (pre ++ (littleEndian 8 offset ++ (littleEndian 4 p.len
      ++ littleEndian 4 (crc32 p.bytes).toNat))) ++ (p.bytes ++ rest) := by
    simp [h, frame]
  rw [hdata]
  apply slice_mid _ rfl
  simp [kRecordHeaderSize]

/-! ### Checking a record -/

/-- `check` takes over a visible record. -/
theorem check_frame {data pre rest : List UInt8} {offset : ℕ} {p : Payload}
    (h : data = pre ++ (frame offset p ++ rest)) (hp : Visible offset p) :
  check data pre.length offset = some p.len
  := by
  have hlength : data.length = pre.length + (kRecordHeaderSize + p.len) + rest.length := by
    rw [h, List.length_append, List.length_append, length_frame]
    omega
  have hzero : ¬ (offset % 2 ^ 64 = 0 ∧ p.len = 0 ∧ (crc32 p.bytes).toNat = 0) := by
    rintro ⟨hoff, hlen, -⟩
    apply hp
    exact ⟨hoff, List.length_eq_zero_iff.mp hlen⟩
  have hroom : ¬ data.length < pre.length + kRecordHeaderSize + p.len := by omega
  have hcrc : (crc32 (slice data (pre.length + kRecordHeaderSize) p.len)).toNat
      = (crc32 p.bytes).toNat := by
    rw [slice_payload h]
  simp only [check, Header.load_frame h, hzero, hroom, hcrc, ne_eq, not_true_eq_false, ite_false]

variable {data rest : List UInt8}

/-- What `check` takes over is a visible record. -/
theorem exists_frame_of_check {pos offset len : ℕ} (hroom : pos + kRecordHeaderSize ≤ data.length)
    (h : check data pos offset = some len) :
  ∃ q : Payload, q.len = len ∧ Visible offset q ∧ frame offset q <+: data.drop pos
  := by
  simp only [check] at h
  split at h
  · simp at h
  rename_i hzero
  split at h
  · simp at h
  rename_i hoff
  split at h
  · simp at h
  rename_i hlen
  split at h
  · simp at h
  rename_i hcrc
  rw [Option.some_inj] at h
  rw [not_not] at hoff hcrc
  subst h
  -- The payload is the slice that was checked, the header is what the slices before it spell.
  simp only [Header.load, kRecordHeaderSize] at *
  set n := ofLittleEndian (slice data (pos + 8) 4) with hn
  have h₈ : (slice data pos 8).length = 8 := length_slice (by omega)
  have h₄ : (slice data (pos + 8) 4).length = 4 := length_slice (by omega)
  have h₄' : (slice data (pos + 12) 4).length = 4 := length_slice (by omega)
  have hn' : (slice data (pos + 16) n).length = n := length_slice (by omega)
  have hlt : n < 2 ^ 32 := by
    have := ofLittleEndian_lt (slice data (pos + 8) 4)
    rw [h₄] at this
    exact this
  use ⟨slice data (pos + 16) n, by rwa [hn']⟩
  refine ⟨hn', ?_, ?_⟩
  · rintro ⟨h₁, h₂⟩
    apply hzero
    have hempty : slice data (pos + 16) n = [] := h₂
    have hn₀ : n = 0 := by
      rw [← hn', hempty]
      rfl
    refine ⟨by omega, hn₀, ?_⟩
    rw [← hcrc, hempty]
    rfl
  · have hle₈ : littleEndian 8 offset = slice data pos 8 := by
      have hmod : littleEndian 8 offset = littleEndian 8 (offset % 2 ^ 64) :=
        (littleEndian_mod 8 offset).symm
      rw [hmod, ← hoff]
      apply littleEndian_ofLittleEndian h₈
    have hle₄ : littleEndian 4 n = slice data (pos + 8) 4 := littleEndian_ofLittleEndian h₄
    have hle₄' : littleEndian 4 (crc32 (slice data (pos + 16) n)).toNat
        = slice data (pos + 12) 4 := by
      rw [hcrc]
      apply littleEndian_ofLittleEndian h₄'
    have hframe : frame offset ⟨slice data (pos + 16) n, by rwa [hn']⟩
        = slice data pos (16 + n) := by
      simp only [frame, Payload.len, hn', hle₈, hle₄, hle₄']
      rw [slice_append_slice data (pos + 12) 4 n, slice_append_slice data (pos + 8) 4 (4 + n),
        slice_append_slice data pos 8 (4 + (4 + n))]
      congr 1
      omega
    rw [hframe]
    apply List.take_prefix

/-- A record is determined by the bytes it stands in front of. -/
theorem frame_unique {offset : ℕ} {p q : Payload} (hp : frame offset p <+: data)
    (hq : frame offset q <+: data) :
  p = q
  := by
  obtain ⟨r, hr⟩ := hp
  obtain ⟨r', hr'⟩ := hq
  have hp : data = [] ++ (frame offset p ++ r) := hr.symm
  have hq : data = [] ++ (frame offset q ++ r') := hr'.symm
  have hlen : p.len = q.len := by
    have h := Header.load_frame hp
    rw [Header.load_frame hq] at h
    rw [Header.mk.injEq] at h
    exact h.2.1.symm
  have hbytes : p.bytes = q.bytes := by
    rw [← slice_payload hp, ← slice_payload hq, hlen]
  cases p
  cases q
  simp only at hbytes
  subst hbytes
  rfl

/-! ### Where no record follows -/

theorem stops_of_length_lt (h : data.length < kRecordHeaderSize) (offset : ℕ) :
  Stops offset data
  := by
  intro q _ hq
  have := hq.length_le
  rw [length_frame] at this
  omega

/-- A file holds no record at its start if it is too short for a header or fails a check. -/
theorem stops_iff_check {offset : ℕ} :
  Stops offset data ↔ data.length < kRecordHeaderSize ∨ check data 0 offset = none
  := by
  constructor
  · intro h
    by_contra hno
    rw [not_or, not_lt, ← ne_eq, Option.ne_none_iff_exists'] at hno
    obtain ⟨hroom, len, hcheck⟩ := hno
    obtain ⟨q, -, hq, hframe⟩ := exists_frame_of_check (by simpa using hroom) hcheck
    exact h q hq hframe
  · rintro (hlt | hnone)
    · apply stops_of_length_lt hlt
    · rintro q hq ⟨rest, hrest⟩
      have hdata : data = [] ++ (frame offset q ++ rest) := hrest.symm
      have hcheck := check_frame hdata hq
      rw [List.length_nil, hnone] at hcheck
      simp at hcheck

instance (offset : ℕ) (data : List UInt8) : Decidable (Stops offset data) :=
  decidable_of_iff _ stops_iff_check.symm

/-- The untouched part of a file holds no visible record. -/
theorem stops_zeros (offset k : ℕ) :
  Stops offset (List.replicate k 0)
  := by
  rintro q hq ⟨rest, hrest⟩
  have hdata : List.replicate k 0 = [] ++ (frame offset q ++ rest) := hrest.symm
  have hload := Header.load_frame hdata
  simp only [Header.load, slice, List.drop_replicate, List.take_replicate,
    ofLittleEndian_replicate_zero, Header.mk.injEq] at hload
  apply hq
  exact ⟨hload.1.symm, List.length_eq_zero_iff.mp hload.2.1.symm⟩

/-! ### Replaying -/

/-- `replay` passes over a visible record. -/
theorem replay_frame {t : Tally} {p : Payload} (hpos : t.writePos ≤ data.length)
    (hp : Visible t.nextOffset p) (h : frame t.nextOffset p <+: data.drop t.writePos) :
  replay data t = replay data (t.advance p.len)
  := by
  obtain ⟨rest, hrest⟩ := h
  have htake : (data.take t.writePos).length = t.writePos := List.length_take_of_le hpos
  have hdata : data = data.take t.writePos ++ (frame t.nextOffset p ++ rest) := by
    rw [hrest, List.take_append_drop]
  have hcheck := check_frame hdata hp
  rw [htake] at hcheck
  have hroom : t.writePos + kRecordHeaderSize ≤ data.length := by
    have := congrArg List.length hrest
    rw [List.length_append, length_frame, List.length_drop] at this
    omega
  rw [replay, dif_pos hroom, hcheck]

/-- `replay` ends where no visible record follows. -/
theorem replay_of_stops {t : Tally} (h : Stops t.nextOffset (data.drop t.writePos)) :
  replay data t = t
  := by
  rw [replay]
  split
  · rename_i hroom
    split
    · rename_i len hcheck
      obtain ⟨q, -, hq, hframe⟩ := exists_frame_of_check hroom hcheck
      exact absurd hframe (h q hq)
    · rfl
  · rfl

/-- `replay` passes over visible records. -/
theorem replay_frames {t : Tally} (hpos : t.writePos ≤ data.length)
    (hps : AllVisible t.nextOffset ps) (h : data.drop t.writePos = frames t.nextOffset ps ++ rest) :
  replay data t = replay data (t.after ps)
  := by
  induction ps generalizing t with
  | nil => rfl
  | cons p ps ih =>
      rw [allVisible_cons] at hps
      rw [frames, List.append_assoc] at h
      have hlen := congrArg List.length h
      rw [List.length_drop, List.length_append, length_frame] at hlen
      have hdrop : data.drop (t.advance p.len).writePos
          = frames (t.advance p.len).nextOffset ps ++ rest := by
        rw [Tally.advance_writePos, ← length_frame t.nextOffset p, ← List.drop_drop, h,
          List.drop_left]
        rfl
      have hpos' : (t.advance p.len).writePos ≤ data.length := by
        rw [Tally.advance_writePos]
        omega
      rw [replay_frame hpos hps.1 (h ▸ List.prefix_append _ _)]
      apply ih hpos' hps.2 hdrop

/-- What `replay` finds in a file that starts with visible records, where none follows. -/
theorem replay_eq (hdata : data = frames base ps ++ rest) (hps : AllVisible base ps)
    (hrest : Stops (base + ps.length) rest) :
  replay data (Tally.start base) = (Tally.start base).after ps
  := by
  have hpass := replay_frames (t := Tally.start base) (Nat.zero_le _) hps hdata
  rw [hpass]
  apply replay_of_stops
  have hpos : ((Tally.start base).after ps).writePos = (frames base ps).length := by
    rw [Tally.after_writePos _ base]
    apply Nat.zero_add
  rw [Tally.after_nextOffset, hpos, hdata, List.drop_left]
  exact hrest

/-- Every file starts with visible records where none follows. -/
theorem exists_frames (data : List UInt8) (base : ℕ) :
  ∃ ps rest, data = frames base ps ++ rest ∧ AllVisible base ps
    ∧ Stops (base + ps.length) rest
  := by
  -- By induction on the length of what is left of the file.
  induction hn : data.length using Nat.strong_induction_on generalizing data base with
  | _ n ih =>
      by_cases h : Stops base data
      · use [], data
        exact ⟨rfl, allVisible_nil base, h⟩
      · obtain ⟨p, hp, rest, rfl⟩ : ∃ p, Visible base p ∧ frame base p <+: data := by
          simpa [Stops] using h
        have hlt : rest.length < n := by
          rw [← hn, List.length_append, length_frame, kRecordHeaderSize]
          omega
        obtain ⟨ps, rest', rfl, hps, hstop⟩ := ih rest.length hlt rest (base + 1) rfl
        use p :: ps, rest'
        refine ⟨?_, allVisible_cons.mpr ⟨hp, hps⟩, ?_⟩
        · rw [frames, List.append_assoc]
        · rwa [List.length_cons, Nat.add_comm ps.length, ← Nat.add_assoc]

/-- What `replay` finds in any file. -/
theorem exists_replay (data : List UInt8) (base : ℕ) :
  ∃ ps rest, data = frames base ps ++ rest ∧ AllVisible base ps
    ∧ Stops (base + ps.length) rest
    ∧ replay data (Tally.start base) = (Tally.start base).after ps
  := by
  obtain ⟨ps, rest, hdata, hps, hrest⟩ := exists_frames data base
  exact ⟨ps, rest, hdata, hps, hrest, replay_eq hdata hps hrest⟩

/-- `replay` stays within the file. -/
theorem replay_writePos_le (data : List UInt8) (base : ℕ) :
  (replay data (Tally.start base)).writePos ≤ data.length
  := by
  obtain ⟨ps, rest, hdata, -, -, hreplay⟩ := exists_replay data base
  rw [hreplay, Tally.after_writePos _ base, hdata, List.length_append]
  simp only [Tally.start]
  omega

/-- As many records at the start of the same file are the same records. -/
theorem frames_inj (hps : frames base ps <+: data) (hqs : frames base qs <+: data)
    (hlen : ps.length = qs.length) :
  ps = qs
  := by
  induction ps generalizing base qs data with
  | nil => exact (List.eq_nil_of_length_eq_zero hlen.symm).symm
  | cons p ps ih =>
      cases qs with
      | nil => simp at hlen
      | cons q qs =>
          rw [frames] at hps hqs
          obtain rfl : p = q := by
            apply frame_unique ((List.prefix_append _ _).trans hps)
            apply (List.prefix_append _ _).trans hqs
          obtain ⟨rest, rfl⟩ := (List.prefix_append _ _).trans hps
          rw [List.prefix_append_right_inj] at hps hqs
          rw [ih hps hqs (by simpa using hlen)]

/-- Behind visible records at the start of a file, `replay` finds no more if and only if it stops
there. -/
theorem replay_nextOffset_iff (hdata : data = frames base ps ++ rest) (hps : AllVisible base ps) :
  (replay data (Tally.start base)).nextOffset = base + ps.length
    ↔ Stops (base + ps.length) rest
  := by
  constructor
  · intro hnext
    obtain ⟨qs, rest', hdata', hqs, hstop, hreplay⟩ := exists_replay data base
    rw [hreplay, Tally.after_nextOffset] at hnext
    have hlen : qs.length = ps.length := Nat.add_left_cancel hnext
    obtain rfl : qs = ps := by
      have hq : frames base qs <+: data := ⟨rest', hdata'.symm⟩
      have hp : frames base ps <+: data := ⟨rest, hdata.symm⟩
      apply frames_inj hq hp hlen
    rw [hdata, List.append_cancel_left_eq] at hdata'
    rwa [hdata']
  · intro hstop
    rw [replay_eq hdata hps hstop, Tally.after_nextOffset]
    rfl

/-- There is only one way to split a file into visible records and a rest without. -/
theorem frames_unique {r r' : List UInt8} (h : frames base ps ++ r = frames base qs ++ r')
    (hps : AllVisible base ps) (hqs : AllVisible base qs) (hr : Stops (base + ps.length) r)
    (hr' : Stops (base + qs.length) r') :
  ps = qs
  := by
  induction ps generalizing base qs with
  | nil =>
      cases qs with
      | nil => rfl
      | cons q qs =>
          exfalso
          apply hr q (allVisible_cons.mp hqs).1
          rw [frames_nil, List.nil_append] at h
          rw [h, frames, List.append_assoc]
          apply List.prefix_append
  | cons p ps ih =>
      cases qs with
      | nil =>
          exfalso
          apply hr' p (allVisible_cons.mp hps).1
          rw [frames_nil, List.nil_append] at h
          rw [← h, frames, List.append_assoc]
          apply List.prefix_append
      | cons q qs =>
          rw [frames, frames, List.append_assoc, List.append_assoc] at h
          obtain rfl : p = q := by
            apply frame_unique (List.prefix_append _ _)
            rw [h]
            apply List.prefix_append
          rw [List.append_cancel_left_eq] at h
          rw [List.length_cons, Nat.add_comm _ 1, ← Nat.add_assoc] at hr hr'
          rw [ih h (allVisible_cons.mp hps).2 (allVisible_cons.mp hqs).2 hr hr']

/-- Visible records at the start of a file are among those up to where no more follows. -/
theorem prefix_of_stops (hdata : data = frames base qs ++ rest) (hqs : AllVisible base qs)
    (hrest : Stops (base + qs.length) rest) (hps : AllVisible base ps)
    (h : frames base ps <+: data) :
  ps <+: qs
  := by
  obtain ⟨r, rfl⟩ := h
  obtain ⟨ts, rest', rfl, hts, hstop⟩ := exists_frames r (base + ps.length)
  use ts
  have hsplit : frames base (ps ++ ts) ++ rest' = frames base qs ++ rest := by
    rw [frames_append, List.append_assoc, hdata]
  apply frames_unique hsplit _ hqs _ hrest
  · rw [allVisible_append]
    exact ⟨hps, hts⟩
  · rwa [List.length_append, ← Nat.add_assoc]

end Storage
