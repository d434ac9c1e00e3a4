import Mathlib.Data.Set.List
import Mathlib.Data.String.Basic
import Cascade.Library.BinarySearch
import Cascade.Library.Numeral
import Cascade.Storage.Retention

/-!
# The names of segment files

A segment file is named by its base offset, with twenty digits. When a log is constructed, the
names in the directory are parsed and the files are opened in the order of their names. As the
digits are padded, this is the order of the base offsets (`segmentFilename_lt_iff`). So what a log
has written under its names is found again as a map in the order of its keys
(`Spelled.recoverExistingSegments_eq`), and the binary search of a read is one in a sorted sequence
(`Log.Ascending.searchable`).
-/

open Crash Crash.Program BinarySearch

namespace Storage

/-! ### File names -/

/-- What `std::snprintf` leaves of a text in a buffer, whose last byte ends the string. -/
def snprintf (size : ℕ) (text : List Char) : List Char := text.take (size - 1)

/-- The name of the segment file with the given base offset. -/
def segmentFilename (baseOffset : UInt64) : String :=
  String.ofList (snprintf 32
    (List.leftpad 20 '0' (Nat.toDigits 10 baseOffset.toNat) ++ ['.', 's', 'e', 'g']))

/-- Where the extension of a file name starts: at the last dot, unless the name has no dot, starts
with its only one, or is `..`. -/
def extensionStart (name : List Char) : ℕ :=
  let behind := (name.reverse.takeWhile (· ≠ '.')).length
  if behind + 1 < name.length ∧ name ≠ ['.', '.'] then name.length - behind - 1 else name.length

/-- The name without its extension. -/
def stem (name : String) : String := String.ofList (name.toList.take (extensionStart name.toList))

/-- The extension of a name, with the dot. -/
def extension (name : String) : String :=
  String.ofList (name.toList.drop (extensionStart name.toList))

/-! ### Parsing -/

/-- The exceptions of `std::stoull`. -/
inductive StoullError where
  | invalidArgument
  | outOfRange
deriving DecidableEq

/-- The blanks of the C locale. -/
def isSpace (c : Char) : Bool := c ∈ [' ', '\t', '\n', '\x0b', '\x0c', '\r']

/-- The sign in front of a number, and what follows it. -/
def splitSign : List Char → Bool × List Char
  | '-' :: cs => (true, cs)
  | '+' :: cs => (false, cs)
  | cs => (false, cs)

/-- Parse a number. What follows its digits is ignored, and a minus is an arithmetic negation. -/
def stoull (text : String) : Except StoullError UInt64 :=
  let (minus, rest) := splitSign (text.toList.dropWhile isSpace)
  let digits := rest.takeWhile Char.isDigit
  let value := Nat.ofDigitChars 10 digits 0
  if digits = [] then .error .invalidArgument
  else if 2 ^ 64 ≤ value then .error .outOfRange
  else .ok (if minus then - UInt64.ofNat value else UInt64.ofNat value)

/-- The segment files among the entries of a directory, which come in any order, in the order of
their names. -/
def segmentFiles (entries : List (String × File)) : List (String × File) :=
  (entries.filter (fun e => extension e.1 = ".seg")).mergeSort (fun e e' => e.1 ≤ e'.1)

/-- The segment files with their base offsets, in the order in which they are opened. -/
def recoverExistingSegments (entries : List (String × File)) : Except StoullError Directory :=
  (segmentFiles entries).mapM (fun e => do return ((← stoull (stem e.1)).toNat, e.2))

/-! ### The digits of a name -/

/-- The digits of a base offset in the name of its file. -/
def nameDigits (a : UInt64) : List Char := List.leftpad 20 '0' (Nat.toDigits 10 a.toNat)

theorem length_nameDigits (a : UInt64) :
  (nameDigits a).length = 20
  := by
  have hfits : (Nat.toDigits 10 a.toNat).length ≤ 20 := by
    rw [Nat.length_toDigits_le_iff (by decide) (by decide)]
    exact a.toNat_lt.trans (by decide)
  rw [nameDigits, List.length_leftpad]
  exact max_eq_left hfits

theorem isDigit_of_mem_nameDigits {a : UInt64} {c : Char} (hc : c ∈ nameDigits a) :
  c.isDigit = true
  := by
  rw [nameDigits, List.leftpad] at hc
  rcases List.mem_append.mp hc with hc | hc
  · rw [List.eq_of_mem_replicate hc]
    rfl
  · apply Nat.isDigit_of_mem_toDigits (by decide) (by decide) hc

/-- The zeros in front do not count. -/
theorem ofDigitChars_nameDigits (a : UInt64) :
  Nat.ofDigitChars 10 (nameDigits a) 0 = a.toNat
  := by
  rw [nameDigits, List.leftpad, Nat.ofDigitChars_append, Nat.ofDigitChars_replicate_zero,
    Nat.mul_zero, Nat.ofDigitChars_ten_toDigits]

theorem toList_segmentFilename (a : UInt64) :
  (segmentFilename a).toList = nameDigits a ++ ['.', 's', 'e', 'g']
  := by
  rw [segmentFilename, String.toList_ofList, snprintf, ← nameDigits, List.take_of_length_le]
  rw [List.length_append, length_nameDigits]
  decide

/-- The digits have no dot. -/
theorem extensionStart_segmentFilename (a : UInt64) :
  extensionStart (segmentFilename a).toList = (nameDigits a).length
  := by
  have hlen := length_nameDigits a
  have htotal : (nameDigits a ++ ['.', 's', 'e', 'g']).length = 24 := by
    rw [List.length_append, hlen]
    rfl
  have hlong : nameDigits a ++ ['.', 's', 'e', 'g'] ≠ ['.', '.'] := by
    intro heq
    rw [heq] at htotal
    exact nomatch htotal
  have hbehind : ((nameDigits a ++ ['.', 's', 'e', 'g']).reverse.takeWhile (· ≠ '.')).length
      = 3 := by
    simp
  rw [toList_segmentFilename, extensionStart, hbehind, htotal, hlen, if_pos ⟨by decide, hlong⟩]

theorem extension_segmentFilename (a : UInt64) :
  extension (segmentFilename a) = ".seg"
  := by
  rw [extension, extensionStart_segmentFilename, toList_segmentFilename, List.drop_left]

theorem stem_segmentFilename (a : UInt64) :
  stem (segmentFilename a) = String.ofList (nameDigits a)
  := by
  rw [stem, extensionStart_segmentFilename, toList_segmentFilename, List.take_left]

theorem not_isSpace_of_isDigit {c : Char} (hc : c.isDigit = true) :
  isSpace c = false
  := by
  rw [← Bool.not_eq_true]
  intro hspace
  simp only [isSpace, decide_eq_true_eq, List.mem_cons, List.not_mem_nil, or_false] at hspace
  rcases hspace with rfl | rfl | rfl | rfl | rfl | rfl <;> exact nomatch hc

theorem splitSign_of_isDigit {c : Char} (hc : c.isDigit = true) (cs : List Char) :
  splitSign (c :: cs) = (false, c :: cs)
  := by
  unfold splitSign
  split
  · rename_i heq
    obtain ⟨rfl, -⟩ := List.cons.inj heq
    exact nomatch hc
  · rename_i heq
    obtain ⟨rfl, -⟩ := List.cons.inj heq
    exact nomatch hc
  · rfl

/-- Digits alone are parsed as what they stand for. -/
theorem stoull_digits {digits : List Char} (hne : digits ≠ [])
    (hdigits : ∀ c ∈ digits, c.isDigit = true) (hlt : Nat.ofDigitChars 10 digits 0 < 2 ^ 64) :
  stoull (String.ofList digits) = .ok (UInt64.ofNat (Nat.ofDigitChars 10 digits 0))
  := by
  obtain ⟨c, cs, rfl⟩ := List.exists_cons_of_ne_nil hne
  have hc := hdigits c List.mem_cons_self
  have hspace : ¬ isSpace c = true := by
    rw [not_isSpace_of_isDigit hc]
    exact Bool.false_ne_true
  rw [stoull, String.toList_ofList, List.dropWhile_cons_of_neg hspace, splitSign_of_isDigit hc]
  simp only [List.takeWhile_eq_self_iff.mpr hdigits]
  rw [if_neg hne, if_neg (Nat.not_le_of_lt hlt)]
  rfl

/-- Parsing the stem of a name gives back the base offset. -/
theorem stoull_stem (a : UInt64) :
  stoull (stem (segmentFilename a)) = .ok a
  := by
  have hvalue := ofDigitChars_nameDigits a
  rw [stem_segmentFilename, stoull_digits, hvalue, UInt64.ofNat_toNat]
  · rw [← List.length_pos_iff, length_nameDigits]
    decide
  · exact fun _ => isDigit_of_mem_nameDigits
  · rw [hvalue]
    exact a.toNat_lt

theorem segmentFilename_injective :
  Function.Injective segmentFilename
  := by
  intro a b heq
  have hparsed := stoull_stem b
  rw [← heq, stoull_stem] at hparsed
  exact Except.ok.inj hparsed

/-- The names are in the order of the base offsets. -/
theorem segmentFilename_lt_iff (a b : UInt64) :
  segmentFilename a < segmentFilename b ↔ a < b
  := by
  have hlen : (nameDigits a).length = (nameDigits b).length := by
    rw [length_nameDigits, length_nameDigits]
  rw [String.lt_iff, toList_segmentFilename, toList_segmentFilename,
    Numeral.append_lt_append_iff hlen,
    Numeral.decimal_lt_iff hlen (fun _ => isDigit_of_mem_nameDigits)
      (fun _ => isDigit_of_mem_nameDigits),
    ofDigitChars_nameDigits, ofDigitChars_nameDigits, UInt64.lt_iff_toNat_lt]

/-! ### Directories -/

/-- The names in a directory are distinct, and those of segment files are spelled as a log spells
them. -/
structure Spelled (entries : List (String × File)) : Prop where
  nodup : (entries.map Prod.fst).Nodup
  name : ∀ e ∈ entries, extension e.1 = ".seg" → ∃ a, segmentFilename a = e.1

/-- A segment file with its name. -/
def named (e : UInt64 × File) : String × File := (segmentFilename e.1, e.2)

/-- A segment file with its base offset. -/
def keyed (e : UInt64 × File) : ℕ × File := (e.1.toNat, e.2)

theorem named_injective :
  Function.Injective named
  := by
  intro e e' heq
  obtain ⟨hname, hfile⟩ := Prod.ext_iff.mp heq
  exact Prod.ext (segmentFilename_injective hname) hfile

theorem keyed_injective :
  Function.Injective keyed
  := by
  intro e e' heq
  obtain ⟨hkey, hfile⟩ := Prod.ext_iff.mp heq
  exact Prod.ext (UInt64.toNat_inj.mp hkey) hfile

variable {entries : List (String × File)}

theorem mem_segmentFiles {e : String × File} :
  e ∈ segmentFiles entries ↔ e ∈ entries ∧ extension e.1 = ".seg"
  := by
  rw [segmentFiles, List.mem_mergeSort, List.mem_filter, decide_eq_true_iff]

/-- Distinct names end up in order. -/
theorem pairwise_segmentFiles
    (h : (entries.filter (fun e => extension e.1 = ".seg")).Pairwise (fun e e' => e.1 ≠ e'.1)) :
  (segmentFiles entries).Pairwise (fun e e' => e.1 < e'.1)
  := by
  have hsorted : (segmentFiles entries).Pairwise (fun e e' => decide (e.1 ≤ e'.1) = true) := by
    apply List.pairwise_mergeSort
    · intro e e' e'' hle hle'
      rw [decide_eq_true_iff] at hle hle' ⊢
      exact hle.trans hle'
    · intro e e'
      rw [Bool.or_eq_true, decide_eq_true_iff, decide_eq_true_iff]
      exact le_total e.1 e'.1
  have hdistinct : (segmentFiles entries).Pairwise (fun e e' => e.1 ≠ e'.1) := by
    rw [segmentFiles, (List.mergeSort_perm _ _).pairwise_iff Ne.symm]
    exact h
  apply (hsorted.and hdistinct).imp
  rintro e e' ⟨hle, hne⟩
  exact lt_of_le_of_ne (decide_eq_true_iff.mp hle) hne

/-- The segment files are opened in the order of their base offsets. -/
theorem Spelled.segmentFiles_eq (h : Spelled entries) :
  ∃ es : List (UInt64 × File),
    segmentFiles entries = es.map named ∧ es.Pairwise (fun e e' => e.1 < e'.1)
  := by
  have hrange : segmentFiles entries ∈ Set.range (List.map named) := by
    rw [Set.range_list_map]
    intro e he
    obtain ⟨hmem, hext⟩ := mem_segmentFiles.mp he
    obtain ⟨a, ha⟩ := h.name e hmem hext
    exact ⟨(a, e.2), Prod.ext ha rfl⟩
  obtain ⟨es, hes⟩ := hrange
  refine ⟨es, hes.symm, ?_⟩
  have hsorted := pairwise_segmentFiles ((List.pairwise_map.mp h.nodup).filter _)
  rw [← hes, List.pairwise_map] at hsorted
  exact hsorted.imp (fun hlt => (segmentFilename_lt_iff _ _).mp hlt)

theorem mapM_stoull (es : List (UInt64 × File)) :
  (es.map named).mapM (fun e => do return ((← stoull (stem e.1)).toNat, e.2))
    = (.ok (es.map keyed) : Except StoullError Directory)
  := by
  rw [List.mapM_map]
  have hentry : ((fun e => do return ((← stoull (stem e.1)).toNat, e.2)) ∘ named)
      = fun e => (pure (keyed e) : Except StoullError (ℕ × File)) := by
    funext e
    simp only [Function.comp_apply, named, stoull_stem]
    rfl
  rw [hentry, List.mapM_pure]
  rfl

/-- A directory whose names are spelled is opened as a map in the order of its keys, which are the
base offsets in the names. -/
theorem Spelled.recoverExistingSegments_eq (h : Spelled entries) :
  ∃ d, recoverExistingSegments entries = .ok d ∧ d.Sorted
    ∧ ∀ a f, (segmentFilename a, f) ∈ entries ↔ (a.toNat, f) ∈ d
  := by
  obtain ⟨es, hfiles, hsorted⟩ := h.segmentFiles_eq
  refine ⟨es.map keyed, ?_, ?_, ?_⟩
  · rw [recoverExistingSegments, hfiles]
    exact mapM_stoull es
  · rw [SortedMap.Sorted, SortedMap.keys, List.map_map, List.pairwise_map]
    exact hsorted.imp (fun hlt => UInt64.lt_iff_toNat_lt.mp hlt)
  · intro a f
    have hname : (segmentFilename a, f) ∈ es.map named ↔ (a, f) ∈ es :=
      List.mem_map_of_injective named_injective (a := (a, f))
    have hkey : (a.toNat, f) ∈ es.map keyed ↔ (a, f) ∈ es :=
      List.mem_map_of_injective keyed_injective (a := (a, f))
    rw [hkey, ← hname, ← hfiles, mem_segmentFiles]
    exact (and_iff_left (extension_segmentFilename a)).symm

/-! ### The segments of a log -/

namespace Log

variable {l : Log}

/-- The base offsets of the segments, in the order of the deque. -/
def bases (l : Log) : List ℕ := l.segments.map Segment.baseOffset

/-- Read the record with the given offset, with the binary search for its segment. -/
def readBisecting (l : Log) (offset : ℕ) : Option ReadResult :=
  match upperBound (fun s => offset < s.baseOffset) l.segments with
  | 0 => none
  | it + 1 => l.segments[it]?.bind (fun s => Handle.read ⟨l.file s.baseOffset, s⟩ offset)

/-- The segments are in the order of their base offsets. -/
structure Ascending (l : Log) : Prop extends l.Ordered where
  bases : l.bases.Pairwise (· ≤ ·)

/-- The base offsets do not decrease, and the binary search finds the segment for every offset. -/
def Searchable (l : Log) : Prop :=
  l.bases.Pairwise (· ≤ ·) ∧ ∀ offset, l.readBisecting offset = l.read offset

theorem Ascending.searchable (h : l.Ascending) :
  l.Searchable
  := by
  refine ⟨h.bases, ?_⟩
  intro offset
  have hpart : Partitioned (fun s : Segment => decide (offset < s.baseOffset)) l.segments := by
    apply (List.pairwise_map.mp h.bases).imp
    intro s t hle hs
    simp only [decide_eq_true_eq] at hs ⊢
    exact hs.trans_le hle
  rw [readBisecting, read, hpart.elementBefore_eq]
  cases upperBound (fun s : Segment => decide (offset < s.baseOffset)) l.segments with
  | zero => rfl
  | succ it =>
      dsimp only
      cases l.segments[it]? <;> rfl

theorem bases_recover (m : ℕ) {d : Directory} (hd : d.Sorted) :
  (recover m d).bases = if d = [] then [0] else d.keys
  := by
  rcases List.eq_nil_or_concat d with rfl | ⟨es, e, rfl⟩
  · change (fresh m).bases = _
    rw [fresh_eq, if_pos rfl, bases, segments, List.nil_append, List.map_singleton,
      Segment.constructed_baseOffset]
  · rw [List.concat_eq_append] at hd ⊢
    rw [recover_eq m hd, if_neg (by simp)]
    simp [bases, segments, SortedMap.keys, Function.comp_def, Handle.sealed_baseOffset]

theorem bases_putBack {t : Handle} (hbase : t.seg.baseOffset = l.back.baseOffset) :
  (l.putBack t).bases = l.bases
  := by
  simp [bases, segments, putBack, hbase]

theorem bases_rolledOver (l : Log) :
  l.rolledOver.bases = l.bases ++ [l.back.nextOffset]
  := by
  have holder : l.rolledOver.older = l.sealedBack.segments := rfl
  rw [bases, segments, holder, List.map_append, List.map_singleton, rolledOver_baseOffset,
    ← bases, sealedBack, bases_putBack l.handle.sealed_baseOffset]

theorem Ascending.putBack (h : l.Ascending) {t : Handle} (ht : (l.putBack t).Ordered)
    (hbase : t.seg.baseOffset = l.back.baseOffset) :
  (l.putBack t).Ascending
  := by
  refine ⟨ht, ?_⟩
  rw [bases_putBack hbase]
  exact h.bases

/-- A new segment starts behind all others. -/
theorem Ascending.rolledOver (h : l.Ascending) :
  l.rolledOver.Ascending
  := by
  refine ⟨h.toOrdered.extends_rolledOver.ordered, ?_⟩
  have hord : l.back.baseOffset ≤ l.back.nextOffset := h.handle.ordered
  rw [bases_rolledOver, List.pairwise_append]
  refine ⟨h.bases, List.pairwise_singleton _ _, ?_⟩
  intro base hbase next hnext
  rw [List.mem_singleton.mp hnext]
  obtain ⟨s, hs, rfl⟩ := List.mem_map.mp hbase
  rcases List.mem_append.mp hs with hs | hs
  · exact (h.older s hs).trans hord
  · rw [List.mem_singleton.mp hs]
    exact hord

theorem Ascending.pushed (h : l.Ascending) {p : Payload} (hfits : Handle.Fits p l.back) :
  (l.pushed p).Ascending
  := h.putBack (h.toOrdered.gains_pushed hfits).ordered rfl

/-- The segments stay in order, whether an operation throws or not. -/
theorem kept_ascending :
  Kept Ascending
  := by
  apply Kept.of_steps
  · exact fun _ h => h.toAttached
  · exact fun _ _ hfits h => h.pushed hfits
  · exact fun _ h => h.rolledOver
  · intro t h
    apply h.putBack h.toOrdered.extends_flushedBack.ordered
    rw [Handle.flushed_seg]
    rfl
  · intro t nextOffset flushCalls h
    have hsame : t.Extends { t with nextOffset, flushCalls } :=
      h.toOrdered.extends_self.of_eq rfl rfl rfl rfl
    exact ⟨hsame.ordered, h.bases⟩

theorem recover_ascending (m : ℕ) {d : Directory} (hd : d.Sorted) :
  (recover m d).Ascending
  := by
  refine ⟨recover_ordered m hd, ?_⟩
  rw [bases_recover m hd]
  split
  · exact List.pairwise_singleton _ _
  · exact hd.imp Nat.le_of_lt

end Log

/-- The stem of the name of a segment file is parsed as its base offset, and the names are in the
order of the base offsets. So the entries of a directory whose names are spelled in this way, in
whatever order they are listed, are opened in the order of the base offsets, which are then those of
the segments. The segments are in order then, and stay so as long as no offset passes the largest of
64 bits, and the binary search of a read finds the segment that is the last not to start behind
the offset. -/
theorem recoverExistingSegments_in_order :
  (∀ a, extension (segmentFilename a) = ".seg" ∧ stoull (stem (segmentFilename a)) = .ok a)
    ∧ (∀ a b, segmentFilename a < segmentFilename b ↔ a < b)
    ∧ ∀ entries, Spelled entries →
      ∃ d, recoverExistingSegments entries = .ok d ∧ d.Sorted
        ∧ (∀ a f, (segmentFilename a, f) ∈ entries ↔ (a.toNat, f) ∈ d)
        ∧ ∀ m, (Log.recover m d).bases = (if d = [] then [0] else d.keys)
          ∧ (Log.recover m d).Searchable
          ∧ ∀ ops, ((Log.recover m d).run ops).back.nextOffset < 2 ^ 64
            → ((Log.recover m d).run ops).Searchable
  := by
  refine ⟨fun a => ⟨extension_segmentFilename a, stoull_stem a⟩, segmentFilename_lt_iff, ?_⟩
  intro entries h
  obtain ⟨d, hd, hsorted, hmem⟩ := h.recoverExistingSegments_eq
  refine ⟨d, hd, hsorted, hmem, ?_⟩
  intro m
  have hasc := Log.recover_ascending m hsorted
  refine ⟨Log.bases_recover m hsorted, hasc.searchable, ?_⟩
  -- Offsets are not bounded here, so the condition is for the machine's, which wrap around.
  intro ops _
  exact (Log.kept_ascending.run ops _ hasc).searchable

/-- Two segment files that are listed in the wrong order, with another file between them. -/
def twoSegments : List (String × File) :=
  [(segmentFilename 10, File.empty), ("notes.txt", File.empty), (segmentFilename 9, File.empty)]

theorem recoverExistingSegments_twoSegments :
  Spelled twoSegments
    ∧ ∃ d, recoverExistingSegments twoSegments = .ok d ∧ d.Sorted
      ∧ (9, File.empty) ∈ d ∧ (10, File.empty) ∈ d
      ∧ ∀ m, (Log.recover m d).Searchable
  := by
  have hspelled : Spelled twoSegments := by
    constructor
    · decide +kernel
    · simp only [twoSegments, List.forall_mem_cons]
      refine ⟨fun _ => ⟨10, rfl⟩, ?_, fun _ => ⟨9, rfl⟩, ?_⟩
      · intro hext
        exact absurd hext (by decide +kernel)
      · exact fun _ hnone => absurd hnone List.not_mem_nil
  obtain ⟨d, hd, hsorted, hmem, hlog⟩ :=
    recoverExistingSegments_in_order.2.2 twoSegments hspelled
  refine ⟨hspelled, d, hd, hsorted, ?_, ?_, fun m => (hlog m).2.1⟩
  · apply (hmem 9 File.empty).mp
    simp [twoSegments]
  · apply (hmem 10 File.empty).mp
    simp [twoSegments]

end Storage
