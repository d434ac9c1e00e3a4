import Cascade.Library.Concurrent
import Cascade.Metrics.Histogram

/-!
# Scraping while values are observed

Threads observe values in a histogram of `metrics/metrics_registry.hpp` while others render it.
Every access to an atomic is a step of its own, and the steps of the threads come in any order, but
in one order for all threads. That is more than the relaxed accesses of the source are promised by
the language; it is what they do where loads are not reordered. The mutex of the registry does not
matter, since an observation does not take it.

A rendering reads the counters one after the other, and those of the first buckets once for each
bucket. The values are then not those of one moment. Still, they do not decrease, and each is
between what had been counted before the rendering and what is counted at its end
(`scrape_consistent`). The reason is that counters only grow, and that an observation counts itself
before it counts its bucket. No observation is lost, as the sum is only replaced if it is still the
one that was loaded.
-/

namespace Metrics

open Concurrent

variable {K : Type}

/-! ### The code -/

/-- What a thread is about to do in `observe` or in `render_prometheus`. A rendering keeps the
counts of the buckets from when it began, which are not in the source. -/
inductive Op (K : Type) where
  -- `observe`
  | counting (v : K)
  | loading (v : K)
  | adding (v oldSum : K)
  | bucketing (v : K)
  | observed (v : K)
  -- `render_prometheus`, with the rows that are written, and the next bucket of the row and the
  -- total so far
  | entering
  | totalling (before rows : List UInt64) (i : ℕ) (total : UInt64)
  | loadingInf (before rows : List UInt64)
  | loadingSum (before rows : List UInt64) (inf : UInt64)
  | loadingCount (before rows : List UInt64) (inf : UInt64) (sum : K)
  | rendered (before rows : List UInt64) (inf : UInt64) (sum : K) (count : UInt64)

inductive Call (K : Type) where
  | observe (v : K)
  | renderPrometheus

namespace Op

/-- The next row, or what follows the last one. -/
def nextRow (h : Histogram K) (before rows : List UInt64) : Op K :=
  if rows.length < h.bounds.length then totalling before rows 0 0 else loadingInf before rows

theorem size_modify [LinearOrder K] (h : Histogram K) (v : K) :
  (h.bucketCounts.modify (Histogram.upperBound h.bounds v) (· + 1)).length = h.bounds.length + 1
  := (List.length_modify ..).trans h.size_eq

variable [LinearOrder K] [AddCommMonoid K]

/-- A step of a thread. A `compare_exchange_weak` may fail without a reason. -/
def advance (fails : Bool) (h : Histogram K) : Op K → Histogram K × Op K
  | counting v => ({ h with count := h.count + 1 }, loading v)
  | loading v => (h, adding v h.sum)
  | adding v oldSum =>
      if h.sum = oldSum ∧ fails = false then ({ h with sum := oldSum + v }, bucketing v)
      else (h, adding v h.sum)
  | bucketing v =>
      ({ h with
          bucketCounts := h.bucketCounts.modify (Histogram.upperBound h.bounds v) (· + 1)
          size_eq := size_modify h v }, observed v)
  | observed v => (h, observed v)
  | entering => (h, nextRow h h.bucketCounts [])
  | totalling before rows i total =>
      let total := total + h.bucketCounts.getD i 0
      if i < rows.length then (h, totalling before rows (i + 1) total)
      else (h, nextRow h before (rows ++ [total]))
  | loadingInf before rows => (h, loadingSum before rows h.count)
  | loadingSum before rows inf => (h, loadingCount before rows inf h.sum)
  | loadingCount before rows inf sum => (h, rendered before rows inf sum h.count)
  | rendered before rows inf sum count => (h, rendered before rows inf sum count)

end Op

section

variable [LinearOrder K] [AddCommMonoid K]

def scraping : Protocol (Histogram K) (Call K) Bool (Op K) where
  start
    | .observe v => .counting v
    | .renderPrometheus => .entering
  advance := Op.advance

/-- A new histogram. -/
def fresh (bounds : List K) : Concurrent (Histogram K) (Op K) := ⟨Histogram.make bounds, []⟩

end

/-! ### Counters that only grow -/

/-- What the first `n` counters have counted together. -/
def countedUpTo (counts : List UInt64) (n : ℕ) : ℕ := ((counts.take n).map UInt64.toNat).sum

/-- From any position to any later one, at least as much has been counted. -/
def Grown (counts counts' : List UInt64) : Prop :=
  ∀ i n, i ≤ n →
    countedUpTo counts n + countedUpTo counts' i ≤ countedUpTo counts' n + countedUpTo counts i

theorem countedUpTo_zero (counts : List UInt64) :
  countedUpTo counts 0 = 0
  := rfl

theorem countedUpTo_succ (counts : List UInt64) (n : ℕ) :
  countedUpTo counts (n + 1) = countedUpTo counts n + (counts.getD n 0).toNat
  := by
  rw [countedUpTo, List.take_add_one, List.map_append, List.sum_append, ← countedUpTo,
    List.getD_eq_getElem?_getD]
  cases counts[n]? <;> simp

theorem countedUpTo_mono (counts : List UInt64) :
  Monotone (countedUpTo counts)
  := by
  apply monotone_nat_of_le_succ
  intro n
  rw [countedUpTo_succ]
  apply Nat.le_add_right

theorem countedUpTo_replicate (m n : ℕ) :
  countedUpTo (List.replicate m 0) n = 0
  := by
  simp [countedUpTo, List.take_replicate]

theorem getD_modify {counts : List UInt64} {k : ℕ} (hk : k < counts.length) (n : ℕ) :
  (counts.modify k (· + 1)).getD n 0 = counts.getD n 0 + if k = n then 1 else 0
  := by
  rw [List.getD_eq_getElem?_getD, List.getElem?_modify, List.getD_eq_getElem?_getD]
  split
  · rename_i heq
    subst heq
    rw [List.getElem?_eq_getElem hk]
    rfl
  · simp

/-- One more in a counter is one more in each sum that reaches it. -/
theorem countedUpTo_modify {counts : List UInt64} {k : ℕ} (hk : k < counts.length)
    (hlt : countedUpTo counts (k + 1) + 1 < 2 ^ 64) (n : ℕ) :
  countedUpTo (counts.modify k (· + 1)) n = countedUpTo counts n + if k < n then 1 else 0
  := by
  induction n with
  | zero => rfl
  | succ n ih =>
      rw [countedUpTo_succ, countedUpTo_succ, ih, getD_modify hk]
      rcases lt_trichotomy k n with hkn | rfl | hkn
      · simp only [hkn, hkn.ne, Nat.lt_succ_of_lt hkn, if_true, if_false, UInt64.add_zero]
        omega
      · -- The counter itself, which does not wrap around.
        have hwrap : (counts.getD k 0 + 1).toNat = (counts.getD k 0).toNat + 1 := by
          rw [countedUpTo_succ] at hlt
          rw [UInt64.toNat_add, UInt64.toNat_one]
          apply Nat.mod_eq_of_lt
          omega
        simp only [lt_irrefl, Nat.lt_succ_self, if_true, if_false, hwrap]
        omega
      · simp only [hkn.ne', hkn.not_gt, (Nat.succ_le_of_lt hkn).not_gt, if_false, UInt64.add_zero]
        omega

/-- Counters of the same sums are the same. -/
theorem eq_of_countedUpTo {counts counts' : List UInt64} (hlen : counts.length = counts'.length)
    (h : ∀ n, countedUpTo counts n = countedUpTo counts' n) :
  counts = counts'
  := by
  apply List.ext_getElem hlen
  intro n hn hn'
  have hsucc := h (n + 1)
  rw [countedUpTo_succ, countedUpTo_succ, h n, List.getD_eq_getElem _ _ hn,
    List.getD_eq_getElem _ _ hn'] at hsucc
  apply UInt64.toNat_inj.mp
  omega

theorem Grown.refl (counts : List UInt64) :
  Grown counts counts
  := fun _ _ _ => le_rfl

theorem Grown.trans {counts counts' counts'' : List UInt64} (h : Grown counts counts')
    (h' : Grown counts' counts'') :
  Grown counts counts''
  := by
  intro i n hle
  have := h i n hle
  have := h' i n hle
  omega

theorem Grown.le {counts counts' : List UInt64} (h : Grown counts counts') (n : ℕ) :
  countedUpTo counts n ≤ countedUpTo counts' n
  := by
  have := h 0 n (Nat.zero_le n)
  simpa only [countedUpTo_zero, Nat.add_zero] using this

theorem grown_modify {counts : List UInt64} {k : ℕ} (hk : k < counts.length)
    (hlt : countedUpTo counts (k + 1) + 1 < 2 ^ 64) :
  Grown counts (counts.modify k (· + 1))
  := by
  intro i n hle
  rw [countedUpTo_modify hk hlt, countedUpTo_modify hk hlt]
  split_ifs <;> omega

/-! ### What a rendering has read -/

/-- The rows that a rendering has written, when the histogram has grown to `h`. -/
structure Rows (h : Histogram K) (before rows : List UInt64) : Prop where
  grown : Grown before h.bucketCounts
  sorted : rows.Pairwise (· ≤ ·)
  between : ∀ i (hi : i < rows.length), countedUpTo before (i + 1) ≤ rows[i].toNat
    ∧ rows[i].toNat ≤ countedUpTo h.bucketCounts (i + 1)

/-- All rows and the row of the count, which is not less than any of them. -/
structure Table (h : Histogram K) (before rows : List UInt64) (inf : UInt64) : Prop
    extends Rows h before rows where
  length_eq : rows.length = h.bounds.length
  row_le : ∀ row ∈ rows, row ≤ inf
  before_le : ∀ n, countedUpTo before n ≤ inf.toNat

/-- What is known at a step of a rendering. For the row that is being totalled, what its remaining
buckets have counted by now makes it at least as much as the rows above it. -/
def Op.Sound (h : Histogram K) : Op K → Prop
  | .totalling before rows i total =>
      Rows h before rows ∧ rows.length < h.bounds.length ∧ i ≤ rows.length
        ∧ total.toNat ≤ countedUpTo h.bucketCounts i
        ∧ (∀ row ∈ rows, row.toNat + countedUpTo h.bucketCounts i
            ≤ total.toNat + countedUpTo h.bucketCounts rows.length)
        ∧ countedUpTo before (rows.length + 1) + countedUpTo h.bucketCounts i
            ≤ total.toNat + countedUpTo h.bucketCounts (rows.length + 1)
  | .loadingInf before rows => Rows h before rows ∧ rows.length = h.bounds.length
  | .loadingSum before rows inf => Table h before rows inf ∧ inf ≤ h.count
  | .loadingCount before rows inf _ => Table h before rows inf ∧ inf ≤ h.count
  | .rendered before rows inf _ count => Table h before rows inf ∧ inf ≤ count ∧ count ≤ h.count
  | _ => True

section Growing

variable {h h' : Histogram K} {before rows : List UInt64}

theorem Rows.mono (hrows : Rows h before rows) (hgrown : Grown h.bucketCounts h'.bucketCounts) :
  Rows h' before rows
  := by
  refine ⟨hrows.grown.trans hgrown, hrows.sorted, ?_⟩
  intro i hi
  obtain ⟨hlow, hhigh⟩ := hrows.between i hi
  exact ⟨hlow, hhigh.trans (hgrown.le _)⟩

theorem Table.mono {inf : UInt64} (htable : Table h before rows inf)
    (hgrown : Grown h.bucketCounts h'.bucketCounts) (hbounds : h'.bounds = h.bounds) :
  Table h' before rows inf
  := ⟨htable.toRows.mono hgrown, htable.length_eq.trans (by rw [hbounds]), htable.row_le,
    htable.before_le⟩

/-- What is known remains true while others count. -/
theorem Op.Sound.mono {op : Op K} (hop : op.Sound h)
    (hgrown : Grown h.bucketCounts h'.bucketCounts) (hbounds : h'.bounds = h.bounds)
    (hcount : h.count ≤ h'.count) :
  op.Sound h'
  := by
  cases op with
  | totalling before rows i total =>
      obtain ⟨hrows, hlen, hi, htotal, habove, hbefore⟩ := hop
      refine ⟨hrows.mono hgrown, hbounds ▸ hlen, hi, htotal.trans (hgrown.le i), ?_, ?_⟩
      · intro row hrow
        have := habove row hrow
        have := hgrown i rows.length hi
        omega
      · have := hgrown i (rows.length + 1) (Nat.le_succ_of_le hi)
        omega
  | loadingInf before rows => exact ⟨hop.1.mono hgrown, hop.2.trans (by rw [hbounds])⟩
  | loadingSum before rows inf =>
      exact ⟨hop.1.mono hgrown hbounds, UInt64.le_trans hop.2 hcount⟩
  | loadingCount before rows inf sum =>
      exact ⟨hop.1.mono hgrown hbounds, UInt64.le_trans hop.2 hcount⟩
  | rendered before rows inf sum count =>
      exact ⟨hop.1.mono hgrown hbounds, hop.2.1, UInt64.le_trans hop.2.2 hcount⟩
  | _ => trivial

/-- A new row is begun. -/
theorem sound_nextRow (hrows : Rows h before rows) (hlen : rows.length ≤ h.bounds.length) :
  (Op.nextRow h before rows).Sound h
  := by
  rw [Op.nextRow]
  split
  · rename_i hlt
    refine ⟨hrows, hlt, Nat.zero_le _, Nat.zero_le _, ?_, ?_⟩
    · intro row hrow
      obtain ⟨i, hi, rfl⟩ := List.getElem_of_mem hrow
      have hhigh := (hrows.between i hi).2
      have hmono := countedUpTo_mono h.bucketCounts (Nat.succ_le_of_lt hi)
      rw [countedUpTo_zero]
      exact (hhigh.trans hmono).trans (Nat.le_add_left _ _)
    · have := hrows.grown.le (rows.length + 1)
      rw [countedUpTo_zero]
      omega
  · exact ⟨hrows, by omega⟩

theorem sound_entering (h : Histogram K) :
  (Op.nextRow h h.bucketCounts []).Sound h
  := by
  apply sound_nextRow _ (Nat.zero_le _)
  refine ⟨Grown.refl _, List.Pairwise.nil, ?_⟩
  intro i hi
  cases hi

/-- A row is complete with its last bucket. -/
theorem rows_concat {total : UInt64} (hrows : Rows h before rows)
    (hlow : countedUpTo before (rows.length + 1) ≤ total.toNat)
    (hhigh : total.toNat ≤ countedUpTo h.bucketCounts (rows.length + 1))
    (habove : ∀ row ∈ rows, row ≤ total) :
  Rows h before (rows ++ [total])
  := by
  refine ⟨hrows.grown, ?_, ?_⟩
  · rw [List.pairwise_append]
    refine ⟨hrows.sorted, List.pairwise_singleton .., ?_⟩
    intro row hrow last hlast
    rw [List.mem_singleton.mp hlast]
    exact habove row hrow
  · intro i hi
    rw [List.length_append, List.length_singleton] at hi
    rcases (Nat.lt_succ_iff.mp hi).lt_or_eq with hlt | rfl
    · rw [List.getElem_append_left hlt]
      exact hrows.between i hlt
    · rw [List.getElem_concat_length rfl]
      exact ⟨hlow, hhigh⟩

end Growing

/-! ### The state and its operations -/

attribute [ext] Histogram

/-- What `observe` has been called with. -/
def Op.value : Op K → Option K
  | .counting v | .loading v | .adding v _ | .bucketing v | .observed v => some v
  | _ => none

/-- The observation is in the count. -/
def Op.counted : Op K → ℕ
  | .loading _ | .adding _ _ | .bucketing _ | .observed _ => 1
  | _ => 0

/-- The value is in the sum. -/
def Op.added [Zero K] : Op K → K
  | .bucketing v | .observed v => v
  | _ => 0

/-- The observation is in one of the first `n` buckets. -/
def Op.bucketed [LinearOrder K] (bounds : List K) (n : ℕ) : Op K → ℕ
  | .observed v => if Histogram.upperBound bounds v < n then 1 else 0
  | _ => 0

/-- The values with which `observe` has been called, by order of the calls. -/
def values (ops : List (Op K)) : List K := ops.filterMap Op.value

theorem sum_counted_le (ops : List (Op K)) :
  (ops.map Op.counted).sum ≤ (values ops).length
  := by
  induction ops with
  | nil => rfl
  | cons op ops ih =>
      rw [List.map_cons, List.sum_cons, values, List.filterMap_cons, ← values]
      cases op <;> simp only [Op.counted, Op.value, List.length_cons] <;> omega

theorem values_set {ops : List (Op K)} {k : ℕ} {op op' : Op K} (hop : ops[k]? = some op)
    (heq : op'.value = op.value) :
  values (ops.set k op') = values ops
  := by
  have hmap : ∀ ops : List (Op K), values ops = (ops.map Op.value).filterMap id := by
    intro ops
    rw [List.filterMap_map]
    rfl
  rw [hmap, hmap, map_set_of_eq hop heq]

/-- All calls of `observe` have returned. -/
def Returned (ops : List (Op K)) : Prop :=
  ∀ op ∈ ops, ∀ v, op.value = some v → op = .observed v

/-- What is added up over returned observations is added up over their values. -/
theorem Returned.sum_map {ops : List (Op K)} {M : Type*} [AddCommMonoid M] (hops : Returned ops)
    {f : Op K → M} {g : K → M} (hobserved : ∀ v, f (.observed v) = g v)
    (hrender : ∀ op : Op K, op.value = none → f op = 0) :
  (ops.map f).sum = ((values ops).map g).sum
  := by
  induction ops with
  | nil => rfl
  | cons op ops ih =>
      have ih := ih fun op hop => hops op (List.mem_cons_of_mem _ hop)
      rw [List.map_cons, List.sum_cons, ih]
      cases hv : op.value with
      | none =>
          rw [hrender op hv, values, values, List.filterMap_cons_none hv]
          apply zero_add
      | some v =>
          rw [values, values, List.filterMap_cons_some hv, hops op List.mem_cons_self v hv,
            hobserved]
          rfl

theorem countP_eq_sum (p : K → Prop) [DecidablePred p] (vs : List K) :
  vs.countP p = (vs.map fun v => if p v then 1 else 0).sum
  := by
  induction vs with
  | nil => rfl
  | cons v vs ih =>
      rw [List.countP_cons, List.map_cons, List.sum_cons, ih, Nat.add_comm]
      simp only [decide_eq_true_eq]

section Returned

variable {ops : List (Op K)}

theorem Returned.sum_counted (hops : Returned ops) :
  (ops.map Op.counted).sum = (values ops).length
  := by
  rw [hops.sum_map (g := fun _ => 1) (fun _ => rfl)]
  · simp
  · intro op hop
    cases op <;> first | rfl | cases hop

theorem Returned.sum_added [AddCommMonoid K] (hops : Returned ops) :
  (ops.map Op.added).sum = (values ops).sum
  := by
  rw [hops.sum_map (g := id) (fun _ => rfl), List.map_id]
  intro op hop
  cases op <;> first | rfl | cases hop

theorem Returned.sum_bucketed [LinearOrder K] (hops : Returned ops) (bounds : List K)
    (n : ℕ) :
  (ops.map (Op.bucketed bounds n)).sum
    = (values ops).countP (Histogram.upperBound bounds · < n)
  := by
  rw [hops.sum_map (g := fun v => if Histogram.upperBound bounds v < n then 1 else 0)
    (fun _ => rfl), countP_eq_sum]
  · intro op hop
    cases op <;> first | rfl | cases hop

end Returned

variable [LinearOrder K]

theorem Op.bucketed_le_counted (bounds : List K) (n : ℕ) (op : Op K) :
  op.bucketed bounds n ≤ op.counted
  := by
  cases op with
  | observed v =>
      rw [Op.bucketed, Op.counted]
      split_ifs <;> omega
  | _ => exact Nat.zero_le _

theorem sum_bucketed_le (bounds : List K) (n : ℕ) (ops : List (Op K)) :
  (ops.map (Op.bucketed bounds n)).sum ≤ (ops.map Op.counted).sum
  := List.sum_le_sum fun op _ => op.bucketed_le_counted bounds n

variable [AddCommMonoid K]

/-- The counters are what the observations have done so far, and the renderings have read what they
should have. -/
structure Tallied (bounds : List K) (s : Concurrent (Histogram K) (Op K)) : Prop where
  bounds_eq : s.memory.bounds = bounds
  count_eq : s.memory.count.toNat = (s.ops.map Op.counted).sum
  sum_eq : s.memory.sum = (s.ops.map Op.added).sum
  buckets_eq : ∀ n,
    countedUpTo s.memory.bucketCounts n = (s.ops.map (Op.bucketed bounds n)).sum
  sound : ∀ op ∈ s.ops, op.Sound s.memory

theorem Op.value_advance (fails : Bool) (h : Histogram K) (op : Op K) :
  (op.advance fails h).2.value = op.value
  := by
  cases op with
  | adding v oldSum =>
      rw [Op.advance]
      split <;> rfl
  | totalling before rows i total =>
      simp only [Op.advance, Op.nextRow]
      split_ifs <;> rfl
  | entering =>
      simp only [Op.advance, Op.nextRow]
      split_ifs <;> rfl
  | _ => rfl

/-! ### The steps -/

section Steps

variable {bounds : List K} {s : Concurrent (Histogram K) (Op K)} {k : ℕ} {op op' : Op K}

/-- A step counts for its operation what it changes in the counters. -/
theorem Tallied.step (hs : Tallied bounds s) (hop : s.ops[k]? = some op) {h' : Histogram K}
    (hbounds : h'.bounds = s.memory.bounds) (hgrown : Grown s.memory.bucketCounts h'.bucketCounts)
    (hle : op.counted ≤ op'.counted)
    (hcount : h'.count.toNat + op.counted = s.memory.count.toNat + op'.counted)
    (hsum : h'.sum = s.memory.sum ∧ op'.added = op.added
      ∨ h'.sum = s.memory.sum + op'.added ∧ op.added = 0)
    (hbuckets : ∀ n, countedUpTo h'.bucketCounts n + op.bucketed bounds n
      = countedUpTo s.memory.bucketCounts n + op'.bucketed bounds n)
    (hsound : op'.Sound h') :
  Tallied bounds ⟨h', s.ops.set k op'⟩
  := by
  refine ⟨hbounds.trans hs.bounds_eq, ?_, ?_, ?_, ?_⟩
  · have hold := hs.count_eq
    have hnew := sum_map_set hop Op.counted op'
    change h'.count.toNat = ((s.ops.set k op').map Op.counted).sum
    omega
  · change h'.sum = _
    rcases hsum with ⟨hsum, hadded⟩ | ⟨hsum, hadded⟩
    · rw [hsum, hs.sum_eq, map_set_of_eq hop hadded]
    · have hnew := sum_map_set hop Op.added op'
      rw [hadded, add_zero] at hnew
      rw [hsum, hs.sum_eq, hnew]
  · intro n
    have hold := hs.buckets_eq n
    have hnew := sum_map_set hop (Op.bucketed bounds n) op'
    have := hbuckets n
    change countedUpTo h'.bucketCounts n = ((s.ops.set k op').map (Op.bucketed bounds n)).sum
    omega
  · intro other hother
    rcases List.mem_or_eq_of_mem_set hother with hmem | rfl
    · apply (hs.sound other hmem).mono hgrown hbounds
      rw [UInt64.le_iff_toNat_le]
      omega
    · exact hsound

/-- A step that only reads. -/
theorem Tallied.read (hs : Tallied bounds s) (hop : s.ops[k]? = some op)
    (hcounted : op'.counted = op.counted) (hadded : op'.added = op.added)
    (hbucketed : ∀ n, op'.bucketed bounds n = op.bucketed bounds n)
    (hsound : op'.Sound s.memory) :
  Tallied bounds ⟨s.memory, s.ops.set k op'⟩
  := by
  apply hs.step hop rfl (Grown.refl _) hcounted.ge
  · rw [hcounted]
  · exact Or.inl ⟨rfl, hadded⟩
  · intro n
    rw [hbucketed n]
  · exact hsound

/-- No bucket has counted more than all observations. -/
theorem Tallied.countedUpTo_le (hs : Tallied bounds s) (n : ℕ) :
  countedUpTo s.memory.bucketCounts n ≤ s.memory.count.toNat
  := by
  rw [hs.buckets_eq n, hs.count_eq]
  apply sum_bucketed_le

theorem Tallied.advance_counting {v : K} (hs : Tallied bounds s)
    (hop : s.ops[k]? = some (.counting v)) (hlt : (values s.ops).length < 2 ^ 64) :
  Tallied bounds ⟨{ s.memory with count := s.memory.count + 1 }, s.ops.set k (.loading v)⟩
  := by
  have hvalues : values (s.ops.set k (.loading v)) = values s.ops := values_set hop rfl
  have hnew := sum_map_set hop Op.counted (.loading v)
  have hle := sum_counted_le (s.ops.set k (.loading v))
  have hold := hs.count_eq
  simp only [Op.counted, hvalues] at hnew hle
  apply hs.step hop
  · rfl
  · apply Grown.refl
  · apply Nat.zero_le
  · simp only [Op.counted]
    rw [UInt64.toNat_add, UInt64.toNat_one, Nat.mod_eq_of_lt (by omega)]
  · exact Or.inl ⟨rfl, rfl⟩
  · intro n
    rfl
  · trivial

theorem Tallied.advance_bucketing {v : K} (hs : Tallied bounds s)
    (hop : s.ops[k]? = some (.bucketing v)) (hlt : (values s.ops).length < 2 ^ 64) :
  Tallied bounds ⟨(Op.advance false s.memory (.bucketing v)).1, s.ops.set k (.observed v)⟩
  := by
  have hk : Histogram.upperBound s.memory.bounds v < s.memory.bucketCounts.length := by
    rw [s.memory.size_eq]
    exact Nat.lt_succ_of_le List.findIdx_le_length
  -- With this observation there are still not more than all values.
  have hroom : countedUpTo s.memory.bucketCounts (Histogram.upperBound s.memory.bounds v + 1) + 1
      < 2 ^ 64 := by
    have hvalues : values (s.ops.set k (.observed v)) = values s.ops := values_set hop rfl
    have hnew := sum_map_set hop
      (Op.bucketed bounds (Histogram.upperBound s.memory.bounds v + 1)) (.observed v)
    have hle := (sum_bucketed_le bounds (Histogram.upperBound s.memory.bounds v + 1)
      (s.ops.set k (.observed v))).trans (sum_counted_le _)
    rw [hs.buckets_eq]
    simp only [Op.bucketed, hs.bounds_eq, Nat.lt_succ_self, if_true, hvalues] at hnew hle ⊢
    omega
  apply hs.step hop
  · rfl
  · exact grown_modify hk hroom
  · rfl
  · rfl
  · exact Or.inl ⟨rfl, rfl⟩
  · intro n
    simp only [Op.advance, Op.bucketed]
    rw [countedUpTo_modify hk hroom, hs.bounds_eq]
    rfl
  · trivial

theorem Op.Sound.totalling {before rows : List UInt64} {i : ℕ} {total : UInt64}
    (hs : Tallied bounds s) (hop : (Op.totalling before rows i total : Op K).Sound s.memory) :
  ((Op.totalling before rows i total).advance false s.memory).2.Sound s.memory
  := by
  obtain ⟨hrows, hlen, hi, htotal, habove, hbefore⟩ := hop
  have hsucc := countedUpTo_succ s.memory.bucketCounts i
  -- The total does not wrap around, as it is of observations that were all counted.
  have hadd : (total + s.memory.bucketCounts.getD i 0).toNat
      = total.toNat + (s.memory.bucketCounts.getD i 0).toNat := by
    have := hs.countedUpTo_le (i + 1)
    have := s.memory.count.toNat_lt
    rw [UInt64.toNat_add, Nat.mod_eq_of_lt (by omega)]
  simp only [Op.advance]
  split
  · rename_i hlt
    refine ⟨hrows, hlen, hlt, ?_, ?_, ?_⟩
    · omega
    · intro row hrow
      have := habove row hrow
      omega
    · omega
  · rename_i hge
    obtain rfl : i = rows.length := by omega
    apply sound_nextRow
    · apply rows_concat hrows
      · omega
      · omega
      · intro row hrow
        have := habove row hrow
        rw [UInt64.le_iff_toNat_le]
        omega
    · rw [List.length_append]
      exact hlen

/-- The row of the count is written. -/
theorem table_of_rows {before rows : List UInt64} (hs : Tallied bounds s)
    (hrows : Rows s.memory before rows) (hlen : rows.length = s.memory.bounds.length) :
  Table s.memory before rows s.memory.count
  := by
  refine ⟨hrows, hlen, ?_, ?_⟩
  · intro row hrow
    obtain ⟨i, hi, rfl⟩ := List.getElem_of_mem hrow
    rw [UInt64.le_iff_toNat_le]
    exact (hrows.between i hi).2.trans (hs.countedUpTo_le _)
  · intro n
    exact (hrows.grown.le n).trans (hs.countedUpTo_le n)

/-- Where a rendering goes next, it has counted nothing. -/
theorem Op.nextRow_uncounted (bounds : List K) (h : Histogram K) (before rows : List UInt64) :
  (nextRow h before rows).counted = 0 ∧ (nextRow h before rows).added = 0
    ∧ ∀ n, (nextRow h before rows).bucketed bounds n = 0
  := by
  rw [nextRow]
  split <;> exact ⟨rfl, rfl, fun _ => rfl⟩

/-- Every step of every thread keeps the counters as the operations say. -/
theorem Tallied.advance (hs : Tallied bounds s) (hop : s.ops[k]? = some op)
    (hlt : (values s.ops).length < 2 ^ 64) (fails : Bool) :
  Tallied bounds ⟨(op.advance fails s.memory).1, s.ops.set k (op.advance fails s.memory).2⟩
  := by
  have hsound : op.Sound s.memory := hs.sound op (List.mem_of_getElem? hop)
  cases op with
  | counting v => exact hs.advance_counting hop hlt
  | loading v => exact hs.read hop rfl rfl (fun _ => rfl) trivial
  | adding v oldSum =>
      rw [Op.advance]
      split
      · rename_i heq
        apply hs.step hop
        · rfl
        · apply Grown.refl
        · rfl
        · rfl
        · exact Or.inr ⟨congrArg (· + v) heq.1.symm, rfl⟩
        · exact fun _ => rfl
        · trivial
      · exact hs.read hop rfl rfl (fun _ => rfl) trivial
  | bucketing v => exact hs.advance_bucketing hop hlt
  | observed v => exact hs.read hop rfl rfl (fun _ => rfl) trivial
  | entering =>
      obtain ⟨hcounted, hadded, hbucketed⟩ :=
        Op.nextRow_uncounted bounds s.memory s.memory.bucketCounts []
      exact hs.read hop hcounted hadded hbucketed (sound_entering s.memory)
  | totalling before rows i total =>
      have hnext := hsound.totalling hs
      rw [Op.advance] at hnext ⊢
      split at hnext
      · rename_i hi
        rw [if_pos hi]
        exact hs.read hop rfl rfl (fun _ => rfl) hnext
      · rename_i hi
        rw [if_neg hi]
        obtain ⟨hcounted, hadded, hbucketed⟩ := Op.nextRow_uncounted bounds s.memory
          before (rows ++ [total + s.memory.bucketCounts.getD i 0])
        exact hs.read hop hcounted hadded hbucketed hnext
  | loadingInf before rows =>
      exact hs.read hop rfl rfl (fun _ => rfl)
        ⟨table_of_rows hs hsound.1 hsound.2, UInt64.le_refl _⟩
  | loadingSum before rows inf => exact hs.read hop rfl rfl (fun _ => rfl) hsound
  | loadingCount before rows inf sum =>
      exact hs.read hop rfl rfl (fun _ => rfl) ⟨hsound.1, hsound.2, UInt64.le_refl _⟩
  | rendered before rows inf sum count => exact hs.read hop rfl rfl (fun _ => rfl) hsound

/-- A call has done nothing yet. -/
theorem Tallied.call (hs : Tallied bounds s) (c : Call K) :
  Tallied bounds { s with ops := s.ops ++ [scraping.start c] }
  := by
  have hstart : (scraping.start c : Op K).counted = 0 ∧ (scraping.start c : Op K).added = 0
      ∧ (∀ n, (scraping.start c : Op K).bucketed bounds n = 0)
      ∧ (scraping.start c : Op K).Sound s.memory := by
    cases c <;> exact ⟨rfl, rfl, fun _ => rfl, trivial⟩
  obtain ⟨hcounted, hadded, hbucketed, hsound⟩ := hstart
  refine ⟨hs.bounds_eq, ?_, ?_, ?_, ?_⟩
  · simp only [List.map_append, List.map_singleton, List.sum_append, List.sum_singleton, hcounted]
    exact hs.count_eq
  · simp only [List.map_append, List.map_singleton, List.sum_append, List.sum_singleton, hadded,
      add_zero]
    exact hs.sum_eq
  · intro n
    simp only [List.map_append, List.map_singleton, List.sum_append, List.sum_singleton,
      hbucketed n]
    exact hs.buckets_eq n
  · intro op hop
    rcases List.mem_append.mp hop with hold | hnew
    · exact hs.sound op hold
    · rw [List.mem_singleton.mp hnew]
      exact hsound

end Steps

theorem tallied_fresh (bounds : List K) :
  Tallied bounds (fresh bounds)
  := by
  refine ⟨rfl, rfl, rfl, ?_, ?_⟩
  · intro n
    apply countedUpTo_replicate
  · intro op hop
    cases hop

/-- In every run in which the values are fewer than `2 ^ 64`. -/
theorem tallied_run (bounds : List K) (actions : List (Action (Call K) Bool))
    (hlt : (values (run scraping (fresh bounds) actions).ops).length < 2 ^ 64) :
  Tallied bounds (run scraping (fresh bounds) actions)
  := by
  -- The values only become more, so that they were fewer all the time.
  refine run_induction (p := scraping)
    (P := fun s => (values s.ops).length < 2 ^ 64 → Tallied bounds s) ?_ ?_
    (fun _ => tallied_fresh bounds) actions hlt
  · intro s c ih hlt
    apply Tallied.call
    apply ih
    rw [values, List.filterMap_append, List.length_append] at hlt
    exact lt_of_le_of_lt (Nat.le_add_right _ _) hlt
  · intro s k op fails ih hop hlt
    have hvalues := values_set hop (Op.value_advance fails s.memory op)
    replace hlt : (values s.ops).length < 2 ^ 64 := hvalues ▸ hlt
    exact (ih hlt).advance hop hlt fails

/-- A rendering that has returned has a row for each bound. From the first row to the row of all
and the count, the numbers do not decrease. Each row has at least what its buckets had counted when
the rendering began, and not more than they have counted now. -/
theorem scrape_consistent (bounds : List K) (actions : List (Action (Call K) Bool))
    (hlt : (values (run scraping (fresh bounds) actions).ops).length < 2 ^ 64)
    {before rows : List UInt64} {inf count : UInt64} {sum : K}
    (hop : Op.rendered before rows inf sum count ∈ (run scraping (fresh bounds) actions).ops) :
  let h := (run scraping (fresh bounds) actions).memory
  rows.length = bounds.length ∧ (rows ++ [inf, count]).Pairwise (· ≤ ·)
    ∧ (∀ i (hi : i < rows.length), countedUpTo before (i + 1) ≤ rows[i].toNat
      ∧ rows[i].toNat ≤ countedUpTo h.bucketCounts (i + 1))
    ∧ (∀ n, countedUpTo before n ≤ inf.toNat) ∧ count ≤ h.count
  := by
  intro h
  have hs := tallied_run bounds actions hlt
  obtain ⟨htable, hinf, hcount⟩ := hs.sound _ hop
  refine ⟨htable.length_eq.trans (congrArg _ hs.bounds_eq), ?_, htable.between, htable.before_le,
    hcount⟩
  rw [List.pairwise_append]
  refine ⟨htable.sorted, ?_, ?_⟩
  · simpa using hinf
  · intro row hrow last hlast
    have hrow := htable.row_le row hrow
    rcases List.mem_pair.mp hlast with rfl | rfl
    · exact hrow
    · exact UInt64.le_trans hrow hinf

/-- A rendering while an observation is between its count and its bucket. -/
theorem scrape_consistent_between :
  let actions : List (Action (Call ℤ) Bool) :=
    [.call (.observe 5), .call .renderPrometheus, .advance 1 false, .advance 0 false,
      .advance 1 false, .advance 1 false, .advance 0 false, .advance 0 false, .advance 1 false,
      .advance 1 false]
  (run scraping (fresh [10]) actions).ops = [.bucketing 5, .rendered [0, 0] [0] 1 5 1]
    ∧ ([0] ++ [1, 1] : List UInt64).Pairwise (· ≤ ·)
  := by
  intro actions
  have hrun : (run scraping (fresh [10]) actions).ops
      = [.bucketing 5, .rendered [0, 0] [0] 1 5 1] := by rfl
  refine ⟨hrun, ?_⟩
  have hop : Op.rendered [0, 0] [0] 1 5 1 ∈ (run scraping (fresh [10]) actions).ops := by
    rw [hrun]
    exact List.mem_of_getElem? (i := 1) rfl
  exact (scrape_consistent [10] actions (by rw [hrun]; decide) hop).2.1

/-! ### When the observations have returned -/

theorem observations_concat (h : Histogram K) (vs : List K) (v : K) :
  h.observations (vs ++ [v]) = (h.observations vs).observe v
  := List.foldl_append

theorem sum_observations (bounds : List K) (vs : List K) :
  ((Histogram.make bounds).observations vs).sum = vs.sum
  := by
  induction vs using List.reverseRecOn with
  | nil => rfl
  | append_singleton vs v ih =>
      rw [observations_concat, Histogram.observe, ih, List.sum_append, List.sum_singleton]

theorem countedUpTo_observations (bounds : List K) {vs : List K} (hlt : vs.length < 2 ^ 64)
    (n : ℕ) :
  countedUpTo ((Histogram.make bounds).observations vs).bucketCounts n
    = vs.countP (Histogram.upperBound bounds · < n)
  := by
  induction vs using List.reverseRecOn generalizing n with
  | nil => apply countedUpTo_replicate
  | append_singleton vs v ih =>
      rw [List.length_append, List.length_singleton] at hlt
      have ih := ih (by omega)
      have hbounds : ((Histogram.make bounds).observations vs).bounds = bounds :=
        Histogram.bounds_observations ..
      have hk : Histogram.upperBound bounds v
          < ((Histogram.make bounds).observations vs).bucketCounts.length := by
        rw [Histogram.size_eq, hbounds]
        exact Nat.lt_succ_of_le List.findIdx_le_length
      have hroom : countedUpTo ((Histogram.make bounds).observations vs).bucketCounts
          (Histogram.upperBound bounds v + 1) + 1 < 2 ^ 64 := by
        rw [ih]
        exact lt_of_le_of_lt (Nat.succ_le_succ List.countP_le_length) hlt
      simp only [observations_concat, Histogram.observe, hbounds]
      rw [countedUpTo_modify hk hroom, ih, List.countP_append, List.countP_singleton]
      simp only [decide_eq_true_eq]

/-- When every call of `observe` has returned, the histogram is as if the values had been observed
one after the other: nothing is lost, and nothing is counted twice. -/
theorem observations_of_returned (bounds : List K) (actions : List (Action (Call K) Bool))
    (hlt : (values (run scraping (fresh bounds) actions).ops).length < 2 ^ 64)
    (hops : Returned (run scraping (fresh bounds) actions).ops) :
  (run scraping (fresh bounds) actions).memory
    = (Histogram.make bounds).observations (values (run scraping (fresh bounds) actions).ops)
  := by
  obtain ⟨hbounds, hcount, hsum, hbuckets, -⟩ := tallied_run bounds actions hlt
  generalize run scraping (fresh bounds) actions = s at *
  have hbounds' : ((Histogram.make bounds).observations (values s.ops)).bounds = bounds :=
    Histogram.bounds_observations ..
  ext1
  · rw [hbounds, hbounds']
  · apply eq_of_countedUpTo
    · rw [Histogram.size_eq, Histogram.size_eq, hbounds, hbounds']
    · intro n
      rw [hbuckets, hops.sum_bucketed, countedUpTo_observations bounds hlt]
  · rw [← UInt64.toNat_inj, hcount, hops.sum_counted, Histogram.toNat_count,
      Nat.mod_eq_of_lt hlt]
  · rw [hsum, hops.sum_added, sum_observations]

/-- Two observations that load the same sum. The second one has to try again. -/
theorem observations_of_returned_twice :
  let actions : List (Action (Call ℤ) Bool) :=
    [.call (.observe 5), .call (.observe 7), .advance 0 false, .advance 1 false,
      .advance 0 false, .advance 1 false, .advance 0 false, .advance 1 false, .advance 1 false,
      .advance 0 false, .advance 1 false]
  (run scraping (fresh [10]) actions).ops = [.observed 5, .observed 7]
    ∧ (run scraping (fresh [10]) actions).memory = (Histogram.make [10]).observations [5, 7]
  := by
  intro actions
  have hrun : (run scraping (fresh [10]) actions).ops = [.observed 5, .observed 7] := by rfl
  refine ⟨hrun, ?_⟩
  have hmemory := observations_of_returned [10] actions (by rw [hrun]; decide)
    (by rw [hrun, Returned]; simp [Op.value])
  rwa [hrun] at hmemory

end Metrics
