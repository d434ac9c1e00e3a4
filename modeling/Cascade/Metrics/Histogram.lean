import Cascade.Metrics.Printing

/-!
# Histograms

The model of the histograms of `metrics/metrics_registry.hpp` and of how they are rendered for
Prometheus. The source computes with doubles; the values here are of any linear order that can be
added, such as the rationals.

A value is counted in the bucket of the first bound above it. So the counts up to a bound are of
the values that are less than it (`cumulativeCount_observations`), whereas the label `le` of a
bucket announces those that are at most its bound. The two agree when no value is equal to a bound,
and the labels are the bounds when these have at most six significant digits (`prometheus_iff`).
-/

namespace Metrics

variable {K : Type}

/-- Fixed buckets, one for each bound and one more for the values above all bounds. -/
structure Histogram (K : Type) where
  bounds : List K
  bucketCounts : List UInt64
  count : UInt64
  sum : K
  size_eq : bucketCounts.length = bounds.length + 1

namespace Histogram

/-- The constructor. -/
def make [Zero K] (bucketBounds : List K) : Histogram K where
  bounds := bucketBounds
  bucketCounts := List.replicate (bucketBounds.length + 1) 0
  count := 0
  sum := 0
  size_eq := List.length_replicate

def cumulativeCount (h : Histogram K) (boundIndex : ℕ) : UInt64 :=
  (h.bucketCounts.take (boundIndex + 1)).foldl (· + ·) 0

/-- The buckets as they are rendered, with what is written for their `le`. The parameter is how a
number is written. -/
def buckets (num : K → String) (h : Histogram K) : List (String × UInt64) :=
  h.bounds.zipIdx.map (fun (bound, i) => (num bound, h.cumulativeCount i)) ++ [("+Inf", h.count)]

/-- What `render_prometheus` writes for a histogram. -/
def render (num : K → String) (name : String) (h : Histogram K) : String :=
  "# TYPE " ++ name ++ " histogram\n"
    ++ String.join ((h.buckets num).map fun (le, count) =>
      name ++ "_bucket\x7ble=\"" ++ le ++ "\"\x7d " ++ toString count ++ "\n")
    ++ name ++ "_sum " ++ num h.sum ++ "\n"
    ++ name ++ "_count " ++ toString h.count ++ "\n"

theorem cumulativeCount_eq_sum (h : Histogram K) (i : ℕ) :
  h.cumulativeCount i = (h.bucketCounts.take (i + 1)).sum
  := (List.sum_eq_foldl ..).symm

theorem cumulativeCount_make [Zero K] (bounds : List K) (i : ℕ) :
  (make bounds).cumulativeCount i = 0
  := by
  rw [cumulativeCount_eq_sum, make, List.take_replicate, List.sum_replicate, smul_zero]

/-- One more in a bucket is one more in each sum that reaches it. -/
theorem sum_take_modify (counts : List UInt64) {k : ℕ} (hk : k < counts.length) (n : ℕ) :
  ((counts.modify k (· + 1)).take n).sum
    = (counts.take n).sum + if k < n then 1 else 0
  := by
  induction counts generalizing k n with
  | nil => exact absurd hk (Nat.not_lt_zero k)
  | cons c counts ih =>
      cases n with
      | zero => simp
      | succ n =>
          cases k with
          | zero =>
              simp only [List.modify_zero_cons, List.take_succ_cons, List.sum_cons,
                Nat.zero_lt_succ, if_true]
              ac_rfl
          | succ k =>
              rw [List.modify_succ_cons, List.take_succ_cons, List.sum_cons,
                ih (Nat.lt_of_succ_lt_succ hk), List.take_succ_cons, List.sum_cons, ← add_assoc]
              simp only [Nat.succ_lt_succ_iff]

/-- The rendered values, from the first bucket to the last. -/
theorem buckets_snd (num : K → String) (h : Histogram K) :
  (h.buckets num).map Prod.snd
    = (List.range h.bounds.length).map h.cumulativeCount ++ [h.count]
  := by
  have hidx : h.bounds.zipIdx.map Prod.snd = List.range h.bounds.length := by
    rw [List.zipIdx_map_snd, List.range_eq_range']
  rw [buckets, List.map_append, List.map_map, ← hidx, List.map_map]
  rfl

theorem buckets_getElem? (num : K → String) (h : Histogram K) {i : ℕ} (hi : i < h.bounds.length) :
  (h.buckets num)[i]? = some (num h.bounds[i], h.cumulativeCount i)
  := by
  have hi' :
      i < (h.bounds.zipIdx.map fun (bound, i) => (num bound, h.cumulativeCount i)).length := by
    rwa [List.length_map, List.length_zipIdx]
  rw [buckets, List.getElem?_append_left hi', List.getElem?_map, List.getElem?_zipIdx,
    List.getElem?_eq_getElem hi]
  simp

/-! ### Observations -/

variable [LinearOrder K]

/-- The position that `std::upper_bound` returns on sorted bounds: that of the first one which is
greater than the value, or the end. -/
def upperBound (bounds : List K) (v : K) : ℕ := bounds.findIdx (v < ·)

/-- The bucket of a value is at most that of a bound if the value is less than the bound. -/
theorem upperBound_le_iff {bounds : List K} (hb : bounds.Pairwise (· < ·)) {i : ℕ}
    (hi : i < bounds.length) (v : K) :
  upperBound bounds v ≤ i ↔ v < bounds[i]
  := by
  constructor
  · intro hle
    have hlt : upperBound bounds v < bounds.length := lt_of_le_of_lt hle hi
    have habove : v < bounds[upperBound bounds v] := by
      exact of_decide_eq_true (List.findIdx_getElem (w := hlt))
    rcases hle.eq_or_lt with heq | hlt'
    · simpa only [heq] using habove
    · exact habove.trans (List.pairwise_iff_getElem.mp hb _ _ hlt hi hlt')
  · intro hv
    by_contra hlt
    have := List.not_of_lt_findIdx (not_le.mp hlt)
    simp [hv] at this

/-- The values at most a bound, and those below it. -/
theorem countP_le (vs : List K) (bound : K) :
  vs.countP (· ≤ bound) = vs.countP (· < bound) + vs.count bound
  := by
  induction vs with
  | nil => rfl
  | cons v vs ih =>
      rw [List.countP_cons, List.countP_cons, List.count_cons, ih]
      rcases lt_trichotomy v bound with hlt | rfl | hgt
      · simp only [hlt, hlt.le, hlt.ne, decide_true, if_true, beq_iff_eq, if_false]
        omega
      · simp only [le_refl, lt_irrefl, decide_true, decide_false, if_true, beq_self_eq_true,
          Bool.false_eq_true, if_false]
        omega
      · simp only [hgt.not_ge, hgt.not_gt, hgt.ne', decide_false, Bool.false_eq_true, if_false,
          beq_iff_eq, Nat.add_zero]

variable [Add K]

def observe (h : Histogram K) (v : K) : Histogram K where
  bounds := h.bounds
  bucketCounts := h.bucketCounts.modify (upperBound h.bounds v) (· + 1)
  count := h.count + 1
  sum := h.sum + v
  size_eq := (List.length_modify ..).trans h.size_eq

def observations (h : Histogram K) (vs : List K) : Histogram K := vs.foldl observe h

/-! ### The counters after some observations -/

theorem bounds_observations (h : Histogram K) (vs : List K) :
  (h.observations vs).bounds = h.bounds
  := by
  induction vs generalizing h with
  | nil => rfl
  | cons v vs ih => exact ih (h.observe v)

theorem count_observations (h : Histogram K) (vs : List K) :
  (h.observations vs).count = h.count + UInt64.ofNat vs.length
  := by
  induction vs generalizing h with
  | nil => exact (UInt64.add_zero _).symm
  | cons v vs ih =>
      rw [observations, List.foldl_cons, ← observations, ih, observe, List.length_cons,
        Nat.add_comm, UInt64.ofNat_add, UInt64.add_assoc]
      rfl

theorem cumulativeCount_observe (h : Histogram K) (v : K) (i : ℕ) :
  (h.observe v).cumulativeCount i
    = h.cumulativeCount i + if upperBound h.bounds v ≤ i then 1 else 0
  := by
  have hk : upperBound h.bounds v < h.bucketCounts.length := by
    rw [h.size_eq]
    exact Nat.lt_succ_of_le List.findIdx_le_length
  rw [cumulativeCount_eq_sum, cumulativeCount_eq_sum, observe, sum_take_modify _ hk]
  simp only [Nat.lt_succ_iff]

theorem cumulativeCount_observations (h : Histogram K) (vs : List K) (i : ℕ) :
  (h.observations vs).cumulativeCount i
    = h.cumulativeCount i + UInt64.ofNat (vs.countP fun v => upperBound h.bounds v ≤ i)
  := by
  induction vs generalizing h with
  | nil => exact (UInt64.add_zero _).symm
  | cons v vs ih =>
      rw [observations, List.foldl_cons, ← observations, ih, cumulativeCount_observe,
        List.countP_cons, Nat.add_comm, UInt64.ofNat_add, UInt64.add_assoc]
      simp only [observe, decide_eq_true_eq]
      split <;> rfl

/-- What a bucket of a new histogram counts: the values that are less than its bound. -/
theorem toNat_cumulativeCount [Zero K] {bounds : List K} (hb : bounds.Pairwise (· < ·)) {i : ℕ}
    (hi : i < bounds.length) (vs : List K) :
  (((make bounds).observations vs).cumulativeCount i).toNat
    = vs.countP (· < bounds[i]) % 2 ^ 64
  := by
  have hbelow : (fun v => decide (upperBound bounds v ≤ i)) = fun v => decide (v < bounds[i]) := by
    funext v
    exact decide_eq_decide.mpr (upperBound_le_iff hb hi v)
  rw [cumulativeCount_observations, cumulativeCount_make, UInt64.zero_add, UInt64.toNat_ofNat']
  change vs.countP (fun v => decide (upperBound bounds v ≤ i)) % 2 ^ 64 = _
  rw [hbelow]

theorem toNat_count [Zero K] (bounds vs : List K) :
  ((make bounds).observations vs).count.toNat = vs.length % 2 ^ 64
  := by
  rw [count_observations, make, UInt64.zero_add, UInt64.toNat_ofNat']

/-! ### Prometheus -/

/-- As long as the counters do not wrap around, the buckets do not decrease. -/
theorem buckets_pairwise [Zero K] (num : K → String) {bounds : List K}
    (hb : bounds.Pairwise (· < ·)) {vs : List K} (hvs : vs.length < 2 ^ 64) :
  ((((make bounds).observations vs).buckets num).map Prod.snd).Pairwise (· ≤ ·)
  := by
  have hlt : ∀ p : K → Bool, vs.countP p % 2 ^ 64 = vs.countP p := fun p =>
    Nat.mod_eq_of_lt (lt_of_le_of_lt List.countP_le_length hvs)
  rw [buckets_snd, bounds_observations, List.pairwise_append]
  refine ⟨?_, List.pairwise_singleton .., ?_⟩
  · rw [List.pairwise_map]
    apply List.pairwise_lt_range.imp_of_mem
    intro i j hi hj hij
    have hi' : i < bounds.length := List.mem_range.mp hi
    have hj' : j < bounds.length := List.mem_range.mp hj
    rw [UInt64.le_iff_toNat_le, toNat_cumulativeCount hb hi', toNat_cumulativeCount hb hj', hlt,
      hlt]
    apply List.countP_mono_left
    intro v _ hv
    have hbound := List.pairwise_iff_getElem.mp hb i j hi' hj' hij
    exact decide_eq_true ((of_decide_eq_true hv).trans hbound)
  · intro c hc total htotal
    obtain ⟨i, hi, rfl⟩ := List.mem_map.mp hc
    rw [List.mem_singleton.mp htotal, UInt64.le_iff_toNat_le,
      toNat_cumulativeCount hb (List.mem_range.mp hi), toNat_count, hlt, Nat.mod_eq_of_lt hvs]
    exact List.countP_le_length

/-- The buckets are rendered in the order of the bounds and end with the count. They are what their
labels say, the labels are the bounds, and the count is the number of values, if and only if no
value is equal to a bound, the values are fewer than `2 ^ 64`, and the bounds have at most six
significant digits. -/
theorem prometheus_iff (bounds : List ℚ) (hb : bounds.Pairwise (· < ·)) (vs : List ℚ) :
  let h : Histogram ℚ := (make bounds).observations vs
  (∀ i (hi : i < bounds.length),
      (h.buckets print)[i]? = some (print bounds[i], h.cumulativeCount i))
    ∧ (h.buckets print).getLast? = some ("+Inf", h.count)
    ∧ (((∀ i (hi : i < bounds.length), (decimal bounds[i]).value = bounds[i]
            ∧ (h.cumulativeCount i).toNat = vs.countP (· ≤ bounds[i]))
          ∧ h.count.toNat = vs.length
          ∧ ((h.buckets print).map Prod.snd).Pairwise (· ≤ ·))
      ↔ (∀ v ∈ vs, v ∉ bounds) ∧ vs.length < 2 ^ 64 ∧ ∀ b ∈ bounds, SixDigits b)
  := by
  intro h
  have hbounds : h.bounds = bounds := bounds_observations ..
  refine ⟨?_, List.getLast?_concat .., ?_, ?_⟩
  · intro i hi
    rw [buckets_getElem? print h (hbounds ▸ hi)]
    simp only [hbounds]
  · rintro ⟨hbuckets, hcount, -⟩
    have hvs : vs.length < 2 ^ 64 := by
      rw [← hcount]
      exact UInt64.toNat_lt _
    refine ⟨?_, hvs, ?_⟩
    · intro v hv hmem
      obtain ⟨i, hi, rfl⟩ := List.getElem_of_mem hmem
      have heq := (hbuckets i hi).2
      rw [toNat_cumulativeCount hb hi, countP_le,
        Nat.mod_eq_of_lt (lt_of_le_of_lt List.countP_le_length hvs)] at heq
      have hpos := List.count_pos_iff.mpr hv
      omega
    · intro b hmem
      obtain ⟨i, hi, rfl⟩ := List.getElem_of_mem hmem
      exact (decimal_value_iff _).mp (hbuckets i hi).1
  · rintro ⟨hnone, hvs, hdigits⟩
    refine ⟨?_, ?_, buckets_pairwise print hb hvs⟩
    · intro i hi
      have hcount : vs.count bounds[i] = 0 :=
        List.count_eq_zero.mpr fun hv => hnone _ hv (List.getElem_mem hi)
      refine ⟨(decimal_value_iff _).mpr (hdigits _ (List.getElem_mem hi)), ?_⟩
      rw [toNat_cumulativeCount hb hi, countP_le, hcount,
        Nat.mod_eq_of_lt (lt_of_le_of_lt List.countP_le_length hvs), Nat.add_zero]
    · rw [toNat_count, Nat.mod_eq_of_lt hvs]

/-- The values of the source's own test, none of which is a bound. -/
theorem prometheus_tested :
  let bounds : List ℚ := [10, 100, 1000]
  let h := (make bounds).observations [5, 50, 500, 5000]
  (decimal 10).value = 10 ∧ (h.cumulativeCount 0).toNat = 1 ∧ h.count.toNat = 4
  := by
  intro bounds h
  have hb : bounds.Pairwise (· < ·) := by decide +kernel
  have hdigits : ∀ b ∈ bounds, SixDigits b := by
    simp only [bounds, List.forall_mem_cons, List.not_mem_nil, false_implies, implies_true]
    exact ⟨⟨1, 1, by norm_num⟩, ⟨1, 2, by norm_num⟩, ⟨1, 3, by norm_num⟩, trivial⟩
  obtain ⟨-, -, hiff⟩ := prometheus_iff bounds hb [5, 50, 500, 5000]
  obtain ⟨hbuckets, hcount, -⟩ := hiff.mpr ⟨by decide +kernel, by decide, hdigits⟩
  obtain ⟨hlabel, hfirst⟩ := hbuckets 0 (by decide)
  exact ⟨hlabel, hfirst, hcount⟩

/-- A value that is equal to a bound is not counted in the bucket of the bound. -/
theorem observe_bound :
  let h := (make [(10 : ℚ)]).observations [10]
  (h.cumulativeCount 0).toNat = 0 ∧ [(10 : ℚ)].countP (· ≤ 10) = 1
    ∧ h.render print "test"
      = "# TYPE test histogram\ntest_bucket\x7ble=\"10\"\x7d 0\ntest_bucket\x7ble=\"+Inf\"\x7d 1\n"
        ++ "test_sum 10\ntest_count 1\n"
  := by
  decide +kernel

end Histogram

end Metrics
