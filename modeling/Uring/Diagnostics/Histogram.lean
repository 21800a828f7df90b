import Mathlib.Algebra.BigOperators.Group.List.Basic
import Mathlib.Algebra.BigOperators.Group.Multiset.Basic
import Mathlib.Algebra.BigOperators.Pi
import Mathlib.Algebra.Group.TransferInstance
import Mathlib.Data.UInt

/-!
# Latency histograms

A histogram is a bank of wrapping counters. Recording a duration is three separate
`fetch_add`s, so the records of several threads may interleave; merging and subtracting
snapshots are the operations of the group of counter banks.
-/

namespace Uring

/-- `LatencyHistogram`. -/
structure LatencyHistogram where
  count : UInt64
  totalNanos : UInt64
  buckets : Fin 64 → UInt64

namespace LatencyHistogram

/-- `LatencyHistogram::default()`. -/
def default : LatencyHistogram := ⟨0, 0, fun _ => 0⟩

/-- `merge`. -/
def merge (h other : LatencyHistogram) : LatencyHistogram where
  count := h.count + other.count
  totalNanos := h.totalNanos + other.totalNanos
  buckets i := h.buckets i + other.buckets i

/-- `since`. -/
def since (h earlier : LatencyHistogram) : LatencyHistogram where
  count := h.count - earlier.count
  totalNanos := h.totalNanos - earlier.totalNanos
  buckets i := h.buckets i - earlier.buckets i

/-- A histogram as a bank of counters. -/
def counters : LatencyHistogram ≃ UInt64 × UInt64 × (Fin 64 → UInt64) where
  toFun h := (h.count, h.totalNanos, h.buckets)
  invFun c := ⟨c.1, c.2.1, c.2.2⟩

/-- Counter banks form a group under wrapping addition. -/
instance : AddCommGroup LatencyHistogram := counters.addCommGroup

theorem merge_eq_add (h other : LatencyHistogram) : h.merge other = h + other := rfl

theorem since_eq_sub (h earlier : LatencyHistogram) : h.since earlier = h - earlier := rfl

@[ext] theorem ext {a b : LatencyHistogram} (hcount : a.count = b.count)
    (htotal : a.totalNanos = b.totalNanos) (hbuckets : ∀ i, a.buckets i = b.buckets i) : a = b := by
  cases a
  cases b
  simp only [mk.injEq]
  exact ⟨hcount, htotal, funext hbuckets⟩

@[simp] theorem count_zero : (0 : LatencyHistogram).count = 0 := rfl

@[simp] theorem totalNanos_zero : (0 : LatencyHistogram).totalNanos = 0 := rfl

@[simp] theorem buckets_zero (i : Fin 64) : (0 : LatencyHistogram).buckets i = 0 := rfl

@[simp] theorem count_add (a b : LatencyHistogram) : (a + b).count = a.count + b.count := rfl

@[simp] theorem totalNanos_add (a b : LatencyHistogram) :
    (a + b).totalNanos = a.totalNanos + b.totalNanos := rfl

@[simp] theorem buckets_add (a b : LatencyHistogram) (i : Fin 64) :
    (a + b).buckets i = a.buckets i + b.buckets i := rfl

end LatencyHistogram

/-- `u64::leading_zeros`. -/
def leadingZeros (n : UInt64) : Nat := n.toBitVec.clz.toNat

/-- The index computed by `record`; `none` is a subtraction that underflows or an index
out of bounds. -/
def bucketIndex (nanos : UInt64) : Option (Fin 64) :=
  let zeros := leadingZeros (max nanos 1)
  if 63 < zeros then none
  else if h : 63 - zeros < 64 then some ⟨63 - zeros, h⟩
  else none

/-- A nonzero word lies between the powers of two given by its leading zeros. -/
theorem leadingZeros_bounds {n : UInt64} (h : n ≠ 0) : leadingZeros n ≤ 63 ∧
    Nat.log2 n.toNat = 63 - leadingZeros n := by
  have hne : n.toBitVec ≠ 0 := fun hz => h (UInt64.toBitVec_inj.mp hz)
  have hlow := BitVec.two_pow_sub_clz_le_toNat_of_ne_zero (by decide) hne
  have hhigh := BitVec.toNat_lt_two_pow_sub_clz (x := n.toBitVec)
  have hlt : leadingZeros n ≤ 63 := by
    have hclz := BitVec.clz_lt_iff_ne_zero.mpr hne
    have hnat : n.toBitVec.clz.toNat < 64 := BitVec.lt_def.mp hclz
    exact Nat.le_of_lt_succ hnat
  have hpos : n.toNat ≠ 0 := fun hz => h (UInt64.toNat_inj.mp hz)
  refine ⟨hlt, (Nat.log2_eq_iff hpos).mpr ⟨hlow, ?_⟩⟩
  have hexp : 63 - leadingZeros n + 1 = 64 - n.toBitVec.clz.toNat := by
    unfold leadingZeros at hlt ⊢
    omega
  rw [hexp]
  exact hhigh

theorem toNat_max_one (n : UInt64) : (max n 1).toNat = max n.toNat 1 := by
  change (if n ≤ 1 then (1 : UInt64) else n).toNat = _
  by_cases h : n ≤ 1
  · rw [if_pos h]
    exact (max_eq_right (UInt64.le_iff_toNat_le.mp h)).symm
  · rw [if_neg h]
    have hlt : 1 < n.toNat := UInt64.lt_iff_toNat_lt.mp (UInt64.not_le.mp h)
    exact (max_eq_left hlt.le).symm

/-- The bucket of a duration: the integer part of its binary logarithm. -/
theorem log2_lt (nanos : UInt64) : Nat.log2 (max nanos.toNat 1) < 64 := by
  rw [Nat.log2_lt (by omega)]
  have hlt := nanos.toNat_lt
  omega

/-- Every duration has a bucket. -/
theorem bucketIndex_eq (nanos : UInt64) :
    bucketIndex nanos = some ⟨Nat.log2 (max nanos.toNat 1), log2_lt nanos⟩ := by
  have hne : max nanos 1 ≠ 0 := by
    intro hz
    have hnat := congrArg UInt64.toNat hz
    rw [toNat_max_one] at hnat
    have hzero : (0 : UInt64).toNat = 0 := rfl
    omega
  obtain ⟨hle, hlog⟩ := leadingZeros_bounds hne
  rw [toNat_max_one] at hlog
  unfold bucketIndex
  simp only [hlog]
  rw [if_neg (Nat.not_lt.mpr hle), dif_pos (by omega)]

/-- One `fetch_add` of `record`. -/
inductive FetchAdd
  | bucket (i : Fin 64)
  | total (nanos : UInt64)
  | count
  deriving DecidableEq, Repr

/-- `Histogram`: the counters of one stage. -/
structure Histogram where
  count : UInt64
  total : UInt64
  buckets : Fin 64 → UInt64

namespace Histogram

/-- `Histogram::default()`. -/
def default : Histogram := ⟨0, 0, fun _ => 0⟩

/-- `fetch_add`; a bucket is counted up by one. -/
def fetchAdd (h : Histogram) : FetchAdd → Histogram
  | .bucket i => { h with buckets := fun j => if j = i then h.buckets j + 1 else h.buckets j }
  | .total nanos => { h with total := h.total + nanos }
  | .count => { h with count := h.count + 1 }

/-- The `fetch_add`s of `record`; `none` is a panic. -/
def recordOps (nanos : UInt64) : Option (List FetchAdd) :=
  (bucketIndex nanos).map fun bucket => [.bucket bucket, .total nanos, .count]

/-- `record`. -/
def record (h : Histogram) (nanos : UInt64) : Option Histogram :=
  (recordOps nanos).map fun ops => ops.foldl fetchAdd h

/-- `snapshot`. -/
def snapshot (h : Histogram) : LatencyHistogram := ⟨h.count, h.total, h.buckets⟩

end Histogram

/-- What one `fetch_add` adds to a snapshot. -/
def FetchAdd.delta : FetchAdd → LatencyHistogram
  | .bucket i => ⟨0, 0, fun j => if j = i then 1 else 0⟩
  | .total nanos => ⟨0, nanos, fun _ => 0⟩
  | .count => ⟨1, 0, fun _ => 0⟩

/-- The histogram of a multiset of durations. -/
def LatencyHistogram.of (ds : Multiset UInt64) : LatencyHistogram where
  count := UInt64.ofNat ds.card
  totalNanos := UInt64.ofNat (ds.map UInt64.toNat).sum
  buckets i := UInt64.ofNat (ds.countP fun d => Nat.log2 (max d.toNat 1) = i)

namespace Histogram

theorem snapshot_fetchAdd (h : Histogram) (op : FetchAdd) :
    (h.fetchAdd op).snapshot = h.snapshot + op.delta := by
  cases op with
  | bucket i =>
    apply LatencyHistogram.ext (UInt64.add_zero _).symm (UInt64.add_zero _).symm
    intro j
    simp only [snapshot, fetchAdd, FetchAdd.delta, LatencyHistogram.buckets_add]
    by_cases hj : j = i
    · rw [if_pos hj, if_pos hj]
    · rw [if_neg hj, if_neg hj, UInt64.add_zero]
  | total nanos =>
    exact LatencyHistogram.ext (UInt64.add_zero _).symm rfl fun _ => (UInt64.add_zero _).symm
  | count =>
    exact LatencyHistogram.ext rfl (UInt64.add_zero _).symm fun _ => (UInt64.add_zero _).symm

end Histogram

namespace LatencyHistogram

theorem of_zero : of 0 = 0 := by
  ext i
  · rfl
  · rfl
  · rfl

/-- The contribution of one duration. -/
def sample (d : UInt64) : LatencyHistogram :=
  ⟨1, d, fun i => if Nat.log2 (max d.toNat 1) = i then 1 else 0⟩

theorem of_cons (d : UInt64) (ds : Multiset UInt64) : of (d ::ₘ ds) = sample d + of ds := by
  apply LatencyHistogram.ext
  · simp only [of, sample, Multiset.card_cons, count_add]
    rw [Nat.add_comm, UInt64.ofNat_add]
    rfl
  · simp only [of, sample, Multiset.map_cons, Multiset.sum_cons, totalNanos_add, UInt64.ofNat_add,
      UInt64.ofNat_toNat]
  · intro i
    simp only [of, sample, Multiset.countP_cons, buckets_add]
    rw [Nat.add_comm, UInt64.ofNat_add]
    by_cases hi : Nat.log2 (max d.toNat 1) = i
    · rw [if_pos hi, if_pos hi]
      rfl
    · rw [if_neg hi, if_neg hi]
      rfl

/-- The histogram of durations is the sum of their contributions. -/
theorem of_eq_sum (ds : Multiset UInt64) : of ds = (ds.map sample).sum := by
  induction ds using Multiset.induction_on with
  | empty => exact of_zero
  | cons d ds ih => rw [of_cons, Multiset.map_cons, Multiset.sum_cons, ih]

/-- The buckets add up. -/
def bucketSum : LatencyHistogram →+ UInt64 where
  toFun h := ∑ i, h.buckets i
  map_zero' := Finset.sum_const_zero
  map_add' _ _ := Finset.sum_add_distrib

theorem bucketSum_sample (d : UInt64) : bucketSum (sample d) = 1 := by
  change (∑ i : Fin 64, if Nat.log2 (max d.toNat 1) = i then (1 : UInt64) else 0) = 1
  rw [Finset.sum_eq_single ⟨Nat.log2 (max d.toNat 1), log2_lt d⟩]
  · rw [if_pos rfl]
  · intro i _ hi
    rw [if_neg]
    exact fun heq => hi (Fin.ext heq.symm)
  · exact fun h => absurd (Finset.mem_univ _) h

/-- Every duration is counted in exactly one bucket. -/
theorem bucketSum_of (ds : Multiset UInt64) : bucketSum (of ds) = (of ds).count := by
  induction ds using Multiset.induction_on with
  | empty => exact bucketSum.map_zero
  | cons d ds ih => rw [of_cons, map_add, bucketSum_sample, ih, count_add]; rfl

end LatencyHistogram

end Uring
