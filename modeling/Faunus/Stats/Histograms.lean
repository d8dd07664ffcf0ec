import Mathlib.Algebra.BigOperators.Group.Finset.Basic
import Mathlib.Data.BitVec

/-! The histograms of the benchmark's statistics.

Every thread records the bytes of its operations in a histogram with a bucket for each
power of two. The histograms of all threads are put together by recording, for every
sample of a bucket, a value that stands for the bucket.
-/

set_option autoImplicit false

namespace Faunus.Stats

/-- Counts of the values 0 to 254, and of all others together. -/
structure DiscreteHistogram where
  buckets : ℕ → ℕ
  totalSamples : ℕ

def DiscreteHistogram.empty : DiscreteHistogram := ⟨fun _ => 0, 0⟩

def DiscreteHistogram.record (h : DiscreteHistogram) (value : BitVec 32) : DiscreteHistogram where
  buckets := Function.update h.buckets (min value.toNat 255) (h.buckets (min value.toNat 255) + 1)
  totalSamples := h.totalSamples + 1

structure LogarithmicByteHistogram where
  buckets : ℕ → BitVec 64
  totalSamples : BitVec 64
  totalBytes : BitVec 64

namespace LogarithmicByteHistogram

def empty : LogarithmicByteHistogram := ⟨fun _ => 0, 0, 0⟩

/-- The loop of `get_bucket_index` from a bucket on, with at most the given number of rounds. -/
def bucketLoop (bytes : BitVec 64) : ℕ → ℕ → ℕ
  | 0, bucket => bucket
  | rounds + 1, bucket => if 1#64 <<< bucket < bytes ∧ bucket < 31 then bucketLoop bytes rounds (bucket + 1) else bucket

def getBucketIndex (bytes : BitVec 64) : ℕ := if bytes = 0 then 0 else bucketLoop bytes 31 0

def record (h : LogarithmicByteHistogram) (bytes : BitVec 64) : LogarithmicByteHistogram where
  buckets := Function.update h.buckets (getBucketIndex bytes) (h.buckets (getBucketIndex bytes) + 1)
  totalSamples := h.totalSamples + 1
  totalBytes := h.totalBytes + bytes

/-- The value that stands for a bucket in `get_distribution`. -/
def bucketValue (i : ℕ) : BitVec 64 := if i = 0 then 0 else 1#64 <<< i

def distributionEntry (h : LogarithmicByteHistogram) (i : ℕ) : Option (BitVec 64 × BitVec 64) :=
  if 0 < h.buckets i then some (bucketValue i, h.buckets i) else none

/-- The value and the count of every bucket that is not empty. -/
def getDistribution (h : LogarithmicByteHistogram) : List (BitVec 64 × BitVec 64) := (List.range 32).filterMap h.distributionEntry

def recordTimes (h : LogarithmicByteHistogram) (entry : BitVec 64 × BitVec 64) : LogarithmicByteHistogram :=
  (fun h => h.record entry.1)^[entry.2.toNat] h

def reRecord (merged h : LogarithmicByteHistogram) : LogarithmicByteHistogram := h.getDistribution.foldl recordTimes merged

def aggregate (threads : List LogarithmicByteHistogram) : LogarithmicByteHistogram := threads.foldl reRecord empty

/-! ## One bucket -/

theorem bucketLoop_le (bytes : BitVec 64) (rounds bucket : ℕ) (low : bucket ≤ 31) : bucketLoop bytes rounds bucket ≤ 31 := by
  induction rounds generalizing bucket with
  | zero => exact low
  | succ rounds ih =>
    unfold bucketLoop
    split
    · exact ih (bucket + 1) (by omega)
    · exact low

theorem getBucketIndex_lt (bytes : BitVec 64) : getBucketIndex bytes < 32 := by
  unfold getBucketIndex
  split
  · decide
  · have := bucketLoop_le bytes 31 0 (by decide)
    omega

theorem getBucketIndex_bucketValue {i : ℕ} (inside : i < 32) : getBucketIndex (bucketValue i) = i :=
  (by decide : ∀ i : Fin 32, getBucketIndex (bucketValue i) = i.val) ⟨i, inside⟩

theorem record_iterate (h : LogarithmicByteHistogram) (bytes : BitVec 64) (n : ℕ) :
    (fun h => h.record bytes)^[n] h =
      ⟨Function.update h.buckets (getBucketIndex bytes) (h.buckets (getBucketIndex bytes) + n), h.totalSamples + n,
        h.totalBytes + n * bytes⟩ := by
  induction n with
  | zero => simp
  | succ n ih =>
    rw [Function.iterate_succ_apply', ih]
    simp only [record, Function.update_self, Function.update_idem, Nat.cast_succ, mk.injEq]
    refine ⟨?_, ?_, ?_⟩
    · rw [add_assoc]
    · rw [add_assoc]
    · rw [add_mul, one_mul, add_assoc]

theorem recordTimes_bucket (merged h : LogarithmicByteHistogram) {i : ℕ} (inside : i < 32) :
    merged.recordTimes (bucketValue i, h.buckets i) =
      ⟨Function.update merged.buckets i (merged.buckets i + h.buckets i), merged.totalSamples + h.buckets i,
        merged.totalBytes + h.buckets i * bucketValue i⟩ := by
  have count : ((h.buckets i).toNat : BitVec 64) = h.buckets i := by
    apply BitVec.eq_of_toNat_eq
    simp
  rw [recordTimes, record_iterate, getBucketIndex_bucketValue inside, count]

/-! ## All buckets -/

theorem reRecord_below (merged h : LogarithmicByteHistogram) {n : ℕ} (inside : n ≤ 32) :
    ((List.range n).filterMap h.distributionEntry).foldl recordTimes merged =
      ⟨fun i => merged.buckets i + if i < n then h.buckets i else 0, merged.totalSamples + ∑ i ∈ Finset.range n, h.buckets i,
        merged.totalBytes + ∑ i ∈ Finset.range n, h.buckets i * bucketValue i⟩ := by
  -- re-recording the buckets below a bound
  induction n with
  | zero => simp
  | succ n ih =>
    rw [List.range_succ, List.filterMap_append, List.foldl_append, ih (by omega), Finset.sum_range_succ, Finset.sum_range_succ]
    by_cases counted : 0 < h.buckets n
    · have entry : h.distributionEntry n = some (bucketValue n, h.buckets n) := if_pos counted
      rw [List.filterMap_cons_some entry, List.filterMap_nil, List.foldl_cons, List.foldl_nil, recordTimes_bucket _ h (by omega)]
      simp only [mk.injEq, add_assoc, and_true]
      funext i
      by_cases here : i = n
      · subst here
        simp
      · have next : i < n + 1 ↔ i < n := by omega
        simp [here, next]
    · have zero : h.buckets n = 0 := by
        apply BitVec.eq_of_toNat_eq
        rw [BitVec.lt_def] at counted
        exact Nat.eq_zero_of_not_pos counted
      have entry : h.distributionEntry n = none := if_neg counted
      rw [List.filterMap_cons_none entry, List.filterMap_nil, List.foldl_nil, zero, zero_mul, add_zero, add_zero]
      simp only [mk.injEq, and_true]
      funext i
      by_cases here : i = n
      · subst here
        simp [zero]
      · have next : i < n + 1 ↔ i < n := by omega
        simp only [next]

theorem reRecord_eq (merged h : LogarithmicByteHistogram) :
    merged.reRecord h =
      ⟨fun i => merged.buckets i + if i < 32 then h.buckets i else 0, merged.totalSamples + ∑ i ∈ Finset.range 32, h.buckets i,
        merged.totalBytes + ∑ i ∈ Finset.range 32, h.buckets i * bucketValue i⟩ :=
  reRecord_below merged h (le_refl 32)

theorem foldl_reRecord (merged : LogarithmicByteHistogram) (threads : List LogarithmicByteHistogram) :
    (∀ i < 32, (threads.foldl reRecord merged).buckets i =
        merged.buckets i + (threads.map fun h => h.buckets i).sum) ∧
      (threads.foldl reRecord merged).totalSamples =
        merged.totalSamples + (threads.map fun h => ∑ i ∈ Finset.range 32, h.buckets i).sum ∧
      (threads.foldl reRecord merged).totalBytes =
        merged.totalBytes + (threads.map fun h => ∑ i ∈ Finset.range 32, h.buckets i * bucketValue i).sum := by
  induction threads generalizing merged with
  | nil => simp
  | cons h rest ih =>
    obtain ⟨buckets, samples, bytes⟩ := ih (merged.reRecord h)
    simp only [List.foldl_cons, List.map_cons, List.sum_cons]
    refine ⟨fun i inside => ?_, ?_, ?_⟩
    · rw [buckets i inside, reRecord_eq, add_assoc]
      simp only [if_pos inside]
    · rw [samples, reRecord_eq, add_assoc]
    · rw [bytes, reRecord_eq, add_assoc]

/-! ## The samples of a thread -/

/-- The histogram of a thread that has recorded the samples. -/
def recorded (samples : List (BitVec 64)) : LogarithmicByteHistogram := samples.foldl record empty

/-- What a sample counts for after the aggregation. -/
def representative (bytes : BitVec 64) : BitVec 64 := bucketValue (getBucketIndex bytes)

theorem sum_update {f : ℕ → BitVec 64} {k : ℕ} (inside : k < 32) (weight : ℕ → BitVec 64) :
    ∑ i ∈ Finset.range 32, Function.update f k (f k + 1) i * weight i = ∑ i ∈ Finset.range 32, f i * weight i + weight k := by
  have member : k ∈ Finset.range 32 := Finset.mem_range.2 inside
  rw [← Finset.add_sum_erase _ _ member, ← Finset.add_sum_erase (Finset.range 32) (fun i => f i * weight i) member,
    Function.update_self]
  have rest : ∑ i ∈ (Finset.range 32).erase k, Function.update f k (f k + 1) i * weight i = ∑ i ∈ (Finset.range 32).erase k,
    f i * weight i := by
    refine Finset.sum_congr rfl fun i other => ?_
    rw [Function.update_of_ne (Finset.ne_of_mem_erase other)]
  rw [rest, add_mul, one_mul, add_right_comm]

theorem foldl_record (h : LogarithmicByteHistogram) (samples : List (BitVec 64)) (weight : ℕ → BitVec 64) :
    ∑ i ∈ Finset.range 32, (samples.foldl record h).buckets i * weight i =
      ∑ i ∈ Finset.range 32, h.buckets i * weight i + (samples.map fun bytes => weight (getBucketIndex bytes)).sum := by
  induction samples generalizing h with
  | nil => simp
  | cons bytes rest ih =>
    rw [List.foldl_cons, ih, List.map_cons, List.sum_cons, ← add_assoc]
    rw [← sum_update (getBucketIndex_lt bytes) weight]
    rfl

theorem foldl_record_totalSamples (h : LogarithmicByteHistogram) (samples : List (BitVec 64)) :
    (samples.foldl record h).totalSamples = h.totalSamples + (samples.map fun _ => 1).sum := by
  induction samples generalizing h with
  | nil => simp
  | cons bytes rest ih =>
    rw [List.foldl_cons, ih, List.map_cons, List.sum_cons, ← add_assoc]
    rfl

theorem recorded_samples (samples : List (BitVec 64)) :
    ∑ i ∈ Finset.range 32, (recorded samples).buckets i = (recorded samples).totalSamples := by
  have counts := foldl_record empty samples fun _ => 1
  simp only [mul_one] at counts
  rw [recorded, counts, foldl_record_totalSamples]
  simp [empty]

theorem recorded_representatives (samples : List (BitVec 64)) :
    ∑ i ∈ Finset.range 32, (recorded samples).buckets i * bucketValue i = (samples.map representative).sum := by
  rw [recorded, foldl_record]
  simp only [empty, zero_mul, Finset.sum_const_zero, zero_add]
  rfl

/-- The merged histogram counts every sample of every thread, each with the bytes that stand for its bucket. -/
theorem aggregate_recorded (threads : List (List (BitVec 64))) :
    (∀ i < 32, (aggregate (threads.map recorded)).buckets i = (threads.map fun samples => (recorded samples).buckets i).sum) ∧
      (aggregate (threads.map recorded)).totalSamples = (threads.map fun samples => (recorded samples).totalSamples).sum ∧
      (aggregate (threads.map recorded)).totalBytes = (threads.map fun samples => (samples.map representative).sum).sum := by
  obtain ⟨buckets, samples, bytes⟩ := foldl_reRecord empty (threads.map recorded)
  simp only [List.map_map, Function.comp_def, recorded_samples, recorded_representatives] at buckets samples bytes
  refine ⟨fun i inside => ?_, ?_, ?_⟩
  · exact (buckets i inside).trans (zero_add _)
  · exact samples.trans (zero_add _)
  · exact bytes.trans (zero_add _)

/-- A sample of three bytes counts for four. -/
theorem aggregate_three_bytes : ¬ ∀ threads : List (List (BitVec 64)),
    (∀ i < 32, (aggregate (threads.map recorded)).buckets i = (threads.map fun samples => (recorded samples).buckets i).sum) ∧
      (aggregate (threads.map recorded)).totalSamples = (threads.map fun samples => (recorded samples).totalSamples).sum ∧
      (aggregate (threads.map recorded)).totalBytes = (threads.map fun samples => (recorded samples).totalBytes).sum := by
  intro claimed
  exact absurd (claimed [[3]]).2.2 (by decide)

end LogarithmicByteHistogram

end Faunus.Stats
