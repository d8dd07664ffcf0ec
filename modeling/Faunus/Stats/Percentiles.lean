import Faunus.Stats.Latency
import Faunus.Rounding.Binary

/-! The latency histogram of the benchmark in floating-point numbers.

Every product and quotient of the source is rounded to a `double`, and so are the
percentile it is called with and the counters it divides; the bounds of the buckets
are exact. The logarithm of the C library is a parameter. The loop over the buckets is
the one of exact numbers. Counters are natural numbers: there are too few samples for
them to wrap around.
-/

set_option autoImplicit false

namespace Faunus.Stats.Doubles

open Rounding

def minLatencyUs : ℚ := 1 / 2

def getBucketLowerBound (i : ℕ) : ℚ := if i = 0 then 0 else minLatencyUs * 2 ^ (i - 1)

def getBucketUpperBound (i : ℕ) : ℚ := minLatencyUs * 2 ^ i

section
variable (log : ℚ → ℚ)

def getBucketIndex (latency : ℚ) : ℕ :=
  if latency < minLatencyUs then 0 else min ⌊double (log (double (latency / minLatencyUs)) / log 2)⌋₊ 31

def addSample (s : HistogramLatencySampler) (latency : ℚ) : HistogramLatencySampler :=
  if getBucketIndex log latency = 31 ∧ getBucketUpperBound 31 < latency then
    { s with overflowSamples := s.overflowSamples + 1, totalSamples := s.totalSamples + 1 }
  else
    { s with
      buckets := Function.update s.buckets (getBucketIndex log latency) (s.buckets (getBucketIndex log latency) + 1)
      totalSamples := s.totalSamples + 1 }

def recorded (samples : List ℚ) : HistogramLatencySampler := samples.foldl (addSample log) .empty

end

def targetRank (s : HistogramLatencySampler) (percentile : ℚ) : ℕ := ⌊double (percentile * double s.totalSamples)⌋₊

/-- Nothing where the bucket is empty, since the quotient is not a number then. -/
def fraction (s : HistogramLatencySampler) (rank i cumulative : ℕ) : Option ℚ :=
  if s.buckets i = 0 then none else some (double (double (rank - cumulative : ℕ) / double (s.buckets i)))

def calculatePercentile (s : HistogramLatencySampler) (percentile : ℚ) : Option ℚ :=
  if s.totalSamples = 0 then some 0
  else
    match s.stop (targetRank s percentile) with
    | some (i, cumulative) => (fraction s (targetRank s percentile) i cumulative).map fun part =>
        double (getBucketLowerBound i + double (part * double (getBucketUpperBound i - getBucketLowerBound i)))
    | none => some (getBucketUpperBound 31 * 2)

/-- Where the loop is run, it stops at a bucket with samples, and the fraction is one of it. -/
def Interpolates (log : ℚ → ℚ) (samples : List ℚ) (percentile : ℚ) : Prop :=
  (recorded log samples).totalSamples ≠ 0 →
    ∀ i cumulative, (recorded log samples).stop (targetRank (recorded log samples) (double percentile)) = some (i, cumulative) →
      (recorded log samples).buckets i ≠ 0 ∧
        ∃ part, fraction (recorded log samples) (targetRank (recorded log samples) (double percentile)) i cumulative = some part ∧
          0 ≤ part ∧ part ≤ 1

/-! ## The samples of the first bucket -/

section
variable (log : ℚ → ℚ)

theorem totalSamples_addSample (s : HistogramLatencySampler) (latency : ℚ) :
    (addSample log s latency).totalSamples = s.totalSamples + 1 := by
  unfold addSample
  split_ifs <;> rfl

theorem recorded_append (rest : List ℚ) (latency : ℚ) :
    recorded log (rest ++ [latency]) = addSample log (recorded log rest) latency := by
  simp [recorded]

theorem totalSamples_recorded (samples : List ℚ) : (recorded log samples).totalSamples = samples.length := by
  induction samples using List.reverseRecOn with
  | nil => rfl
  | append_singleton rest latency ih => rw [recorded_append, totalSamples_addSample, ih, List.length_append, List.length_singleton]

theorem buckets_zero_addSample (s : HistogramLatencySampler) (latency : ℚ) :
    (addSample log s latency).buckets 0 = s.buckets 0 + if getBucketIndex log latency = 0 then 1 else 0 := by
  by_cases first : getBucketIndex log latency = 0
  · have counted : ¬ (getBucketIndex log latency = 31 ∧ getBucketUpperBound 31 < latency) := by omega
    rw [addSample, if_neg counted, if_pos first, first]
    simp
  · rw [addSample, if_neg first]
    split_ifs
    · rfl
    · exact Function.update_of_ne (Ne.symm first) _ _

theorem buckets_zero_ne_iff (samples : List ℚ) :
    (recorded log samples).buckets 0 ≠ 0 ↔ ∃ latency ∈ samples, getBucketIndex log latency = 0 := by
  induction samples using List.reverseRecOn with
  | nil => simp [recorded, HistogramLatencySampler.empty]
  | append_singleton rest latency ih =>
    rw [recorded_append, buckets_zero_addSample]
    by_cases first : getBucketIndex log latency = 0
    · simp [first]
    · simp [first, ih]

end

/-! ## Where the loop stops -/

theorem fraction_mem {s : HistogramLatencySampler} {rank i cumulative : ℕ} (stopped : s.stop rank = some (i, cumulative))
    (counted : s.buckets i ≠ 0) : ∃ part, fraction s rank i cumulative = some part ∧ 0 ≤ part ∧ part ≤ 1 := by
  obtain ⟨rfl, -, reached, -⟩ := HistogramLatencySampler.stop_spec stopped
  rw [HistogramLatencySampler.before_succ] at reached
  have less : ((rank - s.before i : ℕ) : ℚ) ≤ s.buckets i := by exact_mod_cast (by omega : rank - s.before i ≤ s.buckets i)
  exact ⟨_, if_neg counted, binary64.round_div_mem (by decide) (Nat.cast_nonneg _) less⟩

/-- The loop stops at an empty bucket only for the rank 0, at the first one. -/
theorem interpolates_iff (log : ℚ → ℚ) {samples : List ℚ} (some : samples ≠ []) (percentile : ℚ) :
    Interpolates log samples percentile ↔
      1 ≤ double (double percentile * double samples.length) ∨ ∃ latency ∈ samples, getBucketIndex log latency = 0 := by
  have ranks : 1 ≤ targetRank (recorded log samples) (double percentile) ↔
    1 ≤ double (double percentile * double samples.length) := by
    rw [targetRank, totalSamples_recorded, Nat.one_le_floor_iff]
  rw [← ranks, ← buckets_zero_ne_iff]
  constructor
  · intro interpolates
    have total : (recorded log samples).totalSamples ≠ 0 := by
      rw [totalSamples_recorded]
      simpa using some
    by_cases rank : 1 ≤ targetRank (recorded log samples) (double percentile)
    · exact .inl rank
    · exact .inr (interpolates total 0 _ (HistogramLatencySampler.stop_eq (by omega) (by omega) (.inl rfl))).1
  · intro condition _ i cumulative stopped
    have counted : (recorded log samples).buckets i ≠ 0 := by
      obtain ⟨rfl, -, reached, first⟩ := HistogramLatencySampler.stop_spec stopped
      rw [HistogramLatencySampler.before_succ] at reached
      by_cases start : i = 0
      · subst start
        rw [HistogramLatencySampler.before_zero] at reached
        omega
      · omega
    exact ⟨counted, fraction_mem stopped counted⟩

/-- The values of the logarithm that a sample of 5 μs needs. -/
def sampleLog (x : ℚ) : ℚ := if x = 10 then 2592480341699211 / 2 ^ 50 else if x = 2 then 6243314768165359 / 2 ^ 53 else 0

/-- The double nearest to a third, times three, is rounded to 1. -/
theorem interpolates_iff_third : Interpolates sampleLog [5, 5, 5] (1 / 3) :=
  (interpolates_iff sampleLog (by simp) (1 / 3)).2 (.inl (by decide +kernel))

/-- The median of one sample of 5 μs has the rank 0, which the empty first bucket reaches. -/
theorem interpolates_fails_single : getBucketIndex sampleLog 5 = 3 ∧ ¬ ∀ (samples : List ℚ) (percentile : ℚ),
    samples ≠ [] → 0 ≤ percentile → percentile ≤ 1 → Interpolates sampleLog samples percentile := by
  have index : getBucketIndex sampleLog 5 = 3 := by decide +kernel
  refine ⟨index, fun claimed => ?_⟩
  have interpolates := claimed [5] (1 / 2) (by simp) (by norm_num) (by norm_num)
  have rank : targetRank (recorded sampleLog [5]) (double (1 / 2)) = 0 := by decide +kernel
  have stopped : (recorded sampleLog [5]).stop (targetRank (recorded sampleLog [5]) (double (1 / 2))) = some (0, 0) := by
    rw [rank]
    exact HistogramLatencySampler.stop_eq (by omega) (by omega) (.inl rfl)
  have counted := (interpolates (by rw [totalSamples_recorded]; simp) 0 0 stopped).1
  obtain ⟨latency, member, first⟩ := (buckets_zero_ne_iff sampleLog [5]).1 counted
  rw [List.mem_singleton.1 member, index] at first
  cases first

end Faunus.Stats.Doubles
