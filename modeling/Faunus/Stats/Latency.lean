import Mathlib.Analysis.SpecialFunctions.Log.Base
import Mathlib.Algebra.BigOperators.Intervals

/-! The latency histogram of the benchmark, over exact reals.

The bucket of a latency is the logarithm of its quotient by the least latency. The
bounds of a bucket are computed on their own, with an exponent that is one less for the
lower bound, so a latency lies above the bucket it is counted in unless it is one of the
bounds. The counters do not wrap around here.
-/

set_option autoImplicit false

namespace Faunus.Stats

structure HistogramLatencySampler where
  buckets : ℕ → ℕ
  totalSamples : ℕ
  overflowSamples : ℕ

namespace HistogramLatencySampler

def empty : HistogramLatencySampler := ⟨fun _ => 0, 0, 0⟩

noncomputable def minLatencyUs : ℝ := 1 / 2

noncomputable def getBucketIndex (latency : ℝ) : ℕ :=
  if latency < minLatencyUs then 0 else min ⌊Real.log (latency / minLatencyUs) / Real.log 2⌋₊ 31

noncomputable def getBucketLowerBound (i : ℕ) : ℝ := if i = 0 then 0 else minLatencyUs * 2 ^ (i - 1)

noncomputable def getBucketUpperBound (i : ℕ) : ℝ := minLatencyUs * 2 ^ i

noncomputable def addSample (s : HistogramLatencySampler) (latency : ℝ) : HistogramLatencySampler :=
  if getBucketIndex latency = 31 ∧ getBucketUpperBound 31 < latency then
    { s with overflowSamples := s.overflowSamples + 1, totalSamples := s.totalSamples + 1 }
  else
    { s with
      buckets := Function.update s.buckets (getBucketIndex latency) (s.buckets (getBucketIndex latency) + 1)
      totalSamples := s.totalSamples + 1 }

/-- The loop of `calculate_percentile` over the buckets that are left: the bucket it stops at and the samples before it. -/
def stopLoop (s : HistogramLatencySampler) (rank : ℕ) : ℕ → ℕ → ℕ → Option (ℕ × ℕ)
  | 0, _, _ => none
  | left + 1, i, cumulative =>
    if rank ≤ cumulative + s.buckets i then some (i, cumulative) else stopLoop s rank left (i + 1) (cumulative + s.buckets i)

def stop (s : HistogramLatencySampler) (rank : ℕ) : Option (ℕ × ℕ) := s.stopLoop rank 32 0 0

noncomputable def targetRank (s : HistogramLatencySampler) (percentile : ℝ) : ℕ := ⌊percentile * s.totalSamples⌋₊

noncomputable def fraction (s : HistogramLatencySampler) (rank i cumulative : ℕ) :
    ℝ := ((rank - cumulative : ℕ) : ℝ) / (s.buckets i : ℝ)

/-- Nothing is returned where the quotient is zero by zero, which is not a number. -/
noncomputable def calculatePercentile (s : HistogramLatencySampler) (percentile : ℝ) : Option ℝ :=
  if s.totalSamples = 0 then some 0
  else
    match s.stop (s.targetRank percentile) with
    | some (i, cumulative) =>
      if s.buckets i = 0 then none
      else some (getBucketLowerBound i + s.fraction (s.targetRank percentile) i cumulative *
        (getBucketUpperBound i - getBucketLowerBound i))
    | none => some (getBucketUpperBound 31 * 2)

/-- The histogram of the samples. -/
noncomputable def recorded (samples : List ℝ) : HistogramLatencySampler := samples.foldl addSample empty

/-! ## The bounds -/

theorem getBucketUpperBound_mono {i j : ℕ} (below : i ≤ j) : getBucketUpperBound i ≤ getBucketUpperBound j := by
  unfold getBucketUpperBound minLatencyUs
  gcongr
  norm_num

theorem getBucketLowerBound_le (i : ℕ) : getBucketLowerBound i ≤ getBucketUpperBound i := by
  unfold getBucketLowerBound getBucketUpperBound minLatencyUs
  split_ifs
  · positivity
  · gcongr
    · norm_num
    · omega

theorem getBucketUpperBound_zero : getBucketUpperBound 0 = 1 / 2 := by
  simp [getBucketUpperBound, minLatencyUs]

theorem le_getBucketIndex_iff {k : ℕ} (low : 1 ≤ k) (high : k ≤ 31) (latency : ℝ) :
    k ≤ getBucketIndex latency ↔ getBucketUpperBound k ≤ latency := by
  -- a latency is counted in a bucket from its upper bound on
  unfold getBucketIndex
  split_ifs with small
  · have above : minLatencyUs ≤ getBucketUpperBound k := by
      rw [minLatencyUs, ← getBucketUpperBound_zero]
      exact getBucketUpperBound_mono (Nat.zero_le k)
    constructor
    · intro zero
      omega
    · intro bound
      exact absurd (above.trans bound) (not_le.2 small)
  · have positive : 0 < latency / minLatencyUs := by
      have half : 0 < minLatencyUs := by norm_num [minLatencyUs]
      exact div_pos (half.trans_le (not_lt.1 small)) half
    rw [le_min_iff, and_iff_left high, Nat.le_floor_iff' (by omega), Real.log_div_log,
      Real.le_logb_iff_rpow_le (by norm_num) positive,
      Real.rpow_natCast, getBucketUpperBound, minLatencyUs, le_div_iff₀ (by norm_num), mul_comm]

theorem getBucketIndex_le (latency : ℝ) : getBucketIndex latency ≤ 31 := by
  unfold getBucketIndex
  split_ifs
  · exact Nat.zero_le 31
  · exact min_le_right _ _

theorem getBucketIndex_upperBound {k : ℕ} (high : k ≤ 31) : getBucketIndex (getBucketUpperBound k) = k := by
  apply le_antisymm
  · by_contra more
    have below : k + 1 ≤ getBucketIndex (getBucketUpperBound k) := by omega
    have next := (le_getBucketIndex_iff (by omega) (below.trans (getBucketIndex_le _)) _).1 below
    have twice : getBucketUpperBound (k + 1) = 2 * getBucketUpperBound k := by
      unfold getBucketUpperBound
      ring
    have positive : 0 < getBucketUpperBound k := by
      unfold getBucketUpperBound minLatencyUs
      positivity
    linarith
  · by_cases first : k = 0
    · omega
    · exact (le_getBucketIndex_iff (by omega) high _).2 le_rfl

def InBucket (i : ℕ) (latency : ℝ) : Prop := getBucketLowerBound i ≤ latency ∧ latency ≤ getBucketUpperBound i

/-- The latencies that lie in the bucket they are counted in: those of bucket 0, and the upper bounds. -/
def OnBound (latency : ℝ) : Prop := latency ≤ 1 / 2 ∨ ∃ k ≤ 31, latency = getBucketUpperBound k

theorem getBucketIndex_of_small {latency : ℝ} (small : latency ≤ 1 / 2) : getBucketIndex latency = 0 := by
  by_contra other
  have next := (le_getBucketIndex_iff (Nat.le_refl 1) (by omega) latency).1 (by omega)
  norm_num [getBucketUpperBound, minLatencyUs] at next
  linarith

theorem inBucket_getBucketIndex_iff {latency : ℝ} (sign : 0 ≤ latency) : InBucket (getBucketIndex latency) latency ↔
    OnBound latency := by
  constructor
  · rintro ⟨-, bound⟩
    by_cases first : getBucketIndex latency = 0
    · rw [first, getBucketUpperBound_zero] at bound
      exact .inl bound
    · have lower := (le_getBucketIndex_iff (by omega) (getBucketIndex_le latency) latency).1 le_rfl
      exact .inr ⟨_, getBucketIndex_le latency, le_antisymm bound lower⟩
  · rintro (small | ⟨k, high, rfl⟩)
    · rw [getBucketIndex_of_small small]
      exact ⟨by simpa [getBucketLowerBound] using sign, by rwa [getBucketUpperBound_zero]⟩
    · rw [getBucketIndex_upperBound high]
      exact ⟨getBucketLowerBound_le k, le_rfl⟩

/-! ## One sample -/

def Overflows (latency : ℝ) : Prop := getBucketUpperBound 31 < latency

theorem getBucketIndex_of_overflows {latency : ℝ} (beyond : Overflows latency) : getBucketIndex latency = 31 :=
  le_antisymm (getBucketIndex_le latency) ((le_getBucketIndex_iff (by omega) le_rfl latency).2 (le_of_lt beyond))

/-- A sample is counted in a bucket whose range holds it, or as overflow if it lies above all ranges. -/
def Placed (latency : ℝ) : Prop :=
  ∀ s : HistogramLatencySampler,
    (∃ i < 32, s.addSample latency = { s with buckets := Function.update s.buckets i (s.buckets i + 1), totalSamples :=
      s.totalSamples + 1 } ∧
      InBucket i latency) ∨
    (s.addSample latency = { s with overflowSamples := s.overflowSamples + 1, totalSamples := s.totalSamples + 1 } ∧
      getBucketUpperBound 31 < latency ∧ ∀ i < 32, ¬ InBucket i latency)

theorem addSample_overflows (s : HistogramLatencySampler) {latency : ℝ} (beyond : Overflows latency) :
    s.addSample latency = { s with overflowSamples := s.overflowSamples + 1, totalSamples := s.totalSamples + 1 } :=
  if_pos ⟨getBucketIndex_of_overflows beyond, beyond⟩

theorem addSample_counted (s : HistogramLatencySampler) {latency : ℝ} (inside : ¬ Overflows latency) :
    s.addSample latency =
      { s with
        buckets := Function.update s.buckets (getBucketIndex latency) (s.buckets (getBucketIndex latency) + 1)
        totalSamples := s.totalSamples + 1 } :=
  if_neg fun both => inside both.2

theorem placed_iff {latency : ℝ} (sign : 0 ≤ latency) : Placed latency ↔ OnBound latency ∨ Overflows latency := by
  by_cases beyond : Overflows latency
  · refine iff_of_true (fun s => .inr ⟨addSample_overflows s beyond, beyond, fun i inside held => ?_⟩) (.inr beyond)
    exact absurd (held.2.trans (getBucketUpperBound_mono (by omega))) (not_le.2 beyond)
  · rw [or_iff_left beyond, ← inBucket_getBucketIndex_iff sign]
    constructor
    · intro placed
      obtain ⟨i, -, counted, held⟩ | ⟨-, above, -⟩ := placed empty
      · rw [addSample_counted empty beyond] at counted
        have buckets := congrArg (fun s => s.buckets i) counted
        simp only [Function.update_self] at buckets
        by_cases same : i = getBucketIndex latency
        · rwa [← same]
        · rw [Function.update_of_ne same] at buckets
          simp [empty] at buckets
      · exact absurd above beyond
    · intro held s
      exact .inl ⟨_, Nat.lt_succ_of_le (getBucketIndex_le latency), addSample_counted s beyond, held⟩

/-! ## Counting the samples -/

/-- The samples of the buckets before a bucket. -/
def before (s : HistogramLatencySampler) (i : ℕ) : ℕ := ∑ j ∈ Finset.range i, s.buckets j

@[simp] theorem before_zero (s : HistogramLatencySampler) : s.before 0 = 0 := rfl

theorem before_succ (s : HistogramLatencySampler) (i : ℕ) : s.before (i + 1) = s.before i + s.buckets i := Finset.sum_range_succ ..

/-- The sample is counted in one of the buckets before a bucket. -/
def CountedBefore (i : ℕ) (latency : ℝ) : Prop := getBucketIndex latency < i ∧ ¬ Overflows latency

open Classical in
theorem before_addSample (s : HistogramLatencySampler) (latency : ℝ) (i : ℕ) :
    (s.addSample latency).before i = s.before i + if CountedBefore i latency then 1 else 0 := by
  by_cases beyond : Overflows latency
  · rw [addSample_overflows s beyond, if_neg fun counted => counted.2 beyond]
    rfl
  · rw [addSample_counted s beyond]
    by_cases inside : getBucketIndex latency < i
    · have member : getBucketIndex latency ∈ Finset.range i := Finset.mem_range.2 inside
      rw [if_pos ⟨inside, beyond⟩, before, before, Finset.sum_update_of_mem member, ← Finset.add_sum_erase _ _ member,
        Finset.sdiff_singleton_eq_erase]
      omega
    · rw [if_neg fun counted => inside counted.1, before, Finset.sum_update_of_notMem (by simpa using inside)]
      rfl

open Classical in
theorem before_recorded (samples : List ℝ) (i : ℕ) : (recorded samples).before i = samples.countP (CountedBefore i ·) := by
  induction samples using List.reverseRecOn with
  | nil => simp [recorded, before, empty]
  | append_singleton rest latency ih =>
    rw [recorded, List.foldl_append, List.foldl_cons, List.foldl_nil, before_addSample, ← recorded, ih, List.countP_append,
      List.countP_singleton]
    simp

theorem totalSamples_addSample (s : HistogramLatencySampler) (latency : ℝ) :
    (s.addSample latency).totalSamples = s.totalSamples + 1 := by
  unfold addSample
  split_ifs <;> rfl

theorem totalSamples_recorded (samples : List ℝ) : (recorded samples).totalSamples = samples.length := by
  induction samples using List.reverseRecOn with
  | nil => rfl
  | append_singleton rest latency ih =>
    rw [recorded, List.foldl_append, List.foldl_cons, List.foldl_nil, totalSamples_addSample, ← recorded, ih, List.length_append]
    rfl

/-! ## Where the loop stops -/

theorem stopLoop_spec {s : HistogramLatencySampler} {rank left i j cumulative : ℕ}
    (stopped : s.stopLoop rank left i (s.before i) = some (j, cumulative)) :
    cumulative = s.before j ∧ j < i + left ∧ rank ≤ s.before (j + 1) ∧ (j = i ∨ s.before j < rank) := by
  induction left generalizing i with
  | zero => cases stopped
  | succ left ih =>
    unfold stopLoop at stopped
    split_ifs at stopped with reached
    · cases stopped
      exact ⟨rfl, by omega, by rwa [before_succ], .inl rfl⟩
    · rw [← before_succ] at stopped reached
      obtain ⟨same, high, next, first⟩ := ih stopped
      refine ⟨same, by omega, next, .inr ?_⟩
      rcases first with rfl | below
      · exact not_le.1 reached
      · exact below

theorem stopLoop_reaches {s : HistogramLatencySampler} {rank left i j : ℕ} (low : i ≤ j) (high : j < i + left)
    (reached : rank ≤ s.before (j + 1)) :
    ∃ stopped, s.stopLoop rank left i (s.before i) = some stopped := by
  induction left generalizing i with
  | zero => omega
  | succ left ih =>
    unfold stopLoop
    split_ifs with here
    · exact ⟨_, rfl⟩
    · rw [← before_succ] at here ⊢
      have later : i ≠ j := fun same => here (same ▸ reached)
      exact ih (by omega) (by omega)

theorem before_mono (s : HistogramLatencySampler) {i j : ℕ} (below : i ≤ j) : s.before i ≤ s.before j :=
  Finset.sum_le_sum_of_subset (Finset.range_mono below)

theorem stop_spec {s : HistogramLatencySampler} {rank j cumulative : ℕ} (stopped : s.stop rank = some (j, cumulative)) :
    cumulative = s.before j ∧ j < 32 ∧ rank ≤ s.before (j + 1) ∧ (j = 0 ∨ s.before j < rank) := by
  have spec := stopLoop_spec stopped
  rwa [Nat.zero_add] at spec

theorem stop_eq {s : HistogramLatencySampler} {rank j : ℕ} (high : j < 32) (reached : rank ≤ s.before (j + 1))
    (first : j = 0 ∨ s.before j < rank) :
    s.stop rank = some (j, s.before j) := by
  obtain ⟨⟨j', cumulative⟩, stopped⟩ := stopLoop_reaches (Nat.zero_le j) (by omega : j < 0 + 32) reached
  obtain ⟨rfl, high', reached', first'⟩ := stop_spec stopped
  have same : j' = j := by
    rcases Nat.lt_trichotomy j' j with lower | same | upper
    · have := s.before_mono (by omega : j' + 1 ≤ j)
      omega
    · exact same
    · have := s.before_mono (by omega : j + 1 ≤ j')
      omega
  rw [← same]
  exact stopped

theorem fraction_mem {s : HistogramLatencySampler} {rank i cumulative : ℕ} (stopped : s.stop rank = some (i, cumulative))
    (some : s.buckets i ≠ 0) :
    0 ≤ s.fraction rank i cumulative ∧ s.fraction rank i cumulative ≤ 1 := by
  obtain ⟨rfl, -, reached, -⟩ := stop_spec stopped
  rw [before_succ] at reached
  have positive : (0 : ℝ) < s.buckets i := by exact_mod_cast Nat.pos_of_ne_zero some
  unfold fraction
  constructor
  · positivity
  · rw [div_le_one positive]
    exact_mod_cast (by omega : rank - s.before i ≤ s.buckets i)

theorem one_le_targetRank_iff (samples : List ℝ) (percentile : ℝ) :
    1 ≤ (recorded samples).targetRank percentile ↔ 1 ≤ percentile * samples.length := by
  rw [targetRank, totalSamples_recorded, Nat.one_le_floor_iff]

/-! ## The sample of a rank -/

/-- The sample of a rank in ascending order; the rank 0 is that of the least sample. -/
structure IsRank (samples : List ℝ) (rank : ℕ) (latency : ℝ) : Prop where
  member : latency ∈ samples
  below : samples.countP (· < latency) < max rank 1
  reached : max rank 1 ≤ samples.countP (· ≤ latency)

theorem getBucketIndex_mono {latency latency' : ℝ} (below : latency ≤ latency') :
    getBucketIndex latency ≤ getBucketIndex latency' := by
  by_cases first : getBucketIndex latency = 0
  · omega
  · have bound := (le_getBucketIndex_iff (by omega) (getBucketIndex_le latency) latency).1 le_rfl
    exact (le_getBucketIndex_iff (by omega) (getBucketIndex_le latency) latency').2 (bound.trans below)

section
variable {samples : List ℝ} {rank : ℕ} {latency : ℝ} (ranked : IsRank samples rank latency) (inside : ¬ Overflows latency)
include ranked

theorem IsRank.before_lt : (recorded samples).before (getBucketIndex latency) < max rank 1 := by
  rw [before_recorded]
  refine lt_of_le_of_lt (List.countP_mono_left fun other _ counted => ?_) ranked.below
  obtain ⟨earlier, -⟩ : CountedBefore (getBucketIndex latency) other := by simpa using counted
  refine decide_eq_true (not_le.1 fun above => ?_)
  have := getBucketIndex_mono above
  omega

include inside

theorem IsRank.le_before : max rank 1 ≤ (recorded samples).before (getBucketIndex latency + 1) := by
  rw [before_recorded]
  refine ranked.reached.trans (List.countP_mono_left fun other _ below => ?_)
  have smaller : other ≤ latency := of_decide_eq_true below
  have counted : CountedBefore (getBucketIndex latency + 1) other :=
    ⟨Nat.lt_succ_of_le (getBucketIndex_mono smaller), fun beyond => inside (lt_of_lt_of_le beyond smaller)⟩
  simpa using counted

end

/-- The percentile lies in the range of the bucket that counts the sample, and the sample does. -/
def Reports (samples : List ℝ) (percentile latency : ℝ) : Prop :=
  ∃ value i, (recorded samples).calculatePercentile percentile = some value ∧
    i = getBucketIndex latency ∧ ¬ Overflows latency ∧ InBucket i latency ∧ InBucket i value

theorem inBucket_interpolated {s : HistogramLatencySampler} {rank i cumulative : ℕ} (stopped : s.stop rank = some (i, cumulative))
    (some : s.buckets i ≠ 0) :
    InBucket i (getBucketLowerBound i + s.fraction rank i cumulative * (getBucketUpperBound i - getBucketLowerBound i)) := by
  obtain ⟨low, high⟩ := fraction_mem stopped some
  have width : 0 ≤ getBucketUpperBound i - getBucketLowerBound i := sub_nonneg.2 (getBucketLowerBound_le i)
  constructor
  · have := mul_nonneg low width
    linarith
  · have := mul_le_of_le_one_left width high
    linarith

theorem reports_iff_of_pos {samples : List ℝ} {percentile latency : ℝ} (sign : 0 ≤ latency)
    (ranked : IsRank samples ((recorded samples).targetRank percentile) latency) (inside : ¬ Overflows latency)
    (positive : 1 ≤ (recorded samples).targetRank percentile) : Reports samples percentile latency ↔ OnBound latency := by
  -- for a rank above 0 the loop stops at the bucket of the sample
  rw [← inBucket_getBucketIndex_iff sign]
  have low := ranked.before_lt
  have high := ranked.le_before inside
  rw [max_eq_left positive] at low high
  have stopped := stop_eq (Nat.lt_succ_of_le (getBucketIndex_le latency)) high (.inr low)
  have counted : (recorded samples).buckets (getBucketIndex latency) ≠ 0 := by
    rw [before_succ] at high
    omega
  have total : (recorded samples).totalSamples ≠ 0 := by
    rw [totalSamples_recorded]
    exact List.length_pos_of_mem ranked.member |>.ne'
  constructor
  · rintro ⟨value, i, -, rfl, -, held, -⟩
    exact held
  · intro held
    refine ⟨_, _, ?_, rfl, inside, held, inBucket_interpolated stopped counted⟩
    rw [calculatePercentile, if_neg total, stopped]
    exact if_neg counted

theorem reports_iff_of_zero {samples : List ℝ} {percentile latency : ℝ} (sign : 0 ≤ latency)
    (ranked : IsRank samples ((recorded samples).targetRank percentile) latency) (inside : ¬ Overflows latency)
    (zero : (recorded samples).targetRank percentile = 0) : Reports samples percentile latency ↔ latency ≤ 1 / 2 := by
  -- for the rank 0 the loop stops at the first bucket
  have stopped : (recorded samples).stop 0 = some (0, 0) := stop_eq (by omega) (by omega) (.inl rfl)
  have lower : getBucketLowerBound 0 = 0 := if_pos rfl
  constructor
  · rintro ⟨value, i, reported, same, -, held, holds⟩
    have start : value = 0 := by
      rw [calculatePercentile, zero, stopped] at reported
      simp only [fraction, lower, Nat.sub_self, Nat.cast_zero, zero_div, zero_mul, zero_add] at reported
      split_ifs at reported
      · exact (Option.some.inj reported).symm
      · exact (Option.some.inj reported).symm
    have first : i = 0 := by
      by_contra other
      have bound := holds.1
      rw [start, getBucketLowerBound, if_neg other, minLatencyUs] at bound
      have : (0 : ℝ) < 1 / 2 * 2 ^ (i - 1) := by positivity
      linarith
    rw [← getBucketUpperBound_zero, ← first]
    exact held.2
  · intro small
    have index := getBucketIndex_of_small small
    have reached := ranked.le_before inside
    have counted : (recorded samples).buckets 0 ≠ 0 := by
      rw [index, before_succ, before_zero] at reached
      omega
    have total : (recorded samples).totalSamples ≠ 0 := by
      rw [totalSamples_recorded]
      exact List.length_pos_of_mem ranked.member |>.ne'
    refine ⟨_, 0, ?_, index.symm, inside, ?_, inBucket_interpolated stopped counted⟩
    · rw [calculatePercentile, if_neg total, zero, stopped]
      exact if_neg counted
    · exact ⟨lower.symm ▸ sign, getBucketUpperBound_zero.symm ▸ small⟩

theorem reports_iff {samples : List ℝ} {percentile latency : ℝ} (sign : 0 ≤ latency)
    (ranked : IsRank samples ((recorded samples).targetRank percentile) latency) :
    Reports samples percentile latency ↔
      latency ≤ 1 / 2 ∨ 1 ≤ (recorded samples).targetRank percentile ∧ ∃ k ≤ 31, latency = getBucketUpperBound k := by
  by_cases beyond : Overflows latency
  · refine iff_of_false (fun ⟨_, _, _, _, inside, _⟩ => inside beyond) ?_
    have large : ¬ latency ≤ getBucketUpperBound 31 := not_le.2 beyond
    rintro (small | ⟨-, k, high, rfl⟩)
    · rw [← getBucketUpperBound_zero] at small
      exact large (small.trans (getBucketUpperBound_mono (by omega)))
    · exact large (getBucketUpperBound_mono high)
  · by_cases positive : 1 ≤ (recorded samples).targetRank percentile
    · rw [reports_iff_of_pos sign ranked beyond positive, and_iff_right positive]
      rfl
    · rw [reports_iff_of_zero sign ranked beyond (by omega)]
      simp [positive]

/-- Every sample is counted in a bucket whose range holds it or lies above all ranges, and the percentile is reported
from the bucket that holds the sample of its rank. -/
structure Contains (samples : List ℝ) (percentile : ℝ) : Prop where
  placed : ∀ latency ∈ samples, Placed latency
  reported : samples ≠ [] → ∃ latency, IsRank samples ((recorded samples).targetRank percentile) latency ∧
    Reports samples percentile latency

/-- The buckets hold what they count only for the upper bounds and below the first of them. -/
theorem contains_iff {samples : List ℝ} (sign : ∀ latency ∈ samples, 0 ≤ latency) (percentile : ℝ) :
    Contains samples percentile ↔
      (∀ latency ∈ samples, latency ≤ 1 / 2 ∨ (∃ k ≤ 31, latency = getBucketUpperBound k) ∨ getBucketUpperBound 31 < latency) ∧
      (samples ≠ [] → ∃ latency, IsRank samples ⌊percentile * samples.length⌋₊ latency ∧
        (latency ≤ 1 / 2 ∨ 1 ≤ percentile * samples.length ∧ ∃ k ≤ 31, latency = getBucketUpperBound k)) := by
  have places : (∀ latency ∈ samples, Placed latency) ↔
      ∀ latency ∈ samples, latency ≤ 1 / 2 ∨ (∃ k ≤ 31, latency = getBucketUpperBound k) ∨ getBucketUpperBound 31 < latency :=
    forall₂_congr fun latency member => (placed_iff (sign latency member)).trans or_assoc
  have reports : ∀ latency, IsRank samples ((recorded samples).targetRank percentile) latency ∧ Reports samples percentile latency ↔
      IsRank samples ⌊percentile * samples.length⌋₊ latency ∧
        (latency ≤ 1 / 2 ∨ 1 ≤ percentile * samples.length ∧ ∃ k ≤ 31, latency = getBucketUpperBound k) := by
    intro latency
    rw [← one_le_targetRank_iff, ← totalSamples_recorded]
    exact and_congr_right fun ranked => reports_iff (sign latency ranked.member) ranked
  rw [← places, ← exists_congr reports]
  exact ⟨fun contains => ⟨contains.placed, contains.reported⟩, fun both => ⟨both.1, both.2⟩⟩

theorem contains_iff_half : Contains [1 / 2] 1 := by
  refine (contains_iff (by simp) 1).2
    ⟨fun latency member => .inl (List.mem_singleton.1 member).le, fun _ => ⟨1 / 2, ?_, .inl le_rfl⟩⟩
  constructor
  · simp
  · simp
  · simp

/-- A sample of 0.75 μs is counted in the bucket from 0 to 0.5 μs. -/
theorem contains_fails_threeQuarters : ¬ ∀ (samples : List ℝ) (percentile : ℝ),
    (∀ latency ∈ samples, 0 ≤ latency) → 0 ≤ percentile → percentile ≤ 1 → Contains samples percentile := by
  intro claimed
  have contains := claimed [3 / 4] 1 (by intro latency member; rw [List.mem_singleton.1 member]; norm_num) (by norm_num)
    (by norm_num)
  obtain (small | ⟨k, -, bound⟩) | beyond := (placed_iff (by norm_num)).1 (contains.placed (3 / 4) (by simp))
  · norm_num at small
  · by_cases first : k = 0
    · rw [first, getBucketUpperBound_zero] at bound
      norm_num at bound
    · have next := getBucketUpperBound_mono (by omega : 1 ≤ k)
      rw [← bound] at next
      norm_num [getBucketUpperBound, minLatencyUs] at next
  · norm_num [Overflows, getBucketUpperBound, minLatencyUs] at beyond

end HistogramLatencySampler

end Faunus.Stats
